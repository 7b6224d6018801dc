import ParseTree.Grammar
import ParseTree.Query.Compile
import ParseTree.Query.Match
import ParseTree.Settings

/-!
# Running queries

A query is run over a subtree node by node in pre-order, and at each node
pattern by pattern.  A byte range leaves out nodes, and a limit ends the run
once enough matches are found.
-/

namespace ParseTree

structure Query where
  language : Language
  source : Text
  patterns : List Query.Pattern

namespace Query

def ofSource (grammar : Grammar) (source : Text) : Except Error Query :=
  match compile grammar.vocabulary source with
  | .ok patterns => .ok ⟨grammar.language, source, patterns⟩
  | .error e => .error (e.toError grammar.language)

theorem ofSource_eq_ok_iff {grammar : Grammar} {source : Text} {q : Query} :
    ofSource grammar source = .ok q ↔
      compile grammar.vocabulary source = .ok q.patterns ∧ q.language = grammar.language ∧
        q.source = source := by
  obtain ⟨spoken, written, patterns⟩ := q
  unfold ofSource
  cases compile grammar.vocabulary source with
  | ok found => simp [eq_comm, and_comm, and_assoc]
  | error e => simp

structure Match where
  pattern : Nat
  node : Nat
  /-- The bound captures, in the order of their declaration. -/
  captures : List (String × Nat)
  deriving DecidableEq, Repr

namespace Match

def capture (m : Match) (name : String) : Except Error Nat :=
  match m.captures.lookup name with
  | some id => .ok id
  | none => .error (.captureNotFound name)

end Match

def namedCaptures (names : List String) (b : Bindings) : List (String × Nat) :=
  (names.zip b).filterMap fun (name, bound) => bound.map fun id => (name, id)

def matchOf (a : Arena) (textOf : Nat → Text) (id index : Nat) (p : Pattern) : Option Match :=
  (p.matchAt a textOf id).map fun b => ⟨index, id, namedCaptures p.captureNames b⟩

def collect (attempt : α → Option Match) : Option Nat → List α → List Match
  | some 0, _ | _, [] => []
  | limit, candidate :: rest =>
      match attempt candidate with
      | some m => m :: collect attempt (limit.map (· - 1)) rest
      | none => collect attempt limit rest

def candidates (q : Query) (a : Arena) (id : Nat) (settings : QuerySettings) :
    List (Nat × Nat × Pattern) :=
  ((a.descendants id).filter fun node => settings.covers (a.range node)).flatMap
    fun node => q.patterns.mapIdx fun index p => (node, index, p)

/-- The matches of a query at and below a node.  Predicates may read the texts
of many nodes many times, so these are cut off a ruler. -/
def matchesAt (q : Query) (a : Arena) (source : Text) (id : Nat) (settings : QuerySettings) :
    List Match :=
  let ruler := Ruler.ofText source
  collect (fun (node, index, p) => matchOf a (a.measuredText ruler) node index p)
    settings.matchLimit (q.candidates a id settings)

theorem matchesAt_eq (q : Query) (a : Arena) (source : Text) (id : Nat)
    (settings : QuerySettings) :
    q.matchesAt a source id settings =
      collect (fun (node, index, p) => matchOf a (a.textOf source) node index p)
        settings.matchLimit (q.candidates a id settings) := by
  rw [matchesAt, Arena.measuredText_ofText]

def dig (found : List Match) (index : Nat) (name : String) : Except Error Nat :=
  match found[index]? with
  | some m => m.capture name
  | none => .error (.matchNotFound index found.length)

end Query

end ParseTree
