import ParseTree.Arena.Navigation
import ParseTree.Query.Pattern

/-!
# Matching patterns

`Pattern.matchAt` looks for a way to lay a pattern over the tree at a node such
that the predicates hold.  The search passes each partial binding on to a
continuation and returns the first success.  Elements for children take
children from left to right; an optional element is skipped only after every
remaining child has failed; branches of a choice are tried as written.
-/

namespace ParseTree.Query

abbrev Bindings := List (Option Nat)

namespace Bindings

def get? (b : Bindings) (slot : Nat) : Option Nat := (b[slot]?).join

end Bindings

namespace Mark

def allows (mark : Mark) (label : Label) : Bool :=
  match mark.field with
  | none => true
  | some field => label.field == some field

def bind (mark : Mark) (id : Nat) (b : Bindings) : Bindings :=
  mark.captures.foldl (fun b slot => b.set slot (some id)) b

end Mark

def firstSplit (attempt : α → List α → Option β) : List α → Option β
  | [] => none
  | a :: rest =>
      match attempt a rest with
      | some result => some result
      | none => firstSplit attempt rest

def lacksFields (a : Arena) (id : Nat) (fields : List String) : Bool :=
  fields.all fun field => (a.childrenByField id field).isEmpty

mutual

def Element.search (a : Arena) (id : Nat) :
    Element → Bindings → (Bindings → Option β) → Option β
  | .node test children absent mark, b, found =>
      if mark.allows (a.label id) && test.accepts (a.label id) && lacksFields a id absent then
        searchSequence a children (a.children id) b fun b => found (mark.bind id b)
      else none
  | .choice branches mark, b, found =>
      if mark.allows (a.label id) then
        searchBranches a id branches b fun b => found (mark.bind id b)
      else none

def searchSequence (a : Arena) :
    List Element → List Nat → Bindings → (Bindings → Option β) → Option β
  | [], _, b, found => found b
  | e :: es, ids, b, found =>
      match firstSplit (fun id rest =>
          e.search a id b fun b => searchSequence a es rest b found) ids with
      | some result => some result
      | none => if e.mark.optional then searchSequence a es ids b found else none

def searchBranches (a : Arena) (id : Nat) :
    List Element → Bindings → (Bindings → Option β) → Option β
  | [], _, _ => none
  | e :: es, b, found =>
      match e.search a id b found with
      | some result => some result
      | none => searchBranches a id es b found

end

/-- A predicate over a capture that is not bound holds. -/
def Predicate.holds (p : Predicate) (textOf : Nat → Text) (b : Bindings) : Bool :=
  match b.get? p.capture with
  | none => true
  | some id =>
      match p.operand with
      | .text t => (textOf id == t) != p.negated
      | .capture slot =>
          match b.get? slot with
          | none => true
          | some other => (textOf id == textOf other) != p.negated

namespace Pattern

def predicatesHold (p : Pattern) (textOf : Nat → Text) (b : Bindings) : Bool :=
  p.predicates.all fun predicate => predicate.holds textOf b

def unbound (p : Pattern) : Bindings := List.replicate p.captureNames.length none

def matchAt (p : Pattern) (a : Arena) (textOf : Nat → Text) (id : Nat) : Option Bindings :=
  p.root.search a id p.unbound fun b => if p.predicatesHold textOf b then some b else none

end Pattern

end ParseTree.Query
