import Mathlib.Data.List.Forall2
import ParseTree.Proofs.Arith.Faults
import ParseTree.Proofs.Query.Selection
import ParseTree.Proofs.Text.Position
import ParseTree.Session

/-!
# Diagnostics

The faults of a document are seen in four ways: as its diagnostics, by a test of the whole
tree, by a query for errors and missing nodes, and in the S-expression of the root.  Here
they are compared, and the diagnostics are seen to come in the order of the text: in
pre-order nodes start one behind the other, and rows and columns follow the offsets as far
as they are not cut off.
-/

namespace ParseTree

namespace Query

def faultPattern : Pattern :=
  { root := .choice [.node .error [] [] {}, .node (.missing none) [] [] {}] { captures := [0] }
    captureNames := ["e"]
    predicates := []
    start := 0 }

def faultQuery : Query :=
  { language := .math
    source := Text.ofString "[(ERROR) (MISSING)] @e"
    patterns := [faultPattern] }

theorem ofSource_faultQuery :
    ofSource .math (Text.ofString "[(ERROR) (MISSING)] @e") = .ok faultQuery := rfl

theorem matchAt_faultPattern (a : Arena) (textOf : Nat → Text) (id : Nat) :
    faultPattern.matchAt a textOf id = if a.isFaulty id then some [some id] else none := by
  rw [Arena.isFaulty]
  cases error : (a.label id).error <;> cases missing : (a.label id).missing <;>
    simp [faultPattern, Pattern.matchAt, Element.search, searchBranches, searchSequence,
      Mark.allows, Mark.bind, KindTest.accepts, lacksFields, Pattern.unbound,
      Pattern.predicatesHold, error, missing]

theorem matchesOn_faultQuery (a : Arena) (text : Text) (node : Nat) :
    faultQuery.matchesOn a text node =
      if a.isFaulty node then [⟨0, node, [("e", node)]⟩] else [] := by
  simp only [matchesOn, faultQuery, List.zipIdx_singleton, List.filterMap_cons,
    List.filterMap_nil, matchAt_faultPattern]
  cases a.isFaulty node <;> rfl

theorem matchesAt_faultQuery (a : Arena) (text : Text) (id : Nat) :
    faultQuery.matchesAt a text id {} =
      (a.faults id).map fun node => ⟨0, node, [("e", node)]⟩ := by
  rw [matchesAt_unrestricted, Arena.faults]
  induction a.descendants id with
  | nil => rfl
  | cons node nodes ih =>
      rw [List.flatMap_cons, matchesOn_faultQuery, ih, List.filter_cons]
      split <;> rfl

end Query

namespace Position

theorem oneBased_of_lt {p : Position} (row : p.row < shownLimit) (column : p.column < shownLimit) :
    p.oneBased = (p.row + 1, p.column + 1) := by
  simp only [shownLimit] at row column
  simp only [oneBased, addWord, wordLimit, shownLimit, Prod.mk.injEq]
  omega

end Position

namespace Diagnostic

@[simp] theorem range_ofNode (a : Arena) (source : Text) (id : Nat) :
    (ofNode a source id).range = a.range id := rfl

def Precedes (d e : Diagnostic) : Prop :=
  d.line < e.line ∨ d.line = e.line ∧ d.column ≤ e.column

section Arith

variable {text : Text} {node later : Nat}

theorem line_column_ofNode (short : text.width < Position.shownLimit)
    (inside : node < (Arith.arena text).size) :
    let start := text.rowColumn ((Arith.arena text).range node).start
    (ofNode (Arith.arena text) text node).line = start.row + 1 ∧
      (ofNode (Arith.arena text) text node).column = start.column + 1 := by
  intro start
  have within := (Arith.geometry_of_parse text).start_le_width inside
  have bounds := text.rowColumn_le ((Arith.arena text).range node).start
  have shown : ((Arith.arena text).entry node).start.oneBased =
      (start.row + 1, start.column + 1) := by
    rw [Arith.start_eq_positionAt inside, Text.positionAt_eq_rowColumn within]
    exact Position.oneBased_of_lt (by omega) (by omega)
  simp only [ofNode, shown, and_self]

theorem precedes_of_start_le (short : text.width < Position.shownLimit)
    (inside : node < (Arith.arena text).size) (inside' : later < (Arith.arena text).size)
    (order : ((Arith.arena text).range node).start ≤ ((Arith.arena text).range later).start) :
    (ofNode (Arith.arena text) text node).Precedes (ofNode (Arith.arena text) text later) := by
  have within := (Arith.geometry_of_parse text).start_le_width inside'
  obtain ⟨line, column⟩ := line_column_ofNode short inside
  obtain ⟨line', column'⟩ := line_column_ofNode short inside'
  have rows := Text.rowColumn_cases order within
  rw [Precedes, line, column, line', column']
  omega

end Arith

end Diagnostic

def Parsed.ofFormula (settings : ParserSettings) (text : Text) : Parsed :=
  { document := ⟨text⟩
    arena := Arith.arena text
    backend := { language := .math, asked := [⟨text, none⟩] }
    settings }

namespace Parser

theorem parse_formula (engine : Engine) (settings : ParserSettings) (text : Text) :
    parse engine { language := .math, settings } text = .ok (.ofFormula settings text) := rfl

theorem diagnostics_ofFormula (settings : ParserSettings) (text : Text) :
    (Parsed.ofFormula settings text).diagnostics =
      ((Arith.arena text).faults 0).map (Diagnostic.ofNode (Arith.arena text) text) := rfl

theorem matches?_ofFormula (settings : ParserSettings) (text : Text) :
    (Parsed.ofFormula settings text).matches? Query.faultQuery {} =
      .ok (((Arith.arena text).faults 0).map fun node => ⟨0, node, [("e", node)]⟩) := by
  rw [← Query.matchesAt_faultQuery _ text]
  rfl

theorem pairwise_diagnostics {R : Diagnostic → Diagnostic → Prop} (settings : ParserSettings)
    {text : Text}
    (holds : ∀ node < (Arith.arena text).size, ∀ later < (Arith.arena text).size,
      ((Arith.arena text).range node).start ≤ ((Arith.arena text).range later).start →
      R (.ofNode (Arith.arena text) text node) (.ofNode (Arith.arena text) text later)) :
    (Parsed.ofFormula settings text).diagnostics.Pairwise R := by
  have root := (Arith.arena text).nonempty
  have order := (Arith.geometry_of_parse text).pairwise_start root
  rw [diagnostics_ofFormula, List.pairwise_map, Arena.faults]
  refine (order.filter _).imp_of_mem ?_
  intro node later mem mem'
  exact holds node (Arena.lt_size_of_mem_descendants root (List.mem_of_mem_filter mem)) later
    (Arena.lt_size_of_mem_descendants root (List.mem_of_mem_filter mem'))

/-- The diagnostics of a formula are what a query for faults finds, one for one and with the
ranges of the captured nodes.  There are some exactly if the tree has a fault, and exactly
if the S-expression announces one.  They come in the order of the text, by offsets and, as
long as no line or column is cut off, by lines and columns. -/
theorem faults_agree (engine : Engine) (settings : ParserSettings) (text : Text) :
    ∃ p, parse engine { language := .math, settings } text = .ok p ∧
      let a := Arith.arena text
      p.arena = a ∧
      (∃ q found, Query.ofSource .math (Text.ofString "[(ERROR) (MISSING)] @e") = .ok q ∧
        p.matches? q {} = .ok found ∧
        List.Forall₂ (fun m d => ∃ node, m.capture "e" = .ok node ∧ d.range = a.range node)
          found p.diagnostics) ∧
      (a.hasFault 0 = true ↔ p.diagnostics ≠ []) ∧
      (a.hasFault 0 = true ↔
        "(ERROR".toList <:+: a.sexp 0 ∨ "(MISSING ".toList <:+: a.sexp 0) ∧
      (p.diagnostics.Pairwise fun d e => d.range.start ≤ e.range.start) ∧
      (text.width < 0xffffffff → p.diagnostics.Pairwise fun d e =>
        d.line < e.line ∨ d.line = e.line ∧ d.column ≤ e.column) := by
  refine ⟨_, parse_formula engine settings text, ?_⟩
  intro a
  have listed := diagnostics_ofFormula settings text
  refine ⟨rfl, ⟨_, _, Query.ofSource_faultQuery, matches?_ofFormula settings text, ?_⟩, ?_,
    (Arith.announcesFault_sexp_arena text).symm, ?_, ?_⟩
  · rw [listed, List.forall₂_map_left_iff, List.forall₂_map_right_iff, List.forall₂_same]
    intro node _
    exact ⟨node, rfl, Diagnostic.range_ofNode a text node⟩
  · rw [listed, Ne, List.map_eq_nil_iff, Arena.faults, List.filter_eq_nil_iff, Arena.hasFault,
      List.any_eq_true]
    push Not
    rfl
  · refine pairwise_diagnostics settings fun node _ later _ order => ?_
    rwa [Diagnostic.range_ofNode, Diagnostic.range_ofNode]
  · intro short
    refine pairwise_diagnostics settings fun node inside later inside' order => ?_
    exact Diagnostic.precedes_of_start_le short inside inside' order

/-- An unknown character at the end of the first line comes before what is left over and
before the parenthesis that is missing at the end of the second. -/
theorem faults_agree_two_lines :
    let text := Text.ofString "1 + $\n(2"
    text.width < 0xffffffff ∧
      ∃ p, parse (.blank fun _ => ⟨[], [], []⟩) { language := .math } text = .ok p ∧
        p.diagnostics.map (fun d => (d.range.start, d.line, d.column)) =
          [(4, 1, 5), (6, 2, 1), (8, 2, 3)] ∧
        p.diagnostics.Pairwise fun d e =>
          d.line < e.line ∨ d.line = e.line ∧ d.column ≤ e.column := by
  intro text
  have short : text.width < 0xffffffff := by decide
  obtain ⟨p, parsed, -, -, -, -, -, lines⟩ :=
    faults_agree (.blank fun _ => ⟨[], [], []⟩) {} text
  have listed : (Parsed.ofFormula {} text).diagnostics.map
      (fun d => (d.range.start, d.line, d.column)) =
        [(4, 1, 5), (6, 2, 1), (8, 2, 3)] := by decide +kernel
  cases parsed
  exact ⟨short, _, rfl, listed, lines short⟩

end Parser

end ParseTree
