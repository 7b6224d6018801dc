import ParseTree.Proofs.Arena.Descendants
import ParseTree.Proofs.Arena.Numbering

/-!
# Trees lowered from a stack

A tree is lowered without recursion by a stack of trees that are still to be pushed: the
root of the one on top is pushed and its children take its place.  Whatever else waits on
the stack, this comes to an end and pushes one tree behind the other, so it builds the same
arena as the recursion.  In that arena the nodes at and below a node are an interval of
numbers that the node itself begins.
-/

namespace ParseTree

namespace Builder

abbrev Pending := Option Nat × Tree

/-- Pushes the root of the tree on top of a stack.  The children are put on the stack from
right to left, so that the first of them comes next. -/
def lower? (b : Builder) : List Pending → Option (Builder × List Pending)
  | [] => none
  | (parent, .node label ts) :: stack =>
      some (b.push parent label,
        ts.reverse.foldl (fun stack t => (some b.size, t) :: stack) stack)

inductive Lowers : Builder → List Pending → Builder → Prop
  | done {b : Builder} {stack : List Pending} : b.lower? stack = none → Lowers b stack b
  | turn {b b₁ b₂ : Builder} {stack rest : List Pending} :
      b.lower? stack = some (b₁, rest) → Lowers b₁ rest b₂ → Lowers b stack b₂

def addPending (b : Builder) (stack : List Pending) : Builder :=
  stack.foldl (fun b (parent, t) => addTree parent t b) b

theorem lower?_cons (b : Builder) (parent : Option Nat) (label : Label) (ts : List Tree)
    (stack : List Pending) :
    b.lower? ((parent, .node label ts) :: stack) =
      some (b.push parent label, ts.map (fun t => (some b.size, t)) ++ stack) := by
  simp [lower?]

theorem addForest_eq_addPending (parent : Option Nat) (ts : List Tree) (b : Builder) :
    addForest parent ts b = b.addPending (ts.map fun t => (parent, t)) := by
  induction ts generalizing b with
  | nil => rfl
  | cons t ts ih => exact ih (addTree parent t b)

theorem addPending_turn (b : Builder) (parent : Option Nat) (label : Label) (ts : List Tree)
    (stack : List Pending) :
    b.addPending ((parent, .node label ts) :: stack) =
      (b.push parent label).addPending (ts.map (fun t => (some b.size, t)) ++ stack) := by
  have first : b.addPending ((parent, .node label ts) :: stack) =
      (addForest (some b.size) ts (b.push parent label)).addPending stack := rfl
  rw [first, addForest_eq_addPending, addPending, addPending, addPending, List.foldl_append]

theorem sizeAll_turn (parent : Option Nat) (label : Label) (ts : List Tree)
    (stack : List Pending) (number : Option Nat) :
    Rose.sizeAll (((parent, Rose.node label ts) :: stack).map Prod.snd) =
      Rose.sizeAll ((ts.map (fun t => (number, t)) ++ stack).map Prod.snd) + 1 := by
  rw [List.map_cons, Rose.sizeAll_cons, Rose.size_node, List.map_append, List.map_map]
  simp only [Rose.sizeAll, List.flatMap_append, List.length_append, Function.comp_def,
    List.map_id']
  omega

theorem lowers_addPending (b : Builder) (stack : List Pending) :
    Lowers b stack (b.addPending stack) := by
  induction size : Rose.sizeAll (stack.map Prod.snd) generalizing b stack with
  | zero =>
      cases stack with
      | nil => exact .done rfl
      | cons pending stack =>
          obtain ⟨parent, label, ts⟩ := pending
          rw [sizeAll_turn parent label ts stack none] at size
          cases size
  | succ count ih =>
      cases stack with
      | nil => cases size
      | cons pending stack =>
          obtain ⟨parent, label, ts⟩ := pending
          rw [sizeAll_turn parent label ts stack (some b.size)] at size
          rw [addPending_turn]
          exact .turn (lower?_cons b parent label ts stack) (ih _ _ (Nat.succ.inj size))

theorem lowers_iff {b b' : Builder} {stack : List Pending} :
    Lowers b stack b' ↔ b' = b.addPending stack := by
  constructor
  · intro lowers
    induction lowers with
    | @done b stack empty =>
        cases stack with
        | nil => rfl
        | cons pending stack =>
            obtain ⟨parent, label, ts⟩ := pending
            cases empty
    | @turn b b₁ b₂ stack rest taken _ ih =>
        cases stack with
        | nil => cases taken
        | cons pending stack =>
            obtain ⟨parent, label, ts⟩ := pending
            rw [lower?_cons] at taken
            cases taken
            rw [ih, addPending_turn]
  · rintro rfl
    exact lowers_addPending b stack

end Builder

theorem eq_range'_of_infix {xs : List Nat} {id n : Nat} (h : xs <:+: List.range n)
    (first : xs.head? = some id) : xs = List.range' id xs.length := by
  obtain ⟨before, after, split⟩ := h
  rw [List.range_eq_range', eq_comm, List.append_assoc, List.range'_eq_append_iff] at split
  obtain ⟨skipped, -, -, rest⟩ := split
  obtain ⟨length, -, here, -⟩ := List.range'_eq_append_iff.1 rest.symm
  rw [here, List.head?_range'] at first
  rw [here, List.length_range']
  split at first
  · cases first
  · rw [Option.some.inj first]

namespace Arena

theorem size_unfold (a : Arena) (id : Nat) : (a.unfold id).size = (a.descendants id).length := by
  rw [Rose.size, unfold, Rose.preorder_map, List.length_map, descendants]

theorem descendants_eq_range' {a : Arena} (numbers : a.descendants 0 = List.range a.size) {id : Nat}
    (inside : id < a.size) : a.descendants id = List.range' id (a.unfold id).size := by
  have below : id ∈ a.descendants 0 := by
    rw [numbers]
    exact List.mem_range.2 inside
  have part := descendants_infix below
  rw [numbers] at part
  rw [size_unfold]
  refine eq_range'_of_infix part ?_
  rw [descendants_eq]
  rfl

/-- The arena of a tree is the one that the loop with a stack builds.  It unfolds to the
tree, its numbers are those of the pre-order, and from each node a walk meets an interval of
numbers. -/
theorem lowering_preserves (text : Text) (t : Tree)
    (inside : ∀ label ∈ t.preorder,
      label.range.start ≤ label.range.stop ∧ label.range.stop ≤ text.width) :
    let a := ofTree text t
    (∃ b, (∀ b', Builder.Lowers (.ofText text) [(none, t)] b' ↔ b' = b) ∧ a = b.finish) ∧
    a.unfold 0 = t ∧
    t.subtrees = (List.range a.size).map a.unfold ∧
    a.descendants 0 = List.range a.size ∧
    ∀ id < a.size, a.descendants id = List.range' id (a.unfold id).size ∧
      ∀ nodes, a.Yields [id] nodes ↔ nodes = a.descendants id := by
  intro a
  have kept : ∀ label ∈ t.preorder, label.within text = label :=
    fun label mem => Label.within_eq_self (inside label mem).1 (inside label mem).2
  obtain ⟨whole, numbers⟩ : a.unfold 0 = t ∧ a.descendants 0 = List.range a.size :=
    unfold_ofTree kept
  refine ⟨⟨_, fun b' => Builder.lowers_iff, rfl⟩, whole, ?_, numbers, ?_⟩
  · rw [← numbers, ← subtrees_unfold, whole]
  · intro id within
    exact ⟨descendants_eq_range' numbers within, fun nodes => yields_singleton_iff⟩

/-- Behind the sum inside of the parentheses the numbers go on with the closing one, which
waited below the operands on the stack. -/
theorem lowering_preserves_parens :
    let text := Text.ofString "(1+2)"
    let number (range : ByteRange) : Tree := .leaf { kind := "number", range }
    let symbol (kind : String) (range : ByteRange) : Tree := .leaf { kind, named := false, range }
    let t : Tree := .branch "parenthesized_expression"
      [symbol "(" ⟨0, 1⟩,
       .branch "sum" [(number ⟨1, 2⟩).withField "left", symbol "+" ⟨2, 3⟩,
         (number ⟨3, 4⟩).withField "right"],
       symbol ")" ⟨4, 5⟩]
    let a := ofTree text t
    (∀ label ∈ t.preorder,
      label.range.start ≤ label.range.stop ∧ label.range.stop ≤ text.width) ∧
      a.unfold 0 = t ∧ a.size = 7 ∧ a.label 6 = { kind := ")", named := false, range := ⟨4, 5⟩ } ∧
      a.descendants 2 = [2, 3, 4, 5] := by
  intro text number symbol t a
  have inside : ∀ label ∈ t.preorder,
      label.range.start ≤ label.range.stop ∧ label.range.stop ≤ text.width := by decide
  obtain ⟨-, whole, -, -, intervals⟩ := lowering_preserves text t inside
  have interval := (intervals 2 (by decide)).1
  have size : (a.unfold 2).size = 4 := by decide +kernel
  rw [size] at interval
  exact ⟨inside, whole, by decide, by decide, interval⟩

end Arena

end ParseTree
