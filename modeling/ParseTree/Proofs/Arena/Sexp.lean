import ParseTree.Arena.Sexp
import ParseTree.Proofs.Arena.Grafting

/-!
# S-expressions by recursion

The form that the writer of S-expressions gives a node, said by recursion on the tree
below it.  A stack of the writer stands for the pieces that its steps will have written in
the end, one behind the other; each step takes the first of them off and shortens what is
left to do, so the writer comes to an end with all of them written.
-/

namespace ParseTree

namespace Label

def isShown (label : Label) : Bool := label.named || label.missing

theorem named_of_isShown {label : Label} (shown : label.isShown = true)
    (present : label.missing = false) : label.named = true := by
  simpa [isShown, present] using shown

def sexpField (label : Label) : Text :=
  match label.field with
  | none => []
  | some field => field.toList ++ [':', ' ']

def sexpKind (label : Label) : Text :=
  if label.named then label.kind.toList else '"' :: (label.kind.toList ++ ['"'])

end Label

namespace Tree

mutual

def sexp : Tree → Text
  | .node label children =>
      if label.missing then "(MISSING ".toList ++ (label.sexpKind ++ [')'])
      else '(' :: (label.kind.toList ++ (sexpAll children ++ [')']))

def sexpAll : List Tree → Text
  | [] => []
  | t :: ts =>
      (if t.value.isShown then ' ' :: (t.value.sexpField ++ sexp t) else []) ++ sexpAll ts

end

end Tree

namespace Arena

theorem sexpLead_eq (label : Label) : sexpLead label = ' ' :: label.sexpField := by
  unfold sexpLead Label.sexpField
  cases label.field <;> rfl

theorem sexpMissing_eq (label : Label) :
    sexpMissing label = "(MISSING ".toList ++ (label.sexpKind ++ [')']) := by
  unfold sexpMissing Label.sexpKind
  cases label.named
  · simp
  · simp

/-! ## The writer step by step -/

/-- What the step on top of a stack writes, and the stack behind it.  The children of a node
are put on the stack from right to left, above the step that closes the node. -/
def sexpStep? (a : Arena) : List SexpStep → Option (Text × List SexpStep)
  | [] => none
  | .closing :: stack => some ([')'], stack)
  | .opening id nested :: stack =>
      let lead := if nested then sexpLead (a.label id) else []
      if (a.label id).missing then some (lead ++ sexpMissing (a.label id), stack)
      else
        some (lead ++ '(' :: (a.label id).kind.toList,
          ((a.children id).reverse.filter a.isShown).foldl
            (fun stack child => .opening child true :: stack) (.closing :: stack))

inductive Writes (a : Arena) : List SexpStep → Nat → Text → Prop
  | done {stack : List SexpStep} : a.sexpStep? stack = none → Writes a stack 0 []
  | step {stack rest : List SexpStep} {piece text : Text} {count : Nat} :
      a.sexpStep? stack = some (piece, rest) → Writes a rest count text →
      Writes a stack (count + 1) (piece ++ text)

/-- What a step will have written once all steps that come from it are done. -/
def sexpPiece (a : Arena) : SexpStep → Text
  | .closing => [')']
  | .opening id nested =>
      (if nested then sexpLead (a.label id) else []) ++ (a.unfold id).sexp

def sexpCost (a : Arena) : SexpStep → Nat
  | .closing => 1
  | .opening id _ => 2 * (a.outline id).size

def sexpPieces (a : Arena) (stack : List SexpStep) : Text := stack.flatMap a.sexpPiece

def sexpCosts (a : Arena) : List SexpStep → Nat
  | [] => 0
  | step :: stack => a.sexpCost step + sexpCosts a stack

@[simp] theorem sexpPieces_cons (a : Arena) (step : SexpStep) (stack : List SexpStep) :
    a.sexpPieces (step :: stack) = a.sexpPiece step ++ a.sexpPieces stack := List.flatMap_cons

@[simp] theorem sexpPieces_append (a : Arena) (stack below : List SexpStep) :
    a.sexpPieces (stack ++ below) = a.sexpPieces stack ++ a.sexpPieces below := List.flatMap_append

@[simp] theorem sexpCosts_cons (a : Arena) (step : SexpStep) (stack : List SexpStep) :
    a.sexpCosts (step :: stack) = a.sexpCost step + a.sexpCosts stack := rfl

@[simp] theorem sexpCosts_append (a : Arena) (stack below : List SexpStep) :
    a.sexpCosts (stack ++ below) = a.sexpCosts stack + a.sexpCosts below := by
  induction stack with
  | nil => exact (Nat.zero_add _).symm
  | cons step stack ih =>
      rw [List.cons_append, sexpCosts_cons, ih, sexpCosts_cons, Nat.add_assoc]

theorem sexpPieces_children (a : Arena) (ids : List Nat) :
    a.sexpPieces ((ids.filter a.isShown).map (.opening · true)) =
      Tree.sexpAll (ids.map a.unfold) := by
  induction ids with
  | nil => rfl
  | cons id ids ih =>
      rw [List.map_cons, Tree.sexpAll, value_unfold, ← ih]
      by_cases shown : (a.label id).isShown = true
      · have kept : a.isShown id = true := shown
        rw [List.filter_cons_of_pos kept, List.map_cons, sexpPieces_cons, sexpPiece, if_pos rfl,
          if_pos shown, sexpLead_eq, List.cons_append]
      · have hidden : ¬ a.isShown id = true := shown
        rw [List.filter_cons_of_neg hidden, if_neg shown, List.nil_append]

theorem sexpCosts_children_le (a : Arena) (ids : List Nat) :
    a.sexpCosts ((ids.filter a.isShown).map (.opening · true)) ≤
      2 * Rose.sizeAll (ids.map a.outline) := by
  induction ids with
  | nil => exact Nat.zero_le _
  | cons id ids ih =>
      rw [List.map_cons, Rose.sizeAll_cons]
      by_cases shown : a.isShown id = true
      · rw [List.filter_cons_of_pos shown, List.map_cons, sexpCosts_cons, sexpCost]
        omega
      · rw [List.filter_cons_of_neg shown]
        omega

theorem exists_sexpStep (a : Arena) (step : SexpStep) (stack : List SexpStep) :
    ∃ piece rest, a.sexpStep? (step :: stack) = some (piece, rest) ∧
      a.sexpPieces (step :: stack) = piece ++ a.sexpPieces rest ∧
      a.sexpCosts rest < a.sexpCosts (step :: stack) ∧
      ∀ budget, a.sexpRun (budget + 1) (step :: stack) = piece ++ a.sexpRun budget rest := by
  cases step with
  | closing => exact ⟨[')'], stack, rfl, rfl, by simp [sexpCost], fun _ => rfl⟩
  | opening id nested =>
      have size : (a.outline id).size = Rose.sizeAll ((a.children id).map a.outline) + 1 := by
        rw [outline_eq, Rose.size_node]
      by_cases missing : (a.label id).missing = true
      · refine ⟨_, stack, if_pos missing, ?_, ?_, ?_⟩
        · rw [sexpPieces_cons, sexpPiece, unfold_eq, Tree.sexp, if_pos missing, sexpMissing_eq]
        · rw [sexpCosts_cons, sexpCost]
          omega
        · intro budget
          rw [sexpRun, if_pos missing]
      · have pushed : a.sexpStep? (.opening id nested :: stack) =
            some ((if nested then sexpLead (a.label id) else []) ++ '(' :: (a.label id).kind.toList,
              (a.shownChildren id).map (.opening · true) ++ .closing :: stack) := by
          rw [sexpStep?, if_neg missing, List.filter_reverse, List.foldl_reverse]
          simp only [shownChildren, List.foldr_cons_eq_append]
        refine ⟨_, _, pushed, ?_, ?_, ?_⟩
        · rw [sexpPieces_cons, sexpPiece, unfold_eq, Tree.sexp, if_neg missing, sexpPieces_append,
            shownChildren, sexpPieces_children, sexpPieces_cons, sexpPiece]
          simp only [List.append_assoc, List.cons_append, List.nil_append]
        · have below := a.sexpCosts_children_le (a.children id)
          rw [sexpCosts_append, shownChildren, sexpCosts_cons, sexpCosts_cons, sexpCost, sexpCost]
          omega
        · intro budget
          rw [sexpRun, if_neg missing]

theorem writes_sexpPieces {a : Arena} {stack : List SexpStep} {budget : Nat}
    (enough : a.sexpCosts stack ≤ budget) :
    (∃ count ≤ budget, a.Writes stack count (a.sexpPieces stack)) ∧
      a.sexpRun budget stack = a.sexpPieces stack := by
  induction budget generalizing stack with
  | zero =>
      cases stack with
      | nil => exact ⟨⟨0, Nat.le_refl 0, .done rfl⟩, rfl⟩
      | cons step stack =>
          obtain ⟨_, _, -, -, less, -⟩ := a.exists_sexpStep step stack
          omega
  | succ budget ih =>
      cases stack with
      | nil => exact ⟨⟨0, Nat.zero_le _, .done rfl⟩, rfl⟩
      | cons step stack =>
          obtain ⟨piece, rest, taken, split, less, run⟩ := a.exists_sexpStep step stack
          obtain ⟨⟨count, within, writes⟩, behind⟩ := @ih rest (by omega)
          rw [split, run, behind]
          exact ⟨⟨count + 1, Nat.succ_le_succ within, .step taken writes⟩, rfl⟩

theorem Writes.eq_sexpPieces {a : Arena} {stack : List SexpStep} {count : Nat} {text : Text}
    (h : a.Writes stack count text) : text = a.sexpPieces stack := by
  induction h with
  | @done stack ends =>
      cases stack with
      | nil => rfl
      | cons step stack =>
          obtain ⟨_, _, taken, -⟩ := a.exists_sexpStep step stack
          rw [taken] at ends
          cases ends
  | @step stack _ _ _ _ taken _ ih =>
      cases stack with
      | nil => cases taken
      | cons step stack =>
          obtain ⟨_, _, taken', split, -⟩ := a.exists_sexpStep step stack
          cases taken.symm.trans taken'
          rw [split, ih]

theorem sexpPieces_root (a : Arena) (id : Nat) :
    a.sexpPieces [.opening id false] = (a.unfold id).sexp := by
  simp [sexpPieces, sexpPiece]

theorem sexpCosts_root (a : Arena) (id : Nat) :
    a.sexpCosts [.opening id false] = 2 * (a.outline id).size := by
  simp [sexpCosts, sexpCost]

theorem sexp_eq (a : Arena) (id : Nat) : a.sexp id = (a.unfold id).sexp := by
  rw [sexp, (writes_sexpPieces (Nat.le_of_eq (a.sexpCosts_root id))).2, sexpPieces_root]

/-- The writer comes to an end within two steps for each node, and then it has written the
form that the recursion gives, in which the field of the node itself has no part. -/
theorem writes_sexp (a : Arena) (id : Nat) :
    (∃ count ≤ 2 * (a.outline id).size,
      a.Writes [.opening id false] count (a.unfold id).sexp) ∧
    (∀ count text, a.Writes [.opening id false] count text → text = (a.unfold id).sexp) ∧
    a.sexp id = (a.unfold id).sexp ∧
    ∀ field, ((a.unfold id).setField field).sexp = (a.unfold id).sexp := by
  refine ⟨?_, ?_, a.sexp_eq id, ?_⟩
  · rw [← sexpPieces_root]
    exact (writes_sexpPieces (Nat.le_of_eq (a.sexpCosts_root id))).1
  · intro count text writes
    rw [writes.eq_sexpPieces, sexpPieces_root]
  · intro field
    rw [unfold_eq, Tree.setField, Tree.sexp, Tree.sexp]
    rfl

end Arena

end ParseTree
