import ParseTree.Proofs.Arena.Descendants
import ParseTree.Proofs.Arena.Numbering

/-!
# A tree in the place of a node

Nodes are numbers and each number stands once below the root, so a node can be given
up for another tree by its number.  What two trees of different texts have in common
is what remains when the places of their nodes are forgotten.
-/

namespace ParseTree

def Label.unplaced (label : Label) : Label := { label with range := ⟨0, 0⟩ }

namespace Tree

def unplaced (t : Tree) : Tree := t.map Label.unplaced

def setField (field : Option String) : Tree → Tree
  | .node label ts => .node { label with field } ts

@[simp] theorem unplaced_node (label : Label) (ts : List Tree) :
    unplaced (.node label ts) = .node label.unplaced (ts.map unplaced) :=
  Rose.map_node _ _ _

theorem unplaced_setField (field : Option String) (t : Tree) :
    (t.setField field).unplaced = t.unplaced.setField field := by
  cases t
  simp [setField, Label.unplaced]

@[simp] theorem value_setField (field : Option String) (t : Tree) :
    (t.setField field).value = { t.value with field } := by
  cases t
  rfl

@[simp] theorem range_setField (field : Option String) (t : Tree) :
    (t.setField field).range = t.range := by
  cases t
  rfl

theorem setField_eq_self {field : Option String} {t : Tree} (h : t.value.field = field) :
    t.setField field = t := by
  cases t
  subst h
  rfl

theorem withField_eq (field : String) (t : Tree) : t.withField field = t.setField (some field) := by
  cases t
  rfl

end Tree

namespace Rose

mutual

def graft (f : Nat → β) (target : Nat) (scion : Rose β) : Rose Nat → Rose β
  | node a ts => if a = target then scion else node (f a) (graftAll f target scion ts)

def graftAll (f : Nat → β) (target : Nat) (scion : Rose β) : List (Rose Nat) → List (Rose β)
  | [] => []
  | t :: ts => graft f target scion t :: graftAll f target scion ts

end

theorem graftAll_eq_map (f : Nat → β) (target : Nat) (scion : Rose β) (ts : List (Rose Nat)) :
    graftAll f target scion ts = ts.map (graft f target scion) := by
  induction ts with
  | nil => rfl
  | cons t ts ih => simp [graftAll, ih]

end Rose

namespace Arena

def graft (a : Arena) (target : Nat) (scion : Tree) (id : Nat) : Tree :=
  Rose.graft (fun node => (a.label node).unplaced) target scion (a.outline id)

theorem graft_self (a : Arena) (id : Nat) (scion : Tree) : a.graft id scion id = scion := by
  rw [graft, outline_eq, Rose.graft, if_pos rfl]

theorem graft_eq {a : Arena} {target id : Nat} (other : id ≠ target) (scion : Tree) :
    a.graft target scion id =
      .node (a.label id).unplaced ((a.children id).map (a.graft target scion)) := by
  rw [graft, outline_eq, Rose.graft, if_neg other, Rose.graftAll_eq_map, List.map_map]
  rfl

theorem graft_branch {a : Arena} {target id : Nat} {kind : String} {ts us : List Tree}
    (other : id ≠ target) {scion : Tree}
    (unfolds : a.unfold id = (Tree.branch kind ts).setField (a.label id).field)
    (below : (a.children id).map (a.graft target scion) = us.map Tree.unplaced) :
    a.graft target scion id = ((Tree.branch kind us).setField (a.label id).field).unplaced := by
  have label : (a.label id).unplaced =
      { kind, field := (a.label id).field, range := ⟨0, 0⟩ } := by
    generalize (a.label id).field = field at unfolds ⊢
    rw [label_of_unfold unfolds, Tree.value_setField]
    rfl
  rw [graft_eq other, below, label, Tree.branch, Tree.setField, Tree.unplaced_node]
  rfl

theorem graft_of_not_mem {a : Arena} {target id : Nat} (absent : target ∉ a.descendants id)
    (scion : Tree) : a.graft target scion id = (a.unfold id).unplaced := by
  induction id using children_induction (a := a) with
  | step id ih =>
      have other : id ≠ target := by
        rintro rfl
        exact absent (a.self_mem_descendants id)
      rw [graft_eq other, unfold_eq, Tree.unplaced_node, List.map_map]
      congr 1
      apply List.map_congr_left
      intro child isChild
      exact ih child isChild fun below => absent (mem_descendants_of_child isChild below)

def enclosing (a : Arena) (kind : String) (id target : Nat) : Nat :=
  (a.descendants id).countP fun node =>
    node ≠ target ∧ target ∈ a.descendants node ∧ (a.label node).kind = kind

theorem enclosing_eq_countP (a : Arena) (kind : String) (id target : Nat) :
    a.enclosing kind id target =
      (a.ancestors id target).countP fun node => (a.label node).kind = kind := by
  rw [enclosing, ancestors, List.countP_filter]
  apply List.countP_congr
  intro node _
  simp only [decide_eq_true_eq, Bool.and_eq_true]
  rw [← and_assoc, and_comm]

theorem enclosing_self (a : Arena) (kind : String) (id : Nat) : a.enclosing kind id id = 0 := by
  rw [enclosing_eq_countP, ancestors_self, List.countP_nil]

theorem enclosing_of_child {a : Arena} {kind : String} {id child target : Nat}
    (distinct : (a.descendants id).Nodup) (isChild : child ∈ a.children id)
    (below : target ∈ a.descendants child) :
    a.enclosing kind id target =
      a.enclosing kind child target + if (a.label id).kind = kind then 1 else 0 := by
  rw [enclosing_eq_countP, ancestors_of_child distinct isChild below, List.countP_cons,
    ← enclosing_eq_countP]
  simp

end Arena

end ParseTree
