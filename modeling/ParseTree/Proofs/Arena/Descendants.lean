import ParseTree.Arena.Basic

/-!
# At and below a node

The nodes at and below a node, as a relation between nodes: what holds there because
it is passed on from parents to children, and what lies between two of them.  They are
also what a walk takes from a stack of nodes that are still to come.
-/

namespace ParseTree

namespace Arena

theorem self_mem_descendants (a : Arena) (id : Nat) : id ∈ a.descendants id := by
  rw [descendants_eq]
  exact List.mem_cons_self

theorem mem_descendants_of_child {a : Arena} {id child node : Nat} (mem : child ∈ a.children id)
    (below : node ∈ a.descendants child) : node ∈ a.descendants id := by
  rw [descendants_eq]
  exact List.mem_cons_of_mem _ (List.mem_flatMap.2 ⟨child, mem, below⟩)

theorem descendants_induction {a : Arena} {P : Nat → Prop} {id node : Nat}
    (step : ∀ id, P id → ∀ child ∈ a.children id, P child) (start : P id)
    (mem : node ∈ a.descendants id) : P node := by
  induction id using children_induction (a := a) with
  | step id ih =>
      rw [descendants_eq] at mem
      rcases List.mem_cons.1 mem with rfl | below
      · exact start
      · obtain ⟨child, isChild, below⟩ := List.mem_flatMap.1 below
        exact ih child isChild (step id start child isChild) below

theorem lt_size_of_mem_descendants {a : Arena} {id node : Nat} (inside : id < a.size)
    (mem : node ∈ a.descendants id) : node < a.size :=
  descendants_induction (P := (· < a.size))
    (fun _ _ _ isChild => (lt_of_mem_children isChild).2) inside mem

theorem child_mem_descendants {a : Arena} {id node child : Nat} (mem : node ∈ a.descendants id)
    (isChild : child ∈ a.children node) : child ∈ a.descendants id := by
  induction id using children_induction (a := a) with
  | step id ih =>
      rw [descendants_eq] at mem
      rcases List.mem_cons.1 mem with rfl | below
      · exact mem_descendants_of_child isChild (a.self_mem_descendants child)
      · obtain ⟨first, isFirst, below⟩ := List.mem_flatMap.1 below
        exact mem_descendants_of_child isFirst (ih first isFirst below)

theorem mem_descendants_trans {a : Arena} {id node other : Nat} (mem : node ∈ a.descendants id)
    (below : other ∈ a.descendants node) : other ∈ a.descendants id :=
  descendants_induction (P := (· ∈ a.descendants id))
    (fun _ above _ isChild => child_mem_descendants above isChild) mem below

theorem descendants_infix {a : Arena} {id node : Nat} (mem : node ∈ a.descendants id) :
    a.descendants node <:+: a.descendants id := by
  refine descendants_induction (P := fun node => a.descendants node <:+: a.descendants id)
    ?_ List.infix_rfl mem
  intro parent above child isChild
  obtain ⟨before, after, split⟩ := List.append_of_mem isChild
  refine List.IsInfix.trans ?_ above
  refine ⟨parent :: before.flatMap a.descendants, after.flatMap a.descendants, ?_⟩
  rw [a.descendants_eq parent, split, List.flatMap_append, List.flatMap_cons]
  simp

theorem nodup_descendants_child {a : Arena} {id child : Nat} (distinct : (a.descendants id).Nodup)
    (isChild : child ∈ a.children id) : (a.descendants child).Nodup := by
  rw [descendants_eq, List.nodup_cons] at distinct
  exact distinct.2.sublist (List.sublist_flatten_of_mem (List.mem_map_of_mem isChild))

theorem exists_parent {a : Arena} {id node : Nat} (mem : node ∈ a.descendants id) :
    node = id ∨ ∃ parent ∈ a.descendants id, node ∈ a.children parent := by
  have both : node ∈ a.descendants id ∧
      (node = id ∨ ∃ parent ∈ a.descendants id, node ∈ a.children parent) := by
    refine descendants_induction (P := fun node => node ∈ a.descendants id ∧
      (node = id ∨ ∃ parent ∈ a.descendants id, node ∈ a.children parent)) ?_ ?_ mem
    · rintro parent ⟨above, -⟩ child isChild
      exact ⟨child_mem_descendants above isChild, Or.inr ⟨parent, above, isChild⟩⟩
    · exact ⟨a.self_mem_descendants id, Or.inl rfl⟩
  exact both.2

theorem le_of_mem_descendants {a : Arena} {id node : Nat} (mem : node ∈ a.descendants id) :
    id ≤ node :=
  descendants_induction (P := (id ≤ ·))
    (fun _ above _ isChild => Nat.le_trans above (Nat.le_of_lt (lt_of_mem_children isChild).1))
    (Nat.le_refl id) mem

/-! ## The nodes above a node -/

def ancestors (a : Arena) (top node : Nat) : List Nat :=
  (a.descendants top).filter fun above => above ≠ node ∧ node ∈ a.descendants above

theorem ancestors_self (a : Arena) (id : Nat) : a.ancestors id id = [] := by
  rw [ancestors, List.filter_eq_nil_iff]
  intro node mem
  have first := le_of_mem_descendants mem
  simp only [decide_eq_true_eq, not_and]
  intro other below
  have last := le_of_mem_descendants below
  omega

theorem ancestors_of_child {a : Arena} {id child node : Nat}
    (distinct : (a.descendants id).Nodup) (isChild : child ∈ a.children id)
    (below : node ∈ a.descendants child) :
    a.ancestors id node = id :: a.ancestors child node := by
  have other : id ≠ node := by
    have later := (lt_of_mem_children isChild).1
    have last := le_of_mem_descendants below
    omega
  have whole : node ∈ a.descendants id := mem_descendants_of_child isChild below
  obtain ⟨before, after, children⟩ := List.append_of_mem isChild
  have split : a.descendants id = id :: (before.flatMap a.descendants ++
      (a.descendants child ++ after.flatMap a.descendants)) := by
    rw [descendants_eq, children, List.flatMap_append, List.flatMap_cons]
  rw [split, List.nodup_cons, List.nodup_append, List.nodup_append] at distinct
  obtain ⟨-, -, ⟨-, -, apart⟩, apart'⟩ := distinct
  -- a node beside the child would hold the node a second time
  have elsewhere : ∀ ids : List Nat, (∀ found ∈ ids.flatMap a.descendants, found ≠ node) →
      (ids.flatMap a.descendants).filter
        (fun above => above ≠ node ∧ node ∈ a.descendants above) = [] := by
    intro ids absent
    rw [List.filter_eq_nil_iff]
    intro above mem holds
    simp only [decide_eq_true_eq] at holds
    obtain ⟨top, isTop, inside⟩ := List.mem_flatMap.1 mem
    exact absent node
      (List.mem_flatMap.2 ⟨top, isTop, mem_descendants_trans inside holds.2⟩) rfl
  have first := elsewhere before fun found mem same =>
    apart' found mem node (List.mem_append_left _ below) same
  have last := elsewhere after fun found mem same => apart node below found mem same.symm
  rw [ancestors, split, List.filter_cons_of_pos (by simp [other, whole]), List.filter_append,
    List.filter_append, first, last, List.nil_append, List.append_nil, ancestors]

/-! ## A walk with a stack -/

/-- Takes the node on top of a stack; its children are pushed from right to left, so that
the first of them comes next. -/
def next? (a : Arena) : List Nat → Option (Nat × List Nat)
  | [] => none
  | id :: stack =>
      some (id, (a.children id).reverse.foldl (fun stack child => child :: stack) stack)

inductive Yields (a : Arena) : List Nat → List Nat → Prop
  | done {stack : List Nat} : a.next? stack = none → Yields a stack []
  | step {stack rest nodes : List Nat} {id : Nat} :
      a.next? stack = some (id, rest) → Yields a rest nodes → Yields a stack (id :: nodes)

theorem next?_cons (a : Arena) (id : Nat) (stack : List Nat) :
    a.next? (id :: stack) = some (id, a.children id ++ stack) := by
  simp [next?]

theorem yields_iff {a : Arena} {stack nodes : List Nat} :
    a.Yields stack nodes ↔ nodes = stack.flatMap a.descendants := by
  have push : ∀ id rest, (id :: rest).flatMap a.descendants =
      id :: (a.children id ++ rest).flatMap a.descendants := by
    intro id rest
    rw [List.flatMap_cons, descendants_eq, List.flatMap_append, List.cons_append]
  constructor
  · intro yields
    induction yields with
    | @done stack empty =>
        cases stack with
        | nil => rfl
        | cons id stack => cases empty
    | @step stack rest nodes id taken _ ih =>
        cases stack with
        | nil => cases taken
        | cons top stack =>
            rw [next?_cons] at taken
            cases taken
            rw [ih, push]
  · intro all
    induction nodes generalizing stack with
    | nil =>
        cases stack with
        | nil => exact .done rfl
        | cons id stack =>
            rw [push] at all
            cases all
    | cons node nodes ih =>
        cases stack with
        | nil => cases all
        | cons id stack =>
            rw [push, List.cons.injEq] at all
            obtain ⟨rfl, later⟩ := all
            exact .step (a.next?_cons node stack) (ih later)

theorem yields_singleton_iff {a : Arena} {id : Nat} {nodes : List Nat} :
    a.Yields [id] nodes ↔ nodes = a.descendants id := by
  rw [yields_iff, List.flatMap_singleton]

end Arena

end ParseTree
