import Mathlib.Data.List.Induction
import Mathlib.Data.List.Nodup
import ParseTree.Arena.Navigation
import ParseTree.Proofs.Arena.Geometry

/-!
# The links of an arena

Nodes may be pushed in any order in which a parent comes before its children, so a new
node need not stand near the one that was pushed last.  The children of a node are those
that were pushed under it, in the order of the pushes, and this one equation carries all
the rest: parents, children and siblings lead to one another, and from the root there is
exactly one way to each node.
-/

namespace ParseTree

/-! ## One push after another -/

theorem getElem?_adopt (entries : Array Entry) (parent : Option Nat) (child id : Nat) :
    (adopt entries parent child)[id]? =
      entries[id]?.map fun e =>
        { e with children := e.children ++ if parent = some id then [child] else [] } := by
  cases parent with
  | none => simp [adopt]
  | some p =>
      rw [adopt, Array.getElem?_modify]
      by_cases same : p = id
      · simp [same]
      · simp [same]

namespace Builder

structure Attached (list : List Push) : Prop where
  root : ∀ push, list[0]? = some push → push.1 = none
  later : ∀ id push, list[id + 1]? = some push → ∃ parent ≤ id, push.1 = some parent

def parentOf (list : List Push) (id : Nat) : Option Nat := list[id]?.bind (·.1)

def adopted (list : List Push) (id : Nat) : List Nat :=
  (List.range list.length).filter fun child => parentOf list child = some id

theorem Attached.of_append {list more : List Push} (h : Attached (list ++ more)) :
    Attached list := by
  have kept : ∀ {id : Nat} {push : Push}, list[id]? = some push →
      (list ++ more)[id]? = some push := by
    intro id push found
    rwa [List.getElem?_append_left (List.getElem?_eq_some_iff.1 found).1]
  exact ⟨fun push found => h.root push (kept found),
    fun id push found => h.later id push (kept found)⟩

theorem Attached.parent_lt {list : List Push} (h : Attached list) {id child : Nat}
    (parent : parentOf list child = some id) : id < child := by
  obtain ⟨push, found, names⟩ := Option.bind_eq_some_iff.1 parent
  cases child with
  | zero =>
      rw [h.root push found] at names
      cases names
  | succ child =>
      obtain ⟨above, le, same⟩ := h.later child push found
      rw [same] at names
      cases names
      omega

theorem mem_adopted {list : List Push} {id child : Nat} :
    child ∈ adopted list id ↔ child < list.length ∧ parentOf list child = some id := by
  simp [adopted]

theorem Attached.adopted_eq_nil {list : List Push} (h : Attached list) {id : Nat}
    (last : list.length ≤ id + 1) : adopted list id = [] := by
  rw [List.eq_nil_iff_forall_not_mem]
  intro child mem
  obtain ⟨inside, parent⟩ := mem_adopted.1 mem
  have before := h.parent_lt parent
  omega

theorem adopted_concat (list : List Push) (push : Push) (id : Nat) :
    adopted (list ++ [push]) id =
      adopted list id ++ if push.1 = some id then [list.length] else [] := by
  have old : ∀ child ∈ List.range list.length,
      decide (parentOf (list ++ [push]) child = some id) = decide (parentOf list child = some id) := by
    intro child mem
    rw [parentOf, List.getElem?_append_left (List.mem_range.1 mem), parentOf]
  have new : parentOf (list ++ [push]) list.length = push.1 := by
    rw [parentOf, List.getElem?_concat_length]
    rfl
  rw [adopted, List.length_append, List.length_singleton, List.range_succ, List.filter_append,
    List.filter_congr old, List.filter_singleton, new, adopted]
  simp

theorem entry_push (b : Builder) (parent : Option Nat) (label : Label) :
    (b.push parent label).entry = b.entry := rfl

theorem entry_pushAll (b : Builder) (list : List Push) : (b.pushAll list).entry = b.entry := by
  induction list generalizing b with
  | nil => rfl
  | cons push list ih => exact (ih (b.push push.1 push.2)).trans (entry_push b push.1 push.2)

theorem getElem?_push (b : Builder) (parent : Option Nat) (label : Label) (id : Nat) :
    (b.push parent label).entries[id]? =
      if id = b.size then some (b.entry parent label)
      else b.entries[id]?.map fun e =>
        { e with children := e.children ++ if parent = some id then [b.size] else [] } := by
  rw [entries_push, Array.getElem?_push, size_adopt, getElem?_adopt]
  rfl

theorem getElem?_pushAll (text : Text) {list : List Push} (attached : Attached list) (id : Nat) :
    ((ofText text).pushAll list).entries[id]? =
      list[id]?.map fun push =>
        { (ofText text).entry push.1 push.2 with children := adopted list id } := by
  induction list using List.reverseRecOn generalizing id with
  | nil => rfl
  | append_singleton list push ih =>
      have before := ih attached.of_append
      have size : ((ofText text).pushAll list).size = list.length := by
        rw [size_pushAll]
        exact Nat.zero_add _
      have pushed : (ofText text).pushAll (list ++ [push]) =
          ((ofText text).pushAll list).push push.1 push.2 := pushAll_append _ _ _
      rw [pushed, getElem?_push, size, entry_pushAll, before, adopted_concat]
      by_cases new : id = list.length
      · have last : (list ++ [push]).length ≤ id + 1 := by simp [new]
        have none := attached.adopted_eq_nil last
        rw [adopted_concat] at none
        rw [if_pos new, none, new, List.getElem?_concat_length]
        rfl
      · rw [if_neg new, Option.map_map]
        by_cases old : id < list.length
        · rw [List.getElem?_append_left old]
          rfl
        · rw [List.getElem?_eq_none (by omega), List.getElem?_eq_none (by simp; omega)]
          rfl

end Builder

/-! ## Following the links -/

namespace Arena

structure Linked (a : Arena) : Prop where
  root : a.parent? 0 = none
  parent : ∀ id, 0 < id → id < a.size → ∃ parent < id, a.parent? id = some parent
  children : ∀ id, a.children id =
    (List.range a.size).filter fun child => a.parent? child = some id

theorem parent?_of_getElem? {a : Arena} {id : Nat} {e : Entry} (found : a.entries[id]? = some e) :
    a.parent? id = e.parent.filter (· < a.size) := by
  rw [parent?, Arena.entry, find?_eq, found]
  rfl

theorem parent?_of_size_le {a : Arena} {id : Nat} (outside : a.size ≤ id) :
    a.parent? id = none := by
  rw [← size_entries] at outside
  rw [parent?, Arena.entry, find?_eq, Array.getElem?_eq_none outside]
  rfl

namespace Linked

variable {a : Arena}

theorem mem_children_iff (h : a.Linked) {id child : Nat} :
    child ∈ a.children id ↔ a.parent? child = some id := by
  rw [h.children, List.mem_filter, List.mem_range, decide_eq_true_eq, and_iff_right_iff_imp]
  intro parent
  by_contra outside
  rw [parent?_of_size_le (by omega)] at parent
  cases parent

theorem pairwise_children (h : a.Linked) (id : Nat) : (a.children id).Pairwise (· < ·) := by
  rw [h.children]
  exact List.pairwise_lt_range.filter _

theorem nodup_children (h : a.Linked) (id : Nat) : (a.children id).Nodup :=
  (h.pairwise_children id).imp Nat.ne_of_lt

theorem parent_unique (h : a.Linked) {id other child : Nat} (isChild : child ∈ a.children id)
    (isChild' : child ∈ a.children other) : id = other := by
  rw [h.mem_children_iff] at isChild isChild'
  exact Option.some.inj (isChild.symm.trans isChild')

theorem place?_of_child? (h : a.Linked) {id index child : Nat}
    (found : a.child? id index = some child) : a.place? child = some (id, index) := by
  obtain ⟨inside, here⟩ := List.getElem?_eq_some_iff.1 found
  have parent := h.mem_children_iff.1 (List.mem_of_getElem? found)
  have order := List.pairwise_iff_getElem.1 (h.pairwise_children id)
  have index : (a.children id).idxOf? child = some index := by
    refine List.idxOf?_eq_some_iff.2 ⟨inside, here, ?_⟩
    intro earlier before same
    have less := order earlier index (by omega) inside before
    omega
  rw [place?, parent]
  dsimp only
  rw [index]
  rfl

theorem nextSibling?_of_child? (h : a.Linked) {id index child : Nat}
    (found : a.child? id index = some child) :
    a.nextSibling? child = a.child? id (index + 1) := by
  rw [nextSibling?, h.place?_of_child? found]

theorem previousSibling?_of_child? (h : a.Linked) {id index next : Nat}
    (found : a.child? id (index + 1) = some next) :
    a.previousSibling? next = a.child? id index := by
  rw [previousSibling?, h.place?_of_child? found]

theorem previousSibling?_of_first (h : a.Linked) {id first : Nat}
    (found : a.child? id 0 = some first) : a.previousSibling? first = none := by
  rw [previousSibling?, h.place?_of_child? found]

theorem mem_descendants_root (h : a.Linked) {id : Nat} (inside : id < a.size) :
    id ∈ a.descendants 0 := by
  induction id using Nat.strongRecOn with
  | ind id ih =>
      obtain rfl | later := Nat.eq_zero_or_pos id
      · exact a.self_mem_descendants 0
      · obtain ⟨parent, before, link⟩ := h.parent id later inside
        exact child_mem_descendants (ih parent before (by omega)) (h.mem_children_iff.2 link)

/-- Below two children of one node there is nothing in common: the way up from a node is
the same wherever it starts. -/
theorem disjoint_descendants (h : a.Linked) {id child sibling : Nat}
    (isChild : child ∈ a.children id) (isSibling : sibling ∈ a.children id)
    (other : child ≠ sibling) : (a.descendants child).Disjoint (a.descendants sibling) := by
  -- neither child lies below the other one, since their parent lies above both
  have apart : ∀ {c d : Nat}, c ∈ a.children id → d ∈ a.children id → c ≠ d →
      c ∉ a.descendants d := by
    intro c d isC isD ne below
    obtain same | ⟨parent, above, isParent⟩ := exists_parent below
    · exact ne same
    · rw [h.parent_unique isParent isC] at above
      have first := (lt_of_mem_children isD).1
      have last := le_of_mem_descendants above
      omega
  intro node below below'
  induction node using Nat.strongRecOn with
  | ind node ih =>
      obtain rfl | ⟨parent, above, isParent⟩ := exists_parent below
      · exact apart isChild isSibling other below'
      obtain rfl | ⟨parent', above', isParent'⟩ := exists_parent below'
      · exact apart isSibling isChild other.symm below
      rw [← h.parent_unique isParent isParent'] at above'
      exact ih parent (lt_of_mem_children isParent).1 above above'

theorem nodup_descendants (h : a.Linked) (id : Nat) : (a.descendants id).Nodup := by
  induction id using children_induction (a := a) with
  | step id ih =>
      rw [descendants_eq, List.nodup_cons, List.nodup_flatMap]
      refine ⟨?_, ih, ?_⟩
      · intro below
        obtain ⟨child, isChild, below⟩ := List.mem_flatMap.1 below
        have first := (lt_of_mem_children isChild).1
        have last := le_of_mem_descendants below
        omega
      · refine (h.nodup_children id).imp_of_mem ?_
        intro child sibling isChild isSibling other
        exact h.disjoint_descendants isChild isSibling other

theorem perm_descendants_root (h : a.Linked) : (a.descendants 0).Perm (List.range a.size) := by
  refine (List.perm_ext_iff_of_nodup (h.nodup_descendants 0) List.nodup_range).2 ?_
  intro id
  rw [List.mem_range]
  exact ⟨lt_size_of_mem_descendants a.nonempty, h.mem_descendants_root⟩

end Linked

/-- What an arena keeps of the pushes it was made from, and how its nodes lead to one
another. -/
structure Records (a : Arena) (text : Text) (list : List Builder.Push) : Prop where
  /-- Without any push there is a root all the same. -/
  size : a.size = max 1 list.length
  numbers : ∀ id < list.length, ((Builder.ofText text).pushAll (list.take id)).size = id
  entries : ∀ id push, list[id]? = some push →
    (a.entry id).parent = push.1 ∧ a.label id = push.2.within text
  children : ∀ id child, child ∈ a.children id ↔ a.parent? child = some id
  once : ∀ id, (a.children id).Nodup
  increasing : ∀ id, (a.children id).Pairwise (· < ·)
  ranges : ∀ id < a.size,
    (a.range id).start ≤ (a.range id).stop ∧ (a.range id).stop ≤ text.width
  parent : ∀ id index child, a.child? id index = some child → a.parent? child = some id
  next : ∀ id index child, a.child? id index = some child →
    a.nextSibling? child = a.child? id (index + 1)
  previous : ∀ id index child, a.child? id (index + 1) = some child →
    a.previousSibling? child = a.child? id index
  first : ∀ id, ∀ child ∈ (a.children id).head?, a.previousSibling? child = none
  last : ∀ id, ∀ child ∈ (a.children id).getLast?, a.nextSibling? child = none
  root : a.parent? 0 = none ∧ a.nextSibling? 0 = none ∧ a.previousSibling? 0 = none
  walk : (∀ nodes, a.Yields [0] nodes ↔ nodes = a.descendants 0) ∧
    (a.descendants 0).Perm (List.range a.size)

end Arena

namespace Builder

theorem clamp_ordered (b : Builder) (range : ByteRange) :
    (b.clamp range).start ≤ (b.clamp range).stop ∧ (b.clamp range).stop ≤ b.length := by
  simp only [clamp]
  omega

theorem linked_finish_empty (text : Text) : (ofText text).finish.Linked where
  root := rfl
  parent id later inside := absurd inside (Nat.not_lt.2 later)
  children id := by cases id <;> rfl

theorem size_entries_pushAll (text : Text) (list : List Push) :
    ((ofText text).pushAll list).entries.size = list.length :=
  (size_pushAll (ofText text) list).trans (Nat.zero_add _)

theorem size_finish (text : Text) (list : List Push) :
    ((ofText text).pushAll list).finish.size = max 1 list.length := by
  cases list with
  | nil => rfl
  | cons push list =>
      have size := size_entries_pushAll text (push :: list)
      rw [List.length_cons] at size ⊢
      rw [← Arena.size_entries, Arena.entries_finish (by omega), size]
      omega

section Finished

variable (text : Text) {list : List Push}
variable (attached : Attached list) (nonempty : list ≠ [])

include attached nonempty

theorem getElem?_finish (id : Nat) :
    ((ofText text).pushAll list).finish.entries[id]? =
      list[id]?.map fun push =>
        { (ofText text).entry push.1 push.2 with children := adopted list id } := by
  have pos : 0 < ((ofText text).pushAll list).entries.size := by
    rw [size_entries_pushAll]
    exact List.length_pos_iff.2 nonempty
  rw [Arena.entries_finish pos, getElem?_pushAll text attached]

theorem parent?_finish (id : Nat) :
    ((ofText text).pushAll list).finish.parent? id = parentOf list id := by
  have size := size_finish text list
  have found := getElem?_finish text attached nonempty id
  cases here : list[id]? with
  | none =>
      have outside := List.getElem?_eq_none_iff.1 here
      have pos := List.length_pos_iff.2 nonempty
      rw [Arena.parent?_of_size_le (by omega), parentOf, here]
      rfl
  | some push =>
      rw [here] at found
      have parent : parentOf list id = push.1 := by
        rw [parentOf, here]
        rfl
      have inside := (List.getElem?_eq_some_iff.1 here).1
      rw [Arena.parent?_of_getElem? found, parent]
      cases names : push.1 with
      | none => simp [entry, names]
      | some above =>
          have before := attached.parent_lt (parent.trans names)
          have known : above < ((ofText text).pushAll list).finish.size := by omega
          simp [entry, names, known]

theorem children_finish (id : Nat) :
    ((ofText text).pushAll list).finish.children id = adopted list id := by
  rw [Arena.children, Arena.entry, Arena.find?_eq, getElem?_finish text attached nonempty]
  cases here : list[id]? with
  | none =>
      have outside := List.getElem?_eq_none_iff.1 here
      rw [attached.adopted_eq_nil (by omega)]
      rfl
  | some push => rfl

theorem linked_finish_pushes : ((ofText text).pushAll list).finish.Linked where
  root := by
    rw [parent?_finish text attached nonempty, parentOf]
    cases here : list[0]? with
    | none => rfl
    | some push => exact attached.root push here
  parent id later inside := by
    have pos := List.length_pos_iff.2 nonempty
    rw [size_finish] at inside
    obtain ⟨id, rfl⟩ : ∃ before, id = before + 1 := ⟨id - 1, by omega⟩
    obtain ⟨push, here⟩ : ∃ push, list[id + 1]? = some push :=
      ⟨_, List.getElem?_eq_getElem (by omega)⟩
    obtain ⟨parent, le, names⟩ := attached.later id push here
    refine ⟨parent, by omega, ?_⟩
    rw [parent?_finish text attached nonempty, parentOf, here]
    exact names
  children id := by
    have pos := List.length_pos_iff.2 nonempty
    have size : ((ofText text).pushAll list).finish.size = list.length := by
      rw [size_finish]
      omega
    rw [children_finish text attached nonempty, size, adopted]
    apply List.filter_congr
    intro child _
    rw [parent?_finish text attached nonempty]

theorem entry_finish {id : Nat} {push : Push} (here : list[id]? = some push) :
    ((ofText text).pushAll list).finish.entry id =
      { (ofText text).entry push.1 push.2 with children := adopted list id } := by
  rw [Arena.entry, Arena.find?_eq, getElem?_finish text attached nonempty, here]
  rfl

end Finished

theorem linked_finish (text : Text) {list : List Push} (attached : Attached list) :
    ((ofText text).pushAll list).finish.Linked := by
  by_cases empty : list = []
  · rw [empty]
    exact linked_finish_empty text
  · exact linked_finish_pushes text attached empty

theorem range_finish (text : Text) {list : List Push} (attached : Attached list) {id : Nat}
    (inside : id < ((ofText text).pushAll list).finish.size) :
    (((ofText text).pushAll list).finish.range id).start ≤
        (((ofText text).pushAll list).finish.range id).stop ∧
      (((ofText text).pushAll list).finish.range id).stop ≤ text.width := by
  by_cases empty : list = []
  · subst empty
    obtain rfl : id = 0 := Nat.lt_one_iff.1 inside
    exact ⟨Nat.le_refl 0, Nat.zero_le _⟩
  · have pos := List.length_pos_iff.2 empty
    rw [size_finish] at inside
    obtain ⟨push, here⟩ : ∃ push, list[id]? = some push :=
      ⟨_, List.getElem?_eq_getElem (by omega)⟩
    rw [Arena.range, Arena.label, entry_finish text attached empty here]
    exact clamp_ordered (ofText text) push.2.range

theorem parent_label_finish (text : Text) {list : List Push} (attached : Attached list)
    {id : Nat} {push : Push} (here : list[id]? = some push) :
    (((ofText text).pushAll list).finish.entry id).parent = push.1 ∧
      ((ofText text).pushAll list).finish.label id = push.2.within text := by
  have nonempty : list ≠ [] := by
    rintro rfl
    cases here
  rw [Arena.label, entry_finish text attached nonempty here]
  exact ⟨rfl, rfl⟩

/-- However the nodes are pushed, each under an earlier one, the finished arena numbers them
in this order and links them both ways. -/
theorem records_finish (text : Text) {list : List Push} (attached : Attached list) :
    ((ofText text).pushAll list).finish.Records text list := by
  have linked := linked_finish text attached
  constructor
  case size => exact size_finish text list
  case numbers =>
    intro id inside
    rw [size_pushAll, List.length_take_of_le (by omega)]
    exact Nat.zero_add id
  case entries => exact fun id push here => parent_label_finish text attached here
  case children => exact fun id child => linked.mem_children_iff
  case once => exact linked.nodup_children
  case increasing => exact linked.pairwise_children
  case ranges => exact fun id inside => range_finish text attached inside
  case parent =>
    exact fun id index child found => linked.mem_children_iff.1 (List.mem_of_getElem? found)
  case next => exact fun id index child found => linked.nextSibling?_of_child? found
  case previous => exact fun id index child found => linked.previousSibling?_of_child? found
  case first =>
    intro id child isFirst
    rw [List.head?_eq_getElem?] at isFirst
    exact linked.previousSibling?_of_first isFirst
  case last =>
    intro id child isLast
    rw [List.getLast?_eq_getElem?] at isLast
    have inside := (List.getElem?_eq_some_iff.1 isLast).1
    rw [linked.nextSibling?_of_child? isLast, Arena.child?]
    exact List.getElem?_eq_none (by omega)
  case root =>
    have nowhere := linked.root
    rw [Arena.nextSibling?, Arena.previousSibling?, Arena.place?, nowhere]
    exact ⟨rfl, rfl, rfl⟩
  case walk =>
    exact ⟨fun nodes => Arena.yields_singleton_iff, linked.perm_descendants_root⟩

/-- The third node goes back to the root, the fourth to the first child; a range that is
turned around and one that reaches too far are cut. -/
theorem records_finish_interleaved :
    let text := Text.ofString "ab\ncd"
    let list : List Push :=
      [(none, { kind := "pair", range := ⟨0, 9⟩ }),
       (some 0, { kind := "item", range := ⟨0, 2⟩ }),
       (some 0, { kind := "item", field := some "right", range := ⟨5, 3⟩ }),
       (some 1, { kind := "word", range := ⟨1, 2⟩ })]
    let a := ((ofText text).pushAll list).finish
    Attached list ∧ a.Records text list ∧ a.range 0 = ⟨0, 5⟩ ∧ a.range 2 = ⟨3, 3⟩ ∧
      a.children 0 = [1, 2] ∧ a.nextSibling? 1 = some 2 ∧ a.descendants 0 = [0, 1, 3, 2] := by
  intro text list a
  have attached : Attached list := by
    constructor
    · intro push found
      cases found
      rfl
    · rintro (_ | _ | _ | id) push found
      · cases found
        exact ⟨0, by omega, rfl⟩
      · cases found
        exact ⟨0, by omega, rfl⟩
      · cases found
        exact ⟨1, by omega, rfl⟩
      · cases found
  exact ⟨attached, records_finish text attached, by decide, by decide, by decide, by decide,
    by decide +kernel⟩

end Builder

end ParseTree
