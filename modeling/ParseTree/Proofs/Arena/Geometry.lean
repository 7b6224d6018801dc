import ParseTree.Arena.Navigation
import ParseTree.Proofs.Arena.Descendants
import ParseTree.Proofs.Arena.Numbering
import ParseTree.Proofs.Text.Boundary

/-!
# Geometry of trees and arenas

In a sound tree every range ends at character boundaries, lies inside the range
of its parent and does not overlap the ranges of its siblings; a missing node is
empty and no other leaf is.  The arena of a sound tree has the same properties,
and while it is built no range is cut and none escapes the range above it.
-/

namespace ParseTree

namespace Tree

mutual

def Sound (text : Text) : Tree → Prop
  | .node label children =>
      text.isBoundary label.range.start = true ∧ text.isBoundary label.range.stop = true ∧
        (label.missing = true → label.range.start = label.range.stop) ∧
        (children = [] → label.missing = false → label.range.start < label.range.stop) ∧
        Lined text label.range.start label.range.stop children

def Lined (text : Text) (start stop : Nat) : List Tree → Prop
  | [] => start ≤ stop
  | t :: ts => start ≤ t.range.start ∧ Sound text t ∧ Lined text t.range.stop stop ts

end

mutual

theorem Sound.ordered {text : Text} : ∀ {t : Tree}, t.Sound text →
    t.range.start ≤ t.range.stop
  | .node _ _, h => Lined.ordered h.2.2.2.2

theorem Lined.ordered {text : Text} : ∀ {ts : List Tree} {start stop : Nat},
    Lined text start stop ts → start ≤ stop
  | [], _, _, h => h
  | _ :: _, _, _, h => by
      have first := h.2.1.ordered
      have others := h.2.2.ordered
      have before := h.1
      omega

end

theorem Lined.of_le {text : Text} {ts : List Tree} {start start' stop : Nat}
    (h : Lined text start stop ts) (le : start' ≤ start) : Lined text start' stop ts := by
  cases ts with
  | nil => exact Nat.le_trans le h
  | cons t ts => exact ⟨Nat.le_trans le h.1, h.2⟩

theorem Lined.mem {text : Text} {ts : List Tree} {start stop : Nat}
    (h : Lined text start stop ts) {t : Tree} (mem : t ∈ ts) :
    t.Sound text ∧ start ≤ t.range.start ∧ t.range.stop ≤ stop := by
  induction ts generalizing start with
  | nil => cases mem
  | cons first ts ih =>
      obtain ⟨before, sound, behind⟩ := h
      rcases List.mem_cons.1 mem with rfl | later
      · exact ⟨sound, before, behind.ordered⟩
      · obtain ⟨sound', start', stop'⟩ := ih behind later
        have ordered := sound.ordered
        exact ⟨sound', by omega, stop'⟩

theorem Lined.pairwise {text : Text} {ts : List Tree} {start stop : Nat}
    (h : Lined text start stop ts) :
    ts.Pairwise fun t u => t.range.stop ≤ u.range.start := by
  induction ts generalizing start with
  | nil => exact .nil
  | cons first ts ih =>
      obtain ⟨-, -, behind⟩ := h
      exact .cons (fun u mem => (behind.mem mem).2.1) (ih behind)

mutual

theorem Sound.of_mem_subtrees {text : Text} : ∀ {t : Tree}, t.Sound text →
    ∀ {u : Tree}, u ∈ t.subtrees → u.Sound text
  | .node label children, h, u, mem => by
      rw [Rose.subtrees] at mem
      rcases List.mem_cons.1 mem with rfl | below
      · exact h
      · exact Lined.of_mem_subtreesAll h.2.2.2.2 below

theorem Lined.of_mem_subtreesAll {text : Text} : ∀ {ts : List Tree} {start stop : Nat},
    Lined text start stop ts → ∀ {u : Tree}, u ∈ Rose.subtreesAll ts → u.Sound text
  | [], _, _, _, u, mem => by cases mem
  | t :: ts, _, _, h, u, mem => by
      rw [Rose.subtreesAll] at mem
      rcases List.mem_append.1 mem with first | later
      · exact Sound.of_mem_subtrees h.2.1 first
      · exact Lined.of_mem_subtreesAll h.2.2 later

end

theorem Sound.within {text : Text} {t : Tree} (h : t.Sound text) :
    ∀ label ∈ t.preorder, label.within text = label := by
  intro label mem
  rw [← Rose.map_value_subtrees] at mem
  obtain ⟨⟨label, children⟩, below, rfl⟩ := List.mem_map.1 mem
  have sound := h.of_mem_subtrees below
  exact Label.within_eq_self sound.ordered (Text.le_width_of_isBoundary sound.2.1)

end Tree

structure Arena.Geometry (a : Arena) (text : Text) : Prop where
  root : a.range 0 = ⟨0, text.width⟩
  ordered : ∀ id < a.size, (a.range id).start ≤ (a.range id).stop
  inside : ∀ id < a.size, (a.range id).stop ≤ text.width
  boundaries : ∀ id < a.size,
    text.isBoundary (a.range id).start = true ∧ text.isBoundary (a.range id).stop = true
  nested : ∀ id < a.size, ∀ child ∈ a.children id,
    (a.range id).start ≤ (a.range child).start ∧ (a.range child).stop ≤ (a.range id).stop
  siblings : ∀ id < a.size,
    (a.children id).Pairwise fun c d => (a.range c).stop ≤ (a.range d).start
  missing : ∀ id < a.size, (a.label id).missing = true →
    (a.range id).start = (a.range id).stop
  leaves : ∀ id < a.size, a.children id = [] → (a.label id).missing = false →
    (a.range id).start < (a.range id).stop

theorem Arena.Geometry.start_le_width {a : Arena} {text : Text} (h : a.Geometry text) {id : Nat}
    (inside : id < a.size) : (a.range id).start ≤ text.width :=
  Nat.le_trans (h.ordered id inside) (h.inside id inside)

theorem Arena.Geometry.within_of_mem_descendants {a : Arena} {text : Text} (h : a.Geometry text)
    {id node : Nat} (inside : id < a.size) (mem : node ∈ a.descendants id) :
    (a.range id).start ≤ (a.range node).start ∧ (a.range node).stop ≤ (a.range id).stop := by
  have both : node < a.size ∧
      (a.range id).start ≤ (a.range node).start ∧ (a.range node).stop ≤ (a.range id).stop := by
    refine Arena.descendants_induction (P := fun node => node < a.size ∧
      (a.range id).start ≤ (a.range node).start ∧ (a.range node).stop ≤ (a.range id).stop) ?_ ?_ mem
    · rintro parent ⟨known, left, right⟩ child isChild
      obtain ⟨left', right'⟩ := h.nested parent known child isChild
      exact ⟨(Arena.lt_of_mem_children isChild).2, by omega, by omega⟩
    · exact ⟨inside, Nat.le_refl _, Nat.le_refl _⟩
  exact both.2

theorem Arena.Geometry.pairwise_start {a : Arena} {text : Text} (h : a.Geometry text) {id : Nat}
    (inside : id < a.size) :
    (a.descendants id).Pairwise fun node later => (a.range node).start ≤ (a.range later).start := by
  induction id using children_induction (a := a) with
  | step id ih =>
      rw [descendants_eq]
      refine .cons ?_ (List.pairwise_flatMap.2 ⟨?_, ?_⟩)
      · intro node below
        rw [List.mem_flatMap] at below
        obtain ⟨child, isChild, below⟩ := below
        exact (h.within_of_mem_descendants inside (mem_descendants_of_child isChild below)).1
      · intro child isChild
        exact ih child isChild (lt_of_mem_children isChild).2
      · refine (h.siblings id inside).imp_of_mem ?_
        intro child sibling isChild isSibling apart node below later belowSibling
        have known := (lt_of_mem_children isChild).2
        have ordered := h.ordered node (lt_size_of_mem_descendants known below)
        have first := (h.within_of_mem_descendants known below).2
        have second := (h.within_of_mem_descendants (lt_of_mem_children isSibling).2 belowSibling).1
        omega

theorem Arena.range_unfold (a : Arena) (id : Nat) : Tree.range (a.unfold id) = a.range id := by
  rw [Arena.unfold_eq]
  rfl

theorem Tree.Sound.geometry {text : Text} {t : Tree} (h : t.Sound text)
    (whole : t.range = ⟨0, text.width⟩) : (Arena.ofTree text t).Geometry text := by
  have sound : ∀ id < (Arena.ofTree text t).size,
      ((Arena.ofTree text t).unfold id).Sound text := fun id inside =>
    h.of_mem_subtrees (Arena.unfold_mem_subtrees h.within inside)
  generalize same : Arena.ofTree text t = a at sound
  have lined : ∀ id < a.size, Lined text (a.range id).start (a.range id).stop
      ((a.children id).map a.unfold) := by
    intro id inside
    have here := sound id inside
    rw [Arena.unfold_eq] at here
    exact here.2.2.2.2
  have root : a.unfold 0 = t := by
    rw [← same]
    exact (Arena.unfold_ofTree h.within).1
  constructor
  case root => rw [← a.range_unfold, root, whole]
  case ordered =>
    intro id inside
    exact (lined id inside).ordered
  case inside =>
    intro id inside
    have here := sound id inside
    rw [Arena.unfold_eq] at here
    exact Text.le_width_of_isBoundary here.2.1
  case boundaries =>
    intro id inside
    have here := sound id inside
    rw [Arena.unfold_eq] at here
    exact ⟨here.1, here.2.1⟩
  case nested =>
    intro id inside child mem
    have within := ((lined id inside).mem (List.mem_map_of_mem mem)).2
    rwa [a.range_unfold] at within
  case siblings =>
    intro id inside
    have order := List.pairwise_map.1 (lined id inside).pairwise
    simpa only [a.range_unfold] using order
  case missing =>
    intro id inside missing
    have here := sound id inside
    rw [Arena.unfold_eq] at here
    exact here.2.2.1 missing
  case leaves =>
    intro id inside leaf present
    have here := sound id inside
    rw [Arena.unfold_eq] at here
    exact here.2.2.2.1 (by rw [leaf, List.map_nil]) present

/-! ## The pushes -/

namespace Builder

abbrev Push := Option Nat × Label

mutual

def pushes (parent : Option Nat) (base : Nat) : Tree → List Push
  | .node label ts => (parent, label) :: pushesAll (some base) (base + 1) ts

def pushesAll (parent : Option Nat) : Nat → List Tree → List Push
  | _, [] => []
  | base, t :: ts => pushes parent base t ++ pushesAll parent (base + t.size) ts

end

def pushAll (b : Builder) (list : List Push) : Builder :=
  list.foldl (fun b (parent, label) => b.push parent label) b

def Accepts (b : Builder) (parent : Option Nat) (label : Label) : Prop :=
  b.clamp label.range = label.range ∧
    ∀ id ∈ parent, ∀ above ∈ b.entries[id]?,
      above.label.range.start ≤ (b.clamp label.range).start ∧
        (b.clamp label.range).stop ≤ above.label.range.stop

def AcceptsAll : Builder → List Push → Prop
  | _, [] => True
  | b, (parent, label) :: list => b.Accepts parent label ∧ (b.push parent label).AcceptsAll list

theorem pushAll_append (b : Builder) (first second : List Push) :
    b.pushAll (first ++ second) = (b.pushAll first).pushAll second :=
  List.foldl_append

theorem AcceptsAll.append {b : Builder} {first second : List Push} (h : b.AcceptsAll first)
    (behind : (b.pushAll first).AcceptsAll second) : b.AcceptsAll (first ++ second) := by
  induction first generalizing b with
  | nil => exact behind
  | cons push first ih => exact ⟨h.1, ih h.2 behind⟩

theorem size_pushAll (b : Builder) (list : List Push) :
    (b.pushAll list).size = b.size + list.length := by
  induction list generalizing b with
  | nil => rfl
  | cons push list ih =>
      have step : b.pushAll (push :: list) = (b.push push.1 push.2).pushAll list := rfl
      rw [step, ih, size_push, List.length_cons]
      omega

mutual

theorem length_pushes : ∀ (t : Tree) (parent : Option Nat) (base : Nat),
    (pushes parent base t).length = t.size
  | .node label ts, parent, base => by
      rw [pushes, List.length_cons, length_pushesAll ts, Rose.size_node]

theorem length_pushesAll : ∀ (ts : List Tree) (parent : Option Nat) (base : Nat),
    (pushesAll parent base ts).length = Rose.sizeAll ts
  | [], parent, base => rfl
  | t :: ts, parent, base => by
      rw [pushesAll, List.length_append, length_pushes t, length_pushesAll ts,
        Rose.sizeAll_cons]

end

mutual

theorem addTree_eq_pushAll : ∀ (t : Tree) (parent : Option Nat) (b : Builder),
    addTree parent t b = b.pushAll (pushes parent b.size t)
  | .node label ts, parent, b => by
      rw [addTree, addForest_eq_pushAll ts, size_push, pushes]
      rfl

theorem addForest_eq_pushAll : ∀ (ts : List Tree) (parent : Option Nat) (b : Builder),
    addForest parent ts b = b.pushAll (pushesAll parent b.size ts)
  | [], parent, b => rfl
  | t :: ts, parent, b => by
      rw [addForest, addForest_eq_pushAll ts, addTree_eq_pushAll t, size_pushAll,
        length_pushes, ← pushAll_append, pushesAll]

end

def HasRange (b : Builder) (id : Nat) (range : ByteRange) : Prop :=
  ∃ entry, b.entries[id]? = some entry ∧ entry.label.range = range

theorem HasRange.push {b : Builder} {id : Nat} {range : ByteRange} (h : b.HasRange id range)
    (parent : Option Nat) (label : Label) : (b.push parent label).HasRange id range := by
  obtain ⟨entry, found, rfl⟩ := h
  have inside : id < b.entries.size := (Array.getElem?_eq_some_iff.1 found).1
  have old : (b.push parent label).entries[id]? = (adopt b.entries parent b.entries.size)[id]? := by
    rw [entries_push, Array.getElem?_push, if_neg (by rw [size_adopt]; omega)]
  cases parent with
  | none => exact ⟨entry, old.trans found, rfl⟩
  | some p =>
      rw [adopt, Array.getElem?_modify, found] at old
      split at old
      · exact ⟨_, old, rfl⟩
      · exact ⟨_, old, rfl⟩

theorem HasRange.pushAll {b : Builder} {id : Nat} {range : ByteRange} (h : b.HasRange id range)
    (list : List Push) : (b.pushAll list).HasRange id range := by
  induction list generalizing b with
  | nil => exact h
  | cons push list ih => exact ih (h.push push.1 push.2)

theorem hasRange_push_self (b : Builder) (parent : Option Nat) (label : Label) :
    (b.push parent label).HasRange b.size (b.clamp label.range) := by
  refine ⟨b.entry parent label, ?_, rfl⟩
  rw [entries_push, Array.getElem?_push, if_pos (by rw [size_adopt]; rfl)]

theorem length_pushAll (b : Builder) (list : List Push) : (b.pushAll list).length = b.length := by
  induction list generalizing b with
  | nil => rfl
  | cons push list ih => exact ih (b.push push.1 push.2)

section Accepted

variable {text : Text}

mutual

theorem acceptsAll_pushes : ∀ {t : Tree} {parent : Option Nat} {b : Builder},
    t.Sound text → b.length = text.width →
    (∀ id ∈ parent, ∃ above, b.HasRange id above ∧
      above.start ≤ t.range.start ∧ t.range.stop ≤ above.stop) →
    b.AcceptsAll (pushes parent b.size t)
  | .node label ts, parent, b, sound, length, below => by
      have kept : b.clamp label.range = label.range := by
        refine clamp_eq_self sound.ordered ?_
        rw [length]
        exact Text.le_width_of_isBoundary sound.2.1
      have own := hasRange_push_self b parent label
      rw [kept] at own
      rw [pushes, ← size_push b parent label]
      constructor
      · refine ⟨kept, ?_⟩
        intro id mem above found
        obtain ⟨range, ⟨entry, found', rfl⟩, holds⟩ := below id mem
        cases found'.symm.trans found
        rw [kept]
        exact holds
      · exact acceptsAll_pushesAll sound.2.2.2.2 length own (Nat.le_refl _) (Nat.le_refl _)

theorem acceptsAll_pushesAll : ∀ {ts : List Tree} {id start stop : Nat} {above : ByteRange}
    {b : Builder}, Tree.Lined text start stop ts → b.length = text.width →
    b.HasRange id above → above.start ≤ start → stop ≤ above.stop →
    b.AcceptsAll (pushesAll (some id) b.size ts)
  | [], _, _, _, _, _, _, _, _, _, _ => trivial
  | t :: ts, id, start, stop, above, b, lined, length, has, le_start, stop_le => by
      have first := lined.mem List.mem_cons_self
      have ordered := first.1.ordered
      have behind := lined.2.2.ordered
      have head : b.AcceptsAll (pushes (some id) b.size t) := by
        apply acceptsAll_pushes first.1 length
        intro id' mem
        cases mem
        exact ⟨above, has, by omega, by omega⟩
      rw [pushesAll]
      refine head.append ?_
      have size := size_pushAll b (pushes (some id) b.size t)
      rw [length_pushes] at size
      rw [← size]
      exact acceptsAll_pushesAll lined.2.2 ((length_pushAll b _).trans length)
        (has.pushAll _) (by omega) stop_le

end

end Accepted

end Builder

end ParseTree
