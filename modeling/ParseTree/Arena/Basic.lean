import ParseTree.Rose
import ParseTree.Text.Position
import ParseTree.Tree

/-!
# Arenas

An arena numbers the nodes of a tree in the order in which they were pushed
and keeps, for each, its label, its positions and the numbers of its parent and
children.  A child is always pushed after its parent, so numbers grow on the
way down; `Arena.outline`, the tree of numbers below a node, is defined by
recursion along that order.
-/

namespace ParseTree

structure Entry where
  label : Label
  start : Position
  stop : Position
  parent : Option Nat
  children : List Nat
  deriving DecidableEq, Repr

def Entry.placeholder : Entry :=
  { label := { kind := "ERROR", error := true, range := ⟨0, 0⟩ }
    start := {}
    stop := {}
    parent := none
    children := [] }

def entryAt (entries : Array Entry) (id : Nat) : Entry :=
  entries[id]?.getD Entry.placeholder

def Ascending (entries : Array Entry) : Prop :=
  ∀ id, ∀ child ∈ (entryAt entries id).children, id < child ∧ child < entries.size

def adopt (entries : Array Entry) (parent : Option Nat) (child : Nat) : Array Entry :=
  match parent with
  | none => entries
  | some id => entries.modify id fun e => { e with children := e.children ++ [child] }

theorem size_adopt (entries : Array Entry) (parent : Option Nat) (child : Nat) :
    (adopt entries parent child).size = entries.size := by
  cases parent <;> simp [adopt]

theorem mem_children_adopt {entries : Array Entry} {parent : Option Nat}
    {child id c : Nat} (h : c ∈ (entryAt (adopt entries parent child) id).children) :
    c ∈ (entryAt entries id).children ∨ (c = child ∧ id < entries.size) := by
  cases parent with
  | none => exact Or.inl h
  | some p =>
      simp only [adopt, entryAt, Array.getElem?_modify] at h
      split at h
      · rename_i same
        subst same
        cases found : entries[p]? with
        | none => simp [found, Entry.placeholder] at h
        | some e =>
            have inside : p < entries.size := (Array.getElem?_eq_some_iff.1 found).1
            simp only [found, Option.map_some, Option.getD_some, List.mem_append,
              List.mem_singleton] at h
            rcases h with old | new
            · exact Or.inl (by simpa [entryAt, found] using old)
            · exact Or.inr ⟨new, inside⟩
      · exact Or.inl h

theorem Ascending.push_adopt {entries : Array Entry} (asc : Ascending entries)
    (parent : Option Nat) {entry : Entry} (fresh : entry.children = []) :
    Ascending ((adopt entries parent entries.size).push entry) := by
  intro id child h
  rw [Array.size_push, size_adopt]
  by_cases last : id = entries.size
  · subst last
    simp only [entryAt, Array.getElem?_push, size_adopt, if_true, Option.getD_some,
      fresh, List.not_mem_nil] at h
  · have old : child ∈ (entryAt (adopt entries parent entries.size) id).children := by
      simpa [entryAt, Array.getElem?_push, size_adopt, last] using h
    rcases mem_children_adopt old with kept | ⟨rfl, inside⟩
    · have := asc id child kept
      omega
    · omega

structure Builder where
  lines : LineIndex
  length : Nat
  entries : Array Entry
  ascending : Ascending entries

namespace Builder

def ofText (text : Text) : Builder where
  lines := LineIndex.ofText text
  length := text.width
  entries := #[]
  ascending := by intro id child h; simp [entryAt, Entry.placeholder] at h

def size (b : Builder) : Nat := b.entries.size

def isEmpty (b : Builder) : Bool := b.entries.isEmpty

def clamp (b : Builder) (range : ByteRange) : ByteRange :=
  let stop := min range.stop b.length
  ⟨min range.start stop, stop⟩

def entry (b : Builder) (parent : Option Nat) (label : Label) : Entry :=
  let range := b.clamp label.range
  { label := { label with range }
    start := b.lines.position range.start
    stop := b.lines.position range.stop
    parent
    children := [] }

def push (b : Builder) (parent : Option Nat) (label : Label) : Builder :=
  let entry := b.entry parent label
  match b with
  | ⟨lines, length, entries, ascending⟩ =>
      { lines
        length
        entries := (adopt entries parent entries.size).push entry
        ascending := ascending.push_adopt parent rfl }

theorem entries_push (b : Builder) (parent : Option Nat) (label : Label) :
    (b.push parent label).entries =
      (adopt b.entries parent b.entries.size).push (b.entry parent label) := rfl

end Builder

/-- The root is kept apart, so there always is one. -/
structure Arena where
  root : Entry
  rest : Array Entry
  ascending : Ascending (#[root] ++ rest)

theorem Ascending.of_size_eq_zero {entries : Array Entry} (empty : entries.size = 0) :
    Ascending (#[entryAt entries 0] ++ entries.extract 1) := by
  obtain rfl := Array.eq_empty_of_size_eq_zero empty
  intro id child h
  cases id <;> simp [entryAt, Entry.placeholder] at h

theorem append_extract_one {entries : Array Entry} (nonempty : 0 < entries.size) :
    #[entryAt entries 0] ++ entries.extract 1 = entries := by
  obtain ⟨list⟩ := entries
  cases list with
  | nil => simp at nonempty
  | cons first list => simp [entryAt]

def Builder.finish (b : Builder) : Arena where
  root := entryAt b.entries 0
  rest := b.entries.extract 1
  ascending := by
    rcases Nat.eq_zero_or_pos b.entries.size with empty | nonempty
    · exact .of_size_eq_zero empty
    · rw [append_extract_one nonempty]
      exact b.ascending

namespace Arena

def size (a : Arena) : Nat := a.rest.size + 1

def find? (a : Arena) : Nat → Option Entry
  | 0 => some a.root
  | index + 1 => a.rest[index]?

def entry (a : Arena) (id : Nat) : Entry := (a.find? id).getD Entry.placeholder

def entries (a : Arena) : Array Entry := #[a.root] ++ a.rest

theorem size_entries (a : Arena) : a.entries.size = a.size := by
  simp [entries, size, Nat.add_comm]

theorem find?_eq (a : Arena) (id : Nat) : a.find? id = a.entries[id]? := by
  cases id <;> simp [find?, entries, Array.getElem?_append]

theorem entry_eq (a : Arena) (id : Nat) : a.entry id = entryAt a.entries id := by
  rw [entry, find?_eq, entryAt]

theorem entries_finish {b : Builder} (nonempty : 0 < b.entries.size) :
    b.finish.entries = b.entries :=
  append_extract_one nonempty

theorem nonempty (a : Arena) : 0 < a.size := Nat.succ_pos _

def label (a : Arena) (id : Nat) : Label := (a.entry id).label

def children (a : Arena) (id : Nat) : List Nat := (a.entry id).children

theorem lt_of_mem_children {a : Arena} {id child : Nat} (h : child ∈ a.children id) :
    id < child ∧ child < a.size := by
  rw [children, entry_eq] at h
  rw [← size_entries]
  exact a.ascending id child h

/-- Numbers grow on the way down, so what passes from the children of a node to the node
holds of every node. -/
theorem children_induction {a : Arena} {P : Nat → Prop}
    (step : ∀ id, (∀ child ∈ a.children id, P child) → P id) (id : Nat) : P id :=
  step id fun child mem =>
    have := a.lt_of_mem_children mem
    children_induction step child
termination_by a.size - id
decreasing_by omega

def outline (a : Arena) (id : Nat) : Rose Nat :=
  .node id ((a.children id).attach.map fun ⟨child, _⟩ => a.outline child)
termination_by a.size - id
decreasing_by
  rename_i h
  have := a.lt_of_mem_children h
  omega

theorem outline_eq (a : Arena) (id : Nat) :
    a.outline id = .node id ((a.children id).map a.outline) := by
  rw [outline]
  simp

def unfold (a : Arena) (id : Nat) : Tree := (a.outline id).map a.label

def descendants (a : Arena) (id : Nat) : List Nat := (a.outline id).preorder

theorem descendants_eq (a : Arena) (id : Nat) :
    a.descendants id = id :: (a.children id).flatMap a.descendants := by
  rw [descendants, outline_eq, Rose.preorder_node, List.flatMap_map]
  rfl

end Arena

end ParseTree
