import ParseTree.Arena.Lowering

/-!
# Numbers of the nodes of a tree

The arena of a tree is laid out in pre-order: the entry of a node is followed by
the entries of its children, one subtree behind the other.  So the arena unfolds
to the tree it was made from, with every range cut to the text, and the nodes at
and below a node are an interval of numbers.
-/

namespace ParseTree

namespace Rose

mutual

def subtrees : Rose α → List (Rose α)
  | node a ts => node a ts :: subtreesAll ts

def subtreesAll : List (Rose α) → List (Rose α)
  | [] => []
  | t :: ts => subtrees t ++ subtreesAll ts

end

theorem subtreesAll_eq_flatMap (ts : List (Rose α)) : subtreesAll ts = ts.flatMap subtrees := by
  induction ts with
  | nil => rfl
  | cons t ts ih => rw [subtreesAll, ih, List.flatMap_cons]

theorem subtrees_node (a : α) (ts : List (Rose α)) :
    (node a ts).subtrees = node a ts :: ts.flatMap subtrees := by
  rw [subtrees, subtreesAll_eq_flatMap]

theorem self_mem_subtrees (t : Rose α) : t ∈ t.subtrees := by
  obtain ⟨a, ts⟩ := t
  rw [subtrees_node]
  exact List.mem_cons_self

mutual

theorem map_value_subtrees : ∀ t : Rose α, t.subtrees.map value = t.preorder
  | node a ts => by
      rw [subtrees, List.map_cons, map_value_subtreesAll ts, preorder_node]
      rfl

theorem map_value_subtreesAll : ∀ ts : List (Rose α),
    (subtreesAll ts).map value = ts.flatMap preorder
  | [] => rfl
  | t :: ts => by
      rw [subtreesAll, List.map_append, map_value_subtrees t, map_value_subtreesAll ts,
        List.flatMap_cons]

end

def sizeAll (ts : List (Rose α)) : Nat := (ts.flatMap preorder).length

theorem sizeAll_cons (t : Rose α) (ts : List (Rose α)) :
    sizeAll (t :: ts) = t.size + sizeAll ts := by
  rw [sizeAll, List.flatMap_cons, List.length_append, size, sizeAll]

theorem size_node (a : α) (ts : List (Rose α)) : (node a ts).size = sizeAll ts + 1 := by
  rw [size, preorder_node, List.length_cons, sizeAll]

theorem map_node (f : α → β) (a : α) (ts : List (Rose α)) :
    (node a ts).map f = node (f a) (ts.map (map f)) := by
  rw [map, mapAll_eq_map]

mutual

theorem map_eq_self {f : α → α} : ∀ t : Rose α, (∀ a ∈ t.preorder, f a = a) → t.map f = t
  | node a ts, h => by
      rw [preorder_node] at h
      rw [map, h a List.mem_cons_self,
        mapAll_eq_self ts fun b mem => h b (List.mem_cons_of_mem a mem)]

theorem mapAll_eq_self {f : α → α} : ∀ ts : List (Rose α),
    (∀ a ∈ ts.flatMap preorder, f a = a) → mapAll f ts = ts
  | [], _ => rfl
  | t :: ts, h => by
      rw [List.flatMap_cons] at h
      rw [mapAll, map_eq_self t fun a mem => h a (List.mem_append_left _ mem),
        mapAll_eq_self ts fun a mem => h a (List.mem_append_right _ mem)]

end

end Rose

theorem modify_append_left {xs ys : List α} {i : Nat} (f : α → α) (h : i < xs.length) :
    (xs ++ ys).modify i f = xs.modify i f ++ ys := by
  induction xs generalizing i with
  | nil => simp at h
  | cons x xs ih =>
      cases i with
      | zero => simp
      | succ i =>
          simp only [List.length_cons] at h
          simp [ih (by omega : i < xs.length)]

theorem modify_concat (xs : List α) (x : α) (f : α → α) :
    (xs ++ [x]).modify xs.length f = xs ++ [f x] := by
  induction xs with
  | nil => rfl
  | cons y xs ih => simp [ih]

namespace Builder

theorem size_push (b : Builder) (parent : Option Nat) (label : Label) :
    (b.push parent label).size = b.size + 1 := by
  rw [Builder.size, entries_push, Array.size_push, size_adopt]
  rfl

theorem clamp_eq_self {b : Builder} {range : ByteRange} (ordered : range.start ≤ range.stop)
    (inside : range.stop ≤ b.length) : b.clamp range = range := by
  have stop : min range.stop b.length = range.stop := by omega
  have start : min range.start range.stop = range.start := by omega
  rw [clamp, stop, start]

def roots (base : Nat) : List Tree → List Nat
  | [] => []
  | t :: ts => base :: roots (base + t.size) ts

mutual

/-- The entries of a tree whose root has the number `base`; `fresh` makes the
entry of a node that has no children yet. -/
def layOut (fresh : Option Nat → Label → Entry) (parent : Option Nat) (base : Nat) :
    Tree → List Entry
  | .node label ts =>
      { fresh parent label with children := roots (base + 1) ts } ::
        layOutAll fresh (some base) (base + 1) ts

def layOutAll (fresh : Option Nat → Label → Entry) (parent : Option Nat) :
    Nat → List Tree → List Entry
  | _, [] => []
  | base, t :: ts => layOut fresh parent base t ++ layOutAll fresh parent (base + t.size) ts

end

mutual

theorem length_layOut (fresh : Option Nat → Label → Entry) : ∀ (t : Tree)
    (parent : Option Nat) (base : Nat), (layOut fresh parent base t).length = t.size
  | .node label ts, parent, base => by
      rw [layOut, List.length_cons, length_layOutAll fresh ts, Rose.size_node]

theorem length_layOutAll (fresh : Option Nat → Label → Entry) : ∀ (ts : List Tree)
    (parent : Option Nat) (base : Nat),
    (layOutAll fresh parent base ts).length = Rose.sizeAll ts
  | [], parent, base => rfl
  | t :: ts, parent, base => by
      rw [layOutAll, List.length_append, length_layOut fresh t, length_layOutAll fresh ts,
        Rose.sizeAll_cons]

end

mutual

theorem exists_fresh_of_mem_layOut {fresh : Option Nat → Label → Entry} {e : Entry} :
    ∀ {t : Tree} {parent : Option Nat} {base : Nat}, e ∈ layOut fresh parent base t →
      ∃ parent label children, e = { fresh parent label with children }
  | .node label ts, parent, base, mem => by
      rw [layOut] at mem
      rcases List.mem_cons.1 mem with rfl | below
      · exact ⟨parent, label, _, rfl⟩
      · exact exists_fresh_of_mem_layOutAll below

theorem exists_fresh_of_mem_layOutAll {fresh : Option Nat → Label → Entry} {e : Entry} :
    ∀ {ts : List Tree} {parent : Option Nat} {base : Nat}, e ∈ layOutAll fresh parent base ts →
      ∃ parent label children, e = { fresh parent label with children }
  | [], parent, base, mem => by cases mem
  | t :: ts, parent, base, mem => by
      rw [layOutAll] at mem
      rcases List.mem_append.1 mem with first | later
      · exact exists_fresh_of_mem_layOut first
      · exact exists_fresh_of_mem_layOutAll later

end

mutual

theorem entry_addTree : ∀ (t : Tree) (parent : Option Nat) (b : Builder),
    (addTree parent t b).entry = b.entry
  | .node label ts, parent, b => by
      rw [addTree, entry_addForest ts]
      rfl

theorem entry_addForest : ∀ (ts : List Tree) (parent : Option Nat) (b : Builder),
    (addForest parent ts b).entry = b.entry
  | [], parent, b => rfl
  | t :: ts, parent, b => by rw [addForest, entry_addForest ts, entry_addTree t]

end

mutual

theorem entries_addTree : ∀ (t : Tree) (parent : Option Nat) (b : Builder),
    (addTree parent t b).entries.toList =
      (adopt b.entries parent b.size).toList ++ layOut b.entry parent b.size t
  | .node label ts, parent, b => by
      have pushed : (b.push parent label).entries.toList =
          (adopt b.entries parent b.size).toList ++ [b.entry parent label] := by
        rw [entries_push, Array.toList_push]
        rfl
      have last : (adopt b.entries parent b.size).toList.length = b.size := by
        rw [Array.length_toList, size_adopt]
        rfl
      have adopted := modify_concat (adopt b.entries parent b.size).toList (b.entry parent label)
        fun e => { e with children := e.children ++ roots (b.size + 1) ts }
      rw [last] at adopted
      have size := size_push b parent label
      rw [addTree, entries_addForest ts b.size _ (by omega), pushed, size, adopted,
        List.append_assoc, layOut]
      rfl

theorem entries_addForest : ∀ (ts : List Tree) (p : Nat) (b : Builder), p < b.size →
    (addForest (some p) ts b).entries.toList =
      b.entries.toList.modify p (fun e => { e with children := e.children ++ roots b.size ts }) ++
        layOutAll b.entry (some p) b.size ts
  | [], p, b, inside => by
      have same : (fun e : Entry => { e with children := e.children ++ [] }) = id := by
        funext e
        simp
      rw [addForest, roots, layOutAll, same, List.modify_id, List.append_nil]
  | t :: ts, p, b, inside => by
      have first := entries_addTree t (some p) b
      have size : (addTree (some p) t b).size = b.size + t.size := by
        rw [Builder.size, ← Array.length_toList, first, List.length_append, length_layOut,
          Array.length_toList, size_adopt]
        rfl
      have within : p < b.entries.toList.length := inside
      rw [addForest, entries_addForest ts p _ (by omega), first, size, entry_addTree, adopt,
        Array.toList_modify, modify_append_left _ (by simpa using within), List.modify_modify_eq,
        List.append_assoc, layOutAll]
      simp [roots, Function.comp_def]

end

end Builder

def Label.within (text : Text) (label : Label) : Label :=
  { label with range := (Builder.ofText text).clamp label.range }

theorem Label.within_eq_self {text : Text} {label : Label}
    (ordered : label.range.start ≤ label.range.stop) (inside : label.range.stop ≤ text.width) :
    label.within text = label := by
  rw [within, Builder.clamp_eq_self ordered inside]

namespace Arena

theorem unfold_eq (a : Arena) (id : Nat) :
    a.unfold id = .node (a.label id) ((a.children id).map a.unfold) := by
  rw [unfold, outline_eq, Rose.map_node, List.map_map]
  rfl

theorem value_unfold (a : Arena) (id : Nat) : (a.unfold id).value = a.label id := by
  rw [unfold_eq]
  rfl

theorem subtrees_unfold (a : Arena) (id : Nat) :
    (a.unfold id).subtrees = (a.descendants id).map a.unfold := by
  induction id using children_induction (a := a) with
  | step id ih =>
      have below : ((a.children id).map a.unfold).flatMap Rose.subtrees =
          ((a.children id).flatMap a.descendants).map a.unfold := by
        rw [List.flatMap_map, List.map_flatMap, List.flatMap_def, List.flatMap_def]
        congr 1
        exact List.map_congr_left ih
      rw [descendants_eq, List.map_cons, ← below]
      conv => lhs; rw [unfold_eq, Rose.subtrees_node, ← unfold_eq]

theorem entries_ofTree (text : Text) (t : Tree) :
    (Arena.ofTree text t).entries.toList =
      Builder.layOut (Builder.ofText text).entry none 0 t := by
  have built := Builder.entries_addTree t none (Builder.ofText text)
  have empty : (Builder.ofText text).entries.toList = [] := rfl
  rw [adopt, empty, List.nil_append] at built
  have nonempty : 0 < (Builder.addTree none t (Builder.ofText text)).entries.size := by
    obtain ⟨label, ts⟩ := t
    rw [← Array.length_toList, built, Builder.length_layOut, Rose.size_node]
    omega
  rw [Arena.ofTree, entries_finish nonempty]
  exact built

theorem positions_ofTree {text : Text} {t : Tree} {id : Nat} (inside : id < (ofTree text t).size) :
    ((ofTree text t).entry id).start = text.positionAt ((ofTree text t).label id).range.start ∧
      ((ofTree text t).entry id).stop = text.positionAt ((ofTree text t).label id).range.stop := by
  have mem : (ofTree text t).entry id ∈ (ofTree text t).entries.toList := by
    rw [← size_entries] at inside
    rw [Arena.entry, find?_eq, Array.getElem?_eq_getElem inside, Option.getD_some]
    exact Array.getElem_mem_toList inside
  rw [entries_ofTree] at mem
  obtain ⟨parent, label, children, same⟩ := Builder.exists_fresh_of_mem_layOut mem
  rw [Arena.label, same]
  exact ⟨rfl, rfl⟩

section Unfolding

variable {a : Arena} (text : Text)

mutual

theorem unfold_of_layOut : ∀ (t : Tree) (parent : Option Nat) (before after : List Entry),
    a.entries.toList = before ++
      (Builder.layOut (Builder.ofText text).entry parent before.length t ++ after) →
    a.unfold before.length = t.map (Label.within text) ∧
      a.descendants before.length = List.range' before.length t.size
  | .node label ts, parent, before, after, stands => by
      rw [Builder.layOut, List.cons_append] at stands
      have entry : a.entry before.length =
          { (Builder.ofText text).entry parent label with
            children := Builder.roots (before.length + 1) ts } := by
        rw [Arena.entry, find?_eq, ← Array.getElem?_toList, stands]
        simp
      have kept : a.label before.length = label.within text := by
        rw [Arena.label, entry]
        rfl
      have children : a.children before.length = Builder.roots (before.length + 1) ts := by
        rw [Arena.children, entry]
      have inner := unfold_of_layOutAll ts (some before.length)
        (before ++ [{ (Builder.ofText text).entry parent label with
          children := Builder.roots (before.length + 1) ts }]) after (by
            rw [stands]
            simp)
      rw [List.length_append, List.length_singleton] at inner
      rw [unfold_eq, descendants_eq, Rose.map_node, kept, children, inner.1, inner.2,
        Rose.size_node, List.range'_succ]
      exact ⟨rfl, rfl⟩

theorem unfold_of_layOutAll : ∀ (ts : List Tree) (parent : Option Nat)
    (before after : List Entry),
    a.entries.toList = before ++
      (Builder.layOutAll (Builder.ofText text).entry parent before.length ts ++ after) →
    (Builder.roots before.length ts).map a.unfold = ts.map (Rose.map (Label.within text)) ∧
      (Builder.roots before.length ts).flatMap a.descendants =
        List.range' before.length (Rose.sizeAll ts)
  | [], parent, before, after, stands => ⟨rfl, rfl⟩
  | t :: ts, parent, before, after, stands => by
      rw [Builder.layOutAll, List.append_assoc] at stands
      have first := unfold_of_layOut t parent before _ stands
      rw [← List.append_assoc] at stands
      have length : (before ++ Builder.layOut (Builder.ofText text).entry parent
          before.length t).length = before.length + t.size := by
        rw [List.length_append, Builder.length_layOut]
      have others := unfold_of_layOutAll ts parent _ after (by rw [length]; exact stands)
      rw [length] at others
      rw [Builder.roots, List.map_cons, List.map_cons, List.flatMap_cons, first.1, first.2,
        others.1, others.2, Rose.sizeAll_cons, List.range'_append_1]
      exact ⟨rfl, rfl⟩

end

end Unfolding

theorem unfold_ofTree {text : Text} {t : Tree}
    (inside : ∀ label ∈ t.preorder, label.within text = label) :
    (ofTree text t).unfold 0 = t ∧
      (ofTree text t).descendants 0 = List.range (ofTree text t).size := by
  have stands := entries_ofTree text t
  have whole := unfold_of_layOut text t none [] [] (by rw [stands]; simp)
  have size : (ofTree text t).size = t.size := by
    rw [← size_entries, ← Array.length_toList, stands, Builder.length_layOut]
  rw [size, List.range_eq_range']
  exact ⟨whole.1.trans (t.map_eq_self inside), whole.2⟩

theorem unfold_mem_subtrees {text : Text} {t : Tree}
    (inside : ∀ label ∈ t.preorder, label.within text = label) {id : Nat}
    (h : id < (ofTree text t).size) : (ofTree text t).unfold id ∈ t.subtrees := by
  obtain ⟨whole, numbers⟩ := unfold_ofTree inside
  have listed := subtrees_unfold (ofTree text t) 0
  rw [whole, numbers] at listed
  rw [listed]
  exact List.mem_map_of_mem (List.mem_range.2 h)

end Arena

theorem label_of_unfold {a : Arena} {id : Nat} {t : Tree} (h : a.unfold id = t) :
    a.label id = t.value := by
  rw [← h, Arena.value_unfold]

theorem children_of_unfold {a : Arena} {id : Nat} {label : Label} {ts : List Tree}
    (h : a.unfold id = .node label ts) :
    a.label id = label ∧ (a.children id).map a.unfold = ts := by
  rw [Arena.unfold_eq] at h
  exact ⟨congrArg Rose.value h, congrArg Rose.children h⟩

theorem exists_three {f : α → β} {xs : List α} {x y z : β} (h : xs.map f = [x, y, z]) :
    ∃ i j k, xs = [i, j, k] ∧ f i = x ∧ f j = y ∧ f k = z := by
  obtain ⟨i, xs, rfl, first, h⟩ := List.map_eq_cons_iff.1 h
  obtain ⟨j, xs, rfl, second, h⟩ := List.map_eq_cons_iff.1 h
  obtain ⟨k, rfl, third⟩ := List.map_eq_singleton_iff.1 h
  exact ⟨i, j, k, rfl, first, second, third⟩

end ParseTree
