/-!
# Rose trees

A value at every node and any number of children in order.  `preorder` lists a
node before its children and the children from left to right.
-/

namespace ParseTree

inductive Rose (α : Type) where
  | node (value : α) (children : List (Rose α))
  deriving Repr

namespace Rose

def value : Rose α → α
  | node a _ => a

def children : Rose α → List (Rose α)
  | node _ ts => ts

mutual

def preorderOnto : Rose α → List α → List α
  | node a ts, rest => a :: preorderAllOnto ts rest

def preorderAllOnto : List (Rose α) → List α → List α
  | [], rest => rest
  | t :: ts, rest => preorderOnto t (preorderAllOnto ts rest)

end

def preorder (t : Rose α) : List α := t.preorderOnto []

def size (t : Rose α) : Nat := t.preorder.length

mutual

def map (f : α → β) : Rose α → Rose β
  | node a ts => node (f a) (mapAll f ts)

def mapAll (f : α → β) : List (Rose α) → List (Rose β)
  | [] => []
  | t :: ts => map f t :: mapAll f ts

end

mutual

theorem preorderOnto_eq : ∀ (t : Rose α) (rest : List α),
    t.preorderOnto rest = t.preorder ++ rest
  | node a ts, rest => by
      rw [preorder, preorderOnto, preorderOnto, preorderAllOnto_eq ts rest,
        preorderAllOnto_eq ts []]
      simp

theorem preorderAllOnto_eq : ∀ (ts : List (Rose α)) (rest : List α),
    preorderAllOnto ts rest = ts.flatMap preorder ++ rest
  | [], rest => rfl
  | t :: ts, rest => by
      rw [preorderAllOnto, preorderOnto_eq t, preorderAllOnto_eq ts rest]
      simp

end

theorem preorder_node (a : α) (ts : List (Rose α)) :
    (node a ts).preorder = a :: ts.flatMap preorder := by
  rw [preorder, preorderOnto, preorderAllOnto_eq, List.append_nil]

theorem mapAll_eq_map (f : α → β) (ts : List (Rose α)) : mapAll f ts = ts.map (map f) := by
  induction ts with
  | nil => rfl
  | cons t ts ih => simp [mapAll, ih]

mutual

theorem preorder_map (f : α → β) : ∀ t : Rose α, (t.map f).preorder = t.preorder.map f
  | node a ts => by
      rw [map, preorder_node, preorder_node, flatMap_preorder_mapAll f ts, List.map_cons]

theorem flatMap_preorder_mapAll (f : α → β) :
    ∀ ts : List (Rose α), (mapAll f ts).flatMap preorder = (ts.flatMap preorder).map f
  | [] => rfl
  | t :: ts => by
      rw [mapAll, List.flatMap_cons, List.flatMap_cons, List.map_append, preorder_map f t,
        flatMap_preorder_mapAll f ts]

end

end Rose

end ParseTree
