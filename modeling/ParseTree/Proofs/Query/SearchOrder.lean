import ParseTree.Proofs.Query.Embedding

/-!
# The order of the search

The search hands partial bindings to continuations and stops at the first
success.  Here it is compared with the plain list of all embeddings: each
embedding writes its captures into the bindings, and the search returns the
first result that the continuation gives along that list.
-/

namespace ParseTree.Query

def Bindings.write (captured : List (Nat × Nat)) (b : Bindings) : Bindings :=
  captured.foldl (fun b (slot, node) => b.set slot (some node)) b

namespace Pattern

def binding (p : Pattern) (id : Nat) (embedding : Embedding) : Bindings :=
  Bindings.write (p.root.captured id embedding) p.unbound

def bindings (p : Pattern) (a : Arena) (id : Nat) : List Bindings :=
  (p.root.embeddings a id).map (p.binding id)

end Pattern

theorem Bindings.write_append (first second : List (Nat × Nat)) (b : Bindings) :
    write (first ++ second) b = write second (write first b) :=
  List.foldl_append

theorem Mark.bind_eq_write (mark : Mark) (id : Nat) (b : Bindings) :
    mark.bind id b = Bindings.write (mark.captures.map fun slot => (slot, id)) b := by
  rw [Mark.bind, Bindings.write, List.foldl_map]

theorem firstSplit_eq_findSome? (attempt : α → List α → Option β) (xs : List α) :
    firstSplit attempt xs = (splits xs).findSome? fun (x, rest) => attempt x rest := by
  induction xs with
  | nil => rfl
  | cons x xs ih =>
      rw [firstSplit, splits, List.findSome?_cons, ih]
      dsimp only
      cases attempt x xs <;> rfl

theorem findSome?_flatMap (xs : List α) (f : α → List β) (g : β → Option γ) :
    (xs.flatMap f).findSome? g = xs.findSome? fun x => (f x).findSome? g := by
  induction xs with
  | nil => rfl
  | cons x xs ih =>
      rw [List.flatMap_cons, List.findSome?_append, List.findSome?_cons, ih]
      cases (f x).findSome? g <;> rfl

mutual

/-- The continuation is generalised: it stands for the rest of the search. -/
theorem Element.search_eq_findSome? (a : Arena) : ∀ (e : Element) (id : Nat) (b : Bindings)
    (found : Bindings → Option β),
    e.search a id b found =
      (e.embeddings a id).findSome? fun x => found (Bindings.write (e.captured id x) b)
  | .node test children absent mark, id, b, found => by
      rw [Element.search, Element.embeddings]
      split
      · rw [searchSequence_eq_findSome? a children, List.findSome?_map]
        simp only [Function.comp_def, Element.captured, Bindings.write_append,
          Mark.bind_eq_write]
      · rfl
  | .choice branches mark, id, b, found => by
      rw [Element.search, Element.embeddings]
      split
      · rw [searchBranches_eq_findSome? a branches, List.findSome?_map]
        simp only [Function.comp_def, Element.captured, Bindings.write_append,
          Mark.bind_eq_write]
      · rfl

theorem searchSequence_eq_findSome? (a : Arena) : ∀ (es : List Element) (ids : List Nat)
    (b : Bindings) (found : Bindings → Option β),
    searchSequence a es ids b found =
      (placements a es ids).findSome? fun places =>
        found (Bindings.write (childrenCaptured es places) b)
  | [], ids, b, found => by
      rw [searchSequence, placements, List.findSome?_cons]
      simp only [childrenCaptured, Bindings.write, List.foldl_nil, List.findSome?_nil]
      cases found b <;> rfl
  | e :: es, ids, b, found => by
      have taken : (firstSplit (fun id rest =>
            e.search a id b fun b => searchSequence a es rest b found) ids) =
          ((splits ids).flatMap fun (child, rest) =>
            (e.embeddings a child).flatMap fun inner =>
              (placements a es rest).map fun places => .over child inner :: places).findSome?
            fun places => found (Bindings.write (childrenCaptured (e :: es) places) b) := by
        rw [firstSplit_eq_findSome?, findSome?_flatMap]
        congr 1
        funext ⟨child, rest⟩
        dsimp only
        rw [e.search_eq_findSome? a child, findSome?_flatMap]
        congr 1
        funext inner
        rw [searchSequence_eq_findSome? a es rest, List.findSome?_map]
        simp only [Function.comp_def, childrenCaptured, Bindings.write_append]
      have skipped : (if e.mark.optional then searchSequence a es ids b found else none) =
          (if e.mark.optional then (placements a es ids).map fun places => .skipped :: places
            else []).findSome?
            fun places => found (Bindings.write (childrenCaptured (e :: es) places) b) := by
        split
        · rw [searchSequence_eq_findSome? a es ids, List.findSome?_map]
          simp only [Function.comp_def, childrenCaptured]
        · rfl
      rw [searchSequence, placements, List.findSome?_append, taken, skipped]
      cases List.findSome? _ _ <;> rfl

theorem searchBranches_eq_findSome? (a : Arena) : ∀ (es : List Element) (id : Nat)
    (b : Bindings) (found : Bindings → Option β),
    searchBranches a id es b found =
      (branchEmbeddings a id es).findSome? fun (index, branch) =>
        found (Bindings.write (branchCaptured id es index branch) b)
  | [], id, b, found => by rw [searchBranches, branchEmbeddings, List.findSome?_nil]
  | e :: es, id, b, found => by
      rw [searchBranches, branchEmbeddings, List.findSome?_append, List.findSome?_map,
        List.findSome?_map, e.search_eq_findSome? a id, searchBranches_eq_findSome? a es id]
      simp only [Function.comp_def, branchCaptured]
      cases List.findSome? _ _ <;> rfl

end

theorem findSome?_guard_eq_find? (xs : List α) (f : α → β) (holds : β → Bool) :
    (xs.findSome? fun x => if holds (f x) then some (f x) else none) =
      (xs.map f).find? holds := by
  induction xs with
  | nil => rfl
  | cons x xs ih =>
      rw [List.findSome?_cons, List.map_cons, List.find?_cons, ih]
      cases holds (f x) <;> rfl

theorem Pattern.matchAt_eq_find? (p : Pattern) (a : Arena) (textOf : Nat → Text) (id : Nat) :
    p.matchAt a textOf id = (p.bindings a id).find? (p.predicatesHold textOf) := by
  rw [matchAt, Element.search_eq_findSome?, bindings, ← findSome?_guard_eq_find?]
  rfl

theorem Pattern.exists_fits_of_matchAt {p : Pattern} {a : Arena} {textOf : Nat → Text}
    {id : Nat} {b : Bindings} (h : p.matchAt a textOf id = some b) :
    ∃ x, p.root.Fits a id x ∧ p.binding id x = b ∧
      ∀ predicate ∈ p.predicates, predicate.Satisfied textOf b := by
  rw [matchAt_eq_find?] at h
  have holds := (p.predicatesHold_iff textOf b).1 (List.find?_some h)
  obtain ⟨x, listed, same⟩ := List.mem_map.1 (List.mem_of_find?_eq_some h)
  exact ⟨x, (p.root.mem_embeddings_iff a id x).1 listed, same, holds⟩

/-- The search returns the first binding, in the order of the enumeration, that
satisfies the predicates, and nothing exactly if none does. -/
theorem Pattern.matchAt_first_of_bindings (p : Pattern) (a : Arena) (textOf : Nat → Text)
    (id : Nat) :
    p.matchAt a textOf id = (p.bindings a id).find? (p.predicatesHold textOf) ∧
      (p.matchAt a textOf id = none ↔
        ∀ b ∈ p.bindings a id,
          ¬ ∀ predicate ∈ p.predicates, predicate.Satisfied textOf b) := by
  have first := p.matchAt_eq_find? a textOf id
  refine ⟨first, ?_⟩
  simp only [first, List.find?_eq_none, p.predicatesHold_iff]

end ParseTree.Query
