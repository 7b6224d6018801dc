import Mathlib.Logic.ExistsUnique
import ParseTree.Arith.Expression
import ParseTree.Grammar
import ParseTree.Proofs.Query.Captures
import ParseTree.Proofs.Query.Slots

/-!
# Matches and embeddings

A compiled pattern matches at a node exactly if one of its embeddings there
satisfies the predicates, and the match binds what such an embedding captures.
That an embedding determines its bindings rests on the numbering of the slots:
no slot is written twice, and each lies inside the bindings.
-/

namespace ParseTree.Query

theorem Bindings.length_write (captured : List (Nat × Nat)) (b : Bindings) :
    (write captured b).length = b.length := by
  induction captured generalizing b with
  | nil => rfl
  | cons entry captured ih =>
      rw [write, List.foldl_cons, ← write, ih, List.length_set]

theorem Bindings.get?_set (b : Bindings) {slot other : Nat} (node : Nat)
    (inside : slot < b.length) :
    get? (b.set slot (some node)) other = if slot = other then some node else b.get? other := by
  unfold get?
  rw [List.getElem?_set]
  split
  · simp
  · rfl

theorem Bindings.get?_write {captured : List (Nat × Nat)} {b : Bindings}
    (distinct : (captured.map Prod.fst).Nodup)
    (inside : ∀ slot ∈ captured.map Prod.fst, slot < b.length) {slot node : Nat} :
    (write captured b).get? slot = some node ↔
      (slot, node) ∈ captured ∨
        (slot ∉ captured.map Prod.fst ∧ b.get? slot = some node) := by
  induction captured generalizing b with
  | nil => simp [write]
  | cons entry captured ih =>
      obtain ⟨first, target⟩ := entry
      simp only [List.map_cons, List.nodup_cons] at distinct
      simp only [List.map_cons, List.mem_cons, forall_eq_or_imp] at inside
      have step : write ((first, target) :: captured) b =
          write captured (b.set first (some target)) := rfl
      rw [step, ih distinct.2 (by simpa using inside.2), get?_set b target inside.1]
      have fresh : ∀ other, (first, other) ∉ captured := fun other mem =>
        distinct.1 (List.mem_map.2 ⟨_, mem, rfl⟩)
      by_cases same : first = slot
      · subst same
        simp [fresh, distinct.1, eq_comm]
      · simp [same, Ne.symm same]

theorem Bindings.ext_get? {b b' : Bindings} (length : b.length = b'.length)
    (same : ∀ slot, b.get? slot = b'.get? slot) : b = b' := by
  apply List.ext_getElem length
  intro slot inside inside'
  have here := same slot
  simpa only [get?, List.getElem?_eq_getElem inside, List.getElem?_eq_getElem inside',
    Option.join_some] using here

namespace Pattern

variable {vocabulary : Vocabulary} {source : Text} {found : List Pattern} {p : Pattern}

theorem binds_binding (compiled : compile vocabulary source = .ok found) (mem : p ∈ found)
    (id : Nat) (x : Embedding) : p.Binds id x (p.binding id x) := by
  have slots := slots_of_compile compiled mem
  have sublist := p.root.captured_slots_sublist id x
  rw [slots] at sublist
  have distinct := sublist.nodup List.nodup_range
  have inside : ∀ slot ∈ (p.root.captured id x).map Prod.fst, slot < p.unbound.length := by
    intro slot used
    simpa [unbound] using List.mem_range.1 (sublist.subset used)
  constructor
  · simp [binding, Bindings.length_write, unbound]
  · intro slot node
    rw [binding, Bindings.get?_write distinct inside, p.get?_unbound]
    simp

theorem Binds.unique {id : Nat} {x : Embedding} {b b' : Bindings} (h : p.Binds id x b)
    (h' : p.Binds id x b') : b = b' := by
  apply Bindings.ext_get? (h.1.trans h'.1.symm)
  intro slot
  apply Option.ext
  intro node
  rw [h.2 slot node, h'.2 slot node]

theorem exists_embedding_of_matchAt (compiled : compile vocabulary source = .ok found)
    (mem : p ∈ found) {a : Arena} {textOf : Nat → Text} {id : Nat} {b : Bindings}
    (h : p.matchAt a textOf id = some b) :
    ∃ x, p.root.Fits a id x ∧ p.Binds id x b ∧
      ∀ predicate ∈ p.predicates, predicate.Satisfied textOf b := by
  obtain ⟨x, fits, rfl, holds⟩ := exists_fits_of_matchAt h
  exact ⟨x, fits, binds_binding compiled mem id x, holds⟩

theorem isSome_matchAt_of_embedding (compiled : compile vocabulary source = .ok found)
    (mem : p ∈ found) {a : Arena} {textOf : Nat → Text} {id : Nat} {x : Embedding}
    {b : Bindings} (fits : p.root.Fits a id x) (binds : p.Binds id x b)
    (holds : ∀ predicate ∈ p.predicates, predicate.Satisfied textOf b) :
    (p.matchAt a textOf id).isSome := by
  have same : b = p.binding id x := binds.unique (binds_binding compiled mem id x)
  rw [matchAt_eq_find?, List.find?_isSome]
  refine ⟨b, ?_, (p.predicatesHold_iff textOf b).2 holds⟩
  rw [same]
  exact List.mem_map_of_mem ((p.root.mem_embeddings_iff a id x).2 fits)

/-- A compiled pattern matches at a node exactly if some embedding over the
node satisfies all predicates; what a match binds is what such an embedding
captures, and every embedding that fits determines its bindings. -/
theorem matchAt_iff_embedding (compiled : compile vocabulary source = .ok found)
    (mem : p ∈ found) (a : Arena) (text : Text) (id : Nat) :
    ((∃ b, p.matchAt a (a.textOf text) id = some b) ↔
      ∃ x b, p.root.Fits a id x ∧ p.Binds id x b ∧
        ∀ predicate ∈ p.predicates, predicate.Satisfied (a.textOf text) b) ∧
    (∀ b, p.matchAt a (a.textOf text) id = some b →
      ∃ x, p.root.Fits a id x ∧ p.Binds id x b ∧
        ∀ predicate ∈ p.predicates, predicate.Satisfied (a.textOf text) b) ∧
    ∀ x, p.root.Fits a id x → ∃! b, p.Binds id x b := by
  have sound := fun b (h : p.matchAt a (a.textOf text) id = some b) =>
    exists_embedding_of_matchAt compiled mem h
  refine ⟨⟨?_, ?_⟩, sound, ?_⟩
  · rintro ⟨b, h⟩
    obtain ⟨x, fits⟩ := sound b h
    exact ⟨x, b, fits⟩
  · rintro ⟨x, b, fits, binds, holds⟩
    exact Option.isSome_iff_exists.1 (isSome_matchAt_of_embedding compiled mem fits binds holds)
  · intro x _
    exact ⟨p.binding id x, binds_binding compiled mem id x,
      fun b binds => binds.unique (binds_binding compiled mem id x)⟩

/-- Only the product is left for the operand: the predicate rejects the number,
so the optional element has to be skipped. -/
theorem matchAt_iff_embedding_optional :
    let p : Pattern :=
      { root := .node (.named "sum")
          [.node (.named "product") [] [] { optional := true, captures := [0] },
            .node .anyNamed [] [] { captures := [1] }]
          [] { captures := [2] }
        captureNames := ["p", "o", "s"]
        predicates := [⟨true, 1, .text ['1']⟩]
        start := 0 }
    let text := Text.ofString "1+2*3"
    let a := Arith.arena text
    compile Vocabulary.math
        (Text.ofString "(sum (product)? @p (_) @o (#not-eq? @o \"1\")) @s") = .ok [p] ∧
      ∃ x, p.root.Fits a 1 x ∧ p.Binds 1 x [none, some 4, some 1] ∧
        ∀ predicate ∈ p.predicates, predicate.Satisfied (a.textOf text) [none, some 4, some 1] := by
  intro p text a
  have compiled : compile Vocabulary.math
      (Text.ofString "(sum (product)? @p (_) @o (#not-eq? @o \"1\")) @s") = .ok [p] := rfl
  exact ⟨compiled, (matchAt_iff_embedding compiled List.mem_cons_self a text 1).2.1 _
    (by decide +kernel)⟩

end Pattern

end ParseTree.Query
