import ParseTree.Proofs.Arena.Descendants
import ParseTree.Proofs.Query.SearchOrder
import ParseTree.Query.Run

/-!
# What matches capture

Every node that a match captures lies at or below the node of the match, and
that node lies at or below the node from which the query was run.
-/

namespace ParseTree

namespace Query

mutual

theorem Element.mem_descendants_of_captured {a : Arena} : ∀ (e : Element) {id : Nat}
    {x : Embedding}, e.Fits a id x → ∀ {slot node : Nat},
    (slot, node) ∈ e.captured id x → node ∈ a.descendants id
  | .node test children absent mark, id, .node places, fits, slot, node, mem => by
      rw [Element.captured, List.mem_append] at mem
      rcases mem with inner | own
      · obtain ⟨child, taken, below⟩ :=
          mem_descendants_of_childrenCaptured children fits.2.2.2.2 inner
        exact a.mem_descendants_of_child (fits.2.2.2.1.subset taken) below
      · obtain ⟨_, -, same⟩ := List.mem_map.1 own
        cases same
        exact a.self_mem_descendants id
  | .choice branches mark, id, .choice index branch, fits, slot, node, mem => by
      rw [Element.captured, List.mem_append] at mem
      rcases mem with inner | own
      · exact mem_descendants_of_branchCaptured branches fits.2 inner
      · obtain ⟨_, -, same⟩ := List.mem_map.1 own
        cases same
        exact a.self_mem_descendants id
  | .node _ _ _ _, _, .choice _ _, fits, _, _, _ => by simp [Element.Fits] at fits
  | .choice _ _, _, .node _, fits, _, _, _ => by simp [Element.Fits] at fits

theorem mem_descendants_of_childrenCaptured {a : Arena} : ∀ (es : List Element)
    {places : List Placement}, ChildrenFit a es places → ∀ {slot node : Nat},
    (slot, node) ∈ childrenCaptured es places →
    ∃ child ∈ takenChildren places, node ∈ a.descendants child
  | [], _, _, _, _, mem => by simp [childrenCaptured] at mem
  | _ :: _, [], _, _, _, mem => by simp [childrenCaptured] at mem
  | e :: es, .over child inner :: places, fits, slot, node, mem => by
      rw [childrenCaptured, List.mem_append] at mem
      rcases mem with here | later
      · exact ⟨child, List.mem_cons_self, e.mem_descendants_of_captured fits.1 here⟩
      · obtain ⟨other, taken, below⟩ := mem_descendants_of_childrenCaptured es fits.2 later
        exact ⟨other, List.mem_cons_of_mem _ taken, below⟩
  | e :: es, .skipped :: places, fits, slot, node, mem => by
      rw [childrenCaptured] at mem
      exact mem_descendants_of_childrenCaptured es fits.2 mem

theorem mem_descendants_of_branchCaptured {a : Arena} : ∀ (es : List Element)
    {id index : Nat} {branch : Embedding}, BranchFits a id es index branch →
    ∀ {slot node : Nat}, (slot, node) ∈ branchCaptured id es index branch →
    node ∈ a.descendants id
  | [], _, _, _, _, _, _, mem => by simp [branchCaptured] at mem
  | e :: es, id, 0, branch, fits, slot, node, mem =>
      e.mem_descendants_of_captured fits mem
  | e :: es, id, index + 1, branch, fits, slot, node, mem =>
      mem_descendants_of_branchCaptured es fits mem

end

theorem Bindings.mem_of_get?_write {captured : List (Nat × Nat)} {b : Bindings}
    {slot node : Nat} (h : (write captured b).get? slot = some node) :
    (slot, node) ∈ captured ∨ b.get? slot = some node := by
  induction captured generalizing b with
  | nil => exact Or.inr h
  | cons entry captured ih =>
      obtain ⟨first, target⟩ := entry
      rcases ih h with later | here
      · exact Or.inl (List.mem_cons_of_mem _ later)
      · unfold get? at here ⊢
        rw [List.getElem?_set] at here
        split at here
        · rename_i same
          subst same
          split at here
          · cases here
            exact Or.inl List.mem_cons_self
          · cases here
        · exact Or.inr here

theorem Pattern.get?_unbound (p : Pattern) (slot : Nat) : p.unbound.get? slot = none := by
  unfold unbound Bindings.get?
  rw [List.getElem?_replicate]
  split <;> rfl

theorem Pattern.mem_descendants_of_matchAt {p : Pattern} {a : Arena} {textOf : Nat → Text}
    {id : Nat} {b : Bindings} (h : p.matchAt a textOf id = some b) {slot node : Nat}
    (bound : b.get? slot = some node) : node ∈ a.descendants id := by
  obtain ⟨x, fits, rfl, -⟩ := exists_fits_of_matchAt h
  rcases Bindings.mem_of_get?_write bound with captured | unbound
  · exact p.root.mem_descendants_of_captured fits captured
  · rw [p.get?_unbound] at unbound
    cases unbound

def atMost (limit : Option Nat) (xs : List α) : List α :=
  match limit with
  | none => xs
  | some n => xs.take n

theorem atMost_sublist (limit : Option Nat) (xs : List α) : (atMost limit xs).Sublist xs := by
  cases limit with
  | none => exact List.Sublist.refl xs
  | some n => exact List.take_sublist n xs

/-- The limit is counted down at each success, so only successes count. -/
theorem collect_eq_atMost (attempt : α → Option Match) (limit : Option Nat) (candidates : List α) :
    collect attempt limit candidates = atMost limit (candidates.filterMap attempt) := by
  induction candidates generalizing limit with
  | nil =>
      cases limit with
      | none => rfl
      | some n => cases n <;> rfl
  | cons candidate rest ih =>
      cases limit with
      | none => cases found : attempt candidate <;> simp [collect, found, ih, atMost]
      | some n =>
          cases n with
          | zero => rfl
          | succ n => cases found : attempt candidate <;> simp [collect, found, ih, atMost]

theorem exists_of_mem_collect {attempt : α → Option Match} {limit : Option Nat}
    {candidates : List α} {m : Match} (h : m ∈ collect attempt limit candidates) :
    ∃ candidate ∈ candidates, attempt candidate = some m := by
  rw [collect_eq_atMost] at h
  exact List.mem_filterMap.1 ((atMost_sublist limit _).subset h)

theorem mem_namedCaptures_iff {names : List String} {b : Bindings} {name : String} {node : Nat} :
    (name, node) ∈ namedCaptures names b ↔
      ∃ slot, names[slot]? = some name ∧ b.get? slot = some node := by
  rw [namedCaptures, List.mem_filterMap]
  constructor
  · rintro ⟨⟨name', bound⟩, mem, result⟩
    obtain ⟨id, rfl, same⟩ := Option.map_eq_some_iff.1 result
    cases same
    obtain ⟨slot, found⟩ := List.mem_iff_getElem?.1 mem
    obtain ⟨named, bound⟩ := List.getElem?_zip_eq_some.1 found
    exact ⟨slot, named, by rw [Bindings.get?, bound]; rfl⟩
  · rintro ⟨slot, named, bound⟩
    refine ⟨(name, some node), List.mem_iff_getElem?.2 ⟨slot, ?_⟩, rfl⟩
    exact List.getElem?_zip_eq_some.2 ⟨named, Option.join_eq_some_iff.1 bound⟩

theorem exists_matchAt_of_mem_matchesAt {q : Query} {a : Arena} {text : Text} {id : Nat}
    {settings : QuerySettings} {m : Match} (h : m ∈ q.matchesAt a text id settings) :
    ∃ p, q.patterns[m.pattern]? = some p ∧ ∃ b, m.node ∈ a.descendants id ∧
      p.matchAt a (a.textOf text) m.node = some b ∧
      m.captures = namedCaptures p.captureNames b := by
  rw [matchesAt_eq] at h
  obtain ⟨⟨node, index, p⟩, listed, success⟩ := exists_of_mem_collect h
  obtain ⟨node', covered, mem⟩ := List.mem_flatMap.1 listed
  obtain ⟨b, found, rfl⟩ := Option.map_eq_some_iff.1 success
  obtain ⟨index', inside, same⟩ := List.mem_mapIdx.1 mem
  cases same
  exact ⟨_, List.getElem?_eq_getElem inside, b, (List.mem_filter.1 covered).1, found, rfl⟩

theorem capture_lt_size {q : Query} {a : Arena} {text : Text} {id : Nat} (inside : id < a.size)
    {settings : QuerySettings} {m : Match} (h : m ∈ q.matchesAt a text id settings)
    {name : String} {node : Nat} (captured : (name, node) ∈ m.captures) : node < a.size := by
  obtain ⟨p, -, b, below, found, captures⟩ := exists_matchAt_of_mem_matchesAt h
  rw [captures] at captured
  obtain ⟨slot, -, bound⟩ := mem_namedCaptures_iff.1 captured
  exact Arena.lt_size_of_mem_descendants (Arena.lt_size_of_mem_descendants inside below)
    (Pattern.mem_descendants_of_matchAt found bound)

end Query

end ParseTree
