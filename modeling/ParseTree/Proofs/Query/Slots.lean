import ParseTree.Proofs.Query.Embedding
import ParseTree.Proofs.Query.Reading

/-!
# Capture slots

A compiled pattern numbers its captures from zero on, in post-order of its
elements.  So every slot belongs to one element, and what an embedding captures
holds each slot at most once.
-/

namespace ParseTree.Query

mutual

def Element.slots : Element → List Nat
  | .node _ children _ mark => slotsAll children ++ mark.captures
  | .choice branches mark => slotsAll branches ++ mark.captures

def slotsAll : List Element → List Nat
  | [] => []
  | e :: es => e.slots ++ slotsAll es

end

theorem Element.slots_withMark (e : Element) (mark : Mark) (captures : List Nat)
    (h : mark.captures = e.mark.captures ++ captures) :
    (e.withMark mark).slots = e.slots ++ captures := by
  cases e <;> simp [Element.withMark, Element.slots, Element.mark, h] at *

mutual

theorem Element.captured_slots_sublist : ∀ (e : Element) (id : Nat) (x : Embedding),
    ((e.captured id x).map Prod.fst).Sublist e.slots
  | .node test children absent mark, id, .node places => by
      simp only [Element.captured, Element.slots, List.map_append, List.map_map]
      have inner := childrenCaptured_slots_sublist children places
      exact inner.append (by simp [Function.comp_def])
  | .choice branches mark, id, .choice index branch => by
      simp only [Element.captured, Element.slots, List.map_append, List.map_map]
      have inner := branchCaptured_slots_sublist branches id index branch
      exact inner.append (by simp [Function.comp_def])
  | .node _ _ _ _, _, .choice _ _ => by simp [Element.captured]
  | .choice _ _, _, .node _ => by simp [Element.captured]

theorem childrenCaptured_slots_sublist : ∀ (es : List Element) (places : List Placement),
    ((childrenCaptured es places).map Prod.fst).Sublist (slotsAll es)
  | [], _ => by simp [childrenCaptured]
  | _ :: _, [] => by simp [childrenCaptured]
  | e :: es, .over child inner :: places => by
      rw [childrenCaptured, slotsAll, List.map_append]
      exact (e.captured_slots_sublist child inner).append
        (childrenCaptured_slots_sublist es places)
  | e :: es, .skipped :: places => by
      rw [childrenCaptured, slotsAll]
      exact (childrenCaptured_slots_sublist es places).trans (List.sublist_append_right _ _)

theorem branchCaptured_slots_sublist : ∀ (es : List Element) (id index : Nat)
    (branch : Embedding),
    ((branchCaptured id es index branch).map Prod.fst).Sublist (slotsAll es)
  | [], _, _, _ => by simp [branchCaptured]
  | e :: es, id, 0, branch => by
      rw [branchCaptured, slotsAll]
      exact (e.captured_slots_sublist id branch).trans (List.sublist_append_left _ _)
  | e :: es, id, index + 1, branch => by
      rw [branchCaptured, slotsAll]
      exact (branchCaptured_slots_sublist es id index branch).trans
        (List.sublist_append_right _ _)

end

namespace Read

def Numbers (s : State) (slots : List Nat) (s' : State) : Prop :=
  ∃ names, s'.names = s.names ++ names ∧
    slots = List.range' s.names.length names.length

theorem Numbers.none {s s' : State} (h : s'.names = s.names) : Numbers s [] s' :=
  ⟨[], by simp [h], rfl⟩

theorem Numbers.append {s₁ s₂ s₃ : State} {first second : List Nat}
    (h₁ : Numbers s₁ first s₂) (h₂ : Numbers s₂ second s₃) :
    Numbers s₁ (first ++ second) s₃ := by
  obtain ⟨names₁, added₁, rfl⟩ := h₁
  obtain ⟨names₂, added₂, rfl⟩ := h₂
  refine ⟨names₁ ++ names₂, by rw [added₂, added₁, List.append_assoc], ?_⟩
  rw [added₁, List.length_append, List.length_append, List.range'_append_1]

theorem Numbers.congr {s₁ s₂ t₁ t₂ : State} {slots : List Nat} (h : Numbers s₁ slots s₂)
    (before : t₁.names = s₁.names) (after : t₂.names = s₂.names) : Numbers t₁ slots t₂ := by
  unfold Numbers at *
  rwa [before, after]

theorem names_fieldLead {ctx : Context} {s s' : State} {field : Option String}
    (h : fieldLead ctx s = .ok (field, s')) : s'.names = s.names := by
  unfold fieldLead at h
  split at h
  · dsimp only at h
    split at h
    · cases h; rfl
    · simp at h
  · cases h; rfl

theorem names_questionMark {s s' : State} {optional : Bool}
    (h : questionMark s = .ok (optional, s')) : s'.names = s.names := by
  unfold questionMark at h
  split at h
  · cases h; rfl
  · simp at h
  · simp at h
  · cases h; rfl

theorem names_missingKind {ctx : Context} {s s' : State} {kind : Option String}
    (h : missingKind ctx s = .ok (kind, s')) : s'.names = s.names := by
  unfold missingKind at h
  split at h
  · dsimp only at h
    split at h
    · cases h; rfl
    · simp at h
  · dsimp only at h
    split at h
    · cases h; rfl
    · simp at h
  · cases h; rfl

theorem names_kindTest {ctx : Context} {s s' : State} {test : KindTest}
    (h : kindTest ctx s = .ok (test, s')) : s'.names = s.names := by
  unfold kindTest at h
  split at h
  · dsimp only at h
    split at h
    · cases h; rfl
    split at h
    · cases h; rfl
    split at h
    · obtain ⟨⟨kind, s₁⟩, read, h⟩ := bind_eq_ok_iff.1 h
      cases h
      rw [names_missingKind read]
    split at h
    · cases h; rfl
    · simp at h
  · simp at h

theorem names_absentField {ctx : Context} {s s' : State} {field : String}
    (h : absentField ctx s = .ok (field, s')) : s'.names = s.names := by
  unfold absentField at h
  split at h
  split at h
  · rename_i name s₁ next known
    cases h
    split at next <;> cases next <;> rfl
  · simp at h

theorem names_predicate {s s' : State} (h : predicate s = .ok s') : s'.names = s.names := by
  unfold predicate at h
  split at h
  · split at h
    · obtain ⟨⟨arguments, rest⟩, read, h⟩ := bind_eq_ok_iff.1 h
      split at h
      · cases h; rfl
      · simp at h
    · simp at h
  · cases h; rfl

theorem EndsGroup.names {s s' : State} (h : EndsGroup s s') : s'.names = s.names := by
  induction h with
  | close => rfl
  | predicate _ read _ ih => rw [ih, names_predicate read]

theorem captureMarks_numbers {names names' : List String} {tokens rest : List Token}
    {slots : List Nat} (h : captureMarks names tokens = .ok (slots, names', rest)) :
    ∃ added, names' = names ++ added ∧ slots = List.range' names.length added.length := by
  induction tokens generalizing names slots with
  | nil =>
      cases h
      exact ⟨[], by simp⟩
  | cons token tokens ih =>
      unfold captureMarks at h
      split at h
      · rename_i start text rest' same
        cases same
        dsimp only at h
        obtain ⟨-, h⟩ := check_eq_ok_iff.1 h
        obtain ⟨-, h⟩ := check_eq_ok_iff.1 h
        obtain ⟨⟨later, names'', rest'⟩, read, h⟩ := bind_eq_ok_iff.1 h
        cases h
        obtain ⟨added, rfl, rfl⟩ := ih read
        exact ⟨String.ofList (text.drop 1) :: added, by simp, by simp [List.range'_succ]⟩
      · cases h
        exact ⟨[], by simp⟩

mutual

theorem ReadsElement.numbers {ctx : Context} : ∀ {s s' : State} {e : Element},
    ReadsElement ctx s e s' → Numbers s e.slots s'
  | _, _, _, .marked lead atom question captures => by
      have inner := atom.numbers
      obtain ⟨added, rfl, numbers⟩ := captureMarks_numbers captures
      rw [Element.slots_withMark _ _ _ rfl]
      refine (inner.congr (names_fieldLead lead).symm rfl).append
        ⟨added, ?_, ?_⟩
      · rw [names_questionMark question]
      · rw [← names_questionMark question, numbers]

theorem ReadsAtom.numbers {ctx : Context} : ∀ {s s' : State} {e : Element},
    ReadsAtom ctx s e s' → Numbers s e.slots s'
  | _, _, _, .node _ _ _ _ kind items => by
      simp only [Element.slots, List.append_nil]
      exact items.numbers.congr (names_kindTest kind).symm rfl
  | _, _, _, .group _ _ _ group => group.numbers
  | _, _, _, .choice _ _ branches _ => by
      simp only [Element.slots, List.append_nil]
      exact branches.numbers
  | _, _, _, .anonymous _ _ _ => .none rfl
  | _, _, _, .wildcard _ _ _ => .none rfl

theorem ReadsItems.numbers {ctx : Context} : ∀ {s s' : State} {children : List Element}
    {absent : List String}, ReadsItems ctx s children absent s' →
    Numbers s (slotsAll children) s'
  | _, _, _, _, .close _ _ => .none rfl
  | _, _, _, _, .absent _ _ field items =>
      items.numbers.congr (names_absentField field).symm rfl
  | _, _, _, _, .predicate _ read items =>
      items.numbers.congr (names_predicate read).symm rfl
  | _, _, _, _, .child _ element items => element.numbers.append items.numbers

theorem ReadsGroup.numbers {ctx : Context} : ∀ {s s' : State} {e : Element},
    ReadsGroup ctx s e s' → Numbers s e.slots s'
  | _, _, _, .predicate _ read group =>
      group.numbers.congr (names_predicate read).symm rfl
  | _, _, _, .element _ element ends => element.numbers.congr rfl ends.names

theorem ReadsBranches.numbers {ctx : Context} : ∀ {s s' : State} {branches : List Element},
    ReadsBranches ctx s branches s' → Numbers s (slotsAll branches) s'
  | _, _, _, .close _ _ => .none rfl
  | _, _, _, .branch element branches => element.numbers.append branches.numbers

end

theorem slots_of_pattern {ctx : Context} {tokens rest : List Token} {p : Pattern}
    (h : pattern ctx tokens = .ok (p, rest)) :
    p.root.slots = List.range p.captureNames.length := by
  obtain ⟨s, element, -, names, -⟩ := readsElement_of_pattern h
  obtain ⟨added, all, numbers⟩ := element.numbers
  rw [numbers, ← names, all]
  simp [List.range_eq_range']

end Read

theorem slots_of_compile {vocabulary : Vocabulary} {source : Text} {found : List Pattern}
    (h : compile vocabulary source = .ok found) {p : Pattern} (mem : p ∈ found) :
    p.root.slots = List.range p.captureNames.length := by
  obtain ⟨tokens, rest, read⟩ := exists_pattern_of_compile h mem
  exact Read.slots_of_pattern read

end ParseTree.Query
