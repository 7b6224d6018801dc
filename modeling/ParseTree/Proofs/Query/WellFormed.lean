import Mathlib.Data.List.Forall2
import ParseTree.Proofs.Query.Fields
import ParseTree.Proofs.Query.Slots
import ParseTree.Proofs.Text.Scan

/-!
# Well-formed patterns

What holds of every compiled pattern: its captures are numbered in post-order and
have distinct names, its predicates mention captures that exist, every choice has a
branch, and all kinds and fields are in the vocabulary.  The patterns of one query
start at tokens further and further behind.
-/

namespace ParseTree.Query

namespace KindTest

/-- A missing node may be of a named or of an anonymous kind. -/
def isKnown (v : Vocabulary) : KindTest → Bool
  | .named kind => v.hasKind kind true
  | .anonymous kind => v.hasKind kind false
  | .missing (some kind) => v.hasKind kind true || v.hasKind kind false
  | .anyNamed | .any | .error | .missing none => true

end KindTest

def Mark.isKnown (v : Vocabulary) (mark : Mark) : Bool := mark.field.all v.hasField

def Element.isProper (v : Vocabulary) : Element → Bool
  | .node test _ absent mark => test.isKnown v && absent.all v.hasField && mark.isKnown v
  | .choice branches mark => !branches.isEmpty && mark.isKnown v

def Predicate.slots (p : Predicate) : List Nat :=
  p.capture ::
    match p.operand with
    | .text _ => []
    | .capture slot => [slot]

structure Pattern.WellFormed (v : Vocabulary) (p : Pattern) : Prop where
  named : ∀ name ∈ p.captureNames, name ≠ ""
  distinct : p.captureNames.Nodup
  /-- In post-order the elements take the slots one after the other, so each slot
  belongs to one element. -/
  numbered : p.root.slots = List.range p.captureNames.length
  resolved : ∀ predicate ∈ p.predicates, ∀ slot ∈ predicate.slots, slot < p.captureNames.length
  noField : p.root.mark.field = none
  required : p.root.mark.optional = false
  proper : ∀ e ∈ p.root.preorder, e.isProper v = true

/-! ## Elements -/

theorem Element.preorder_withMark (e : Element) (mark : Mark) :
    (e.withMark mark).preorder = e.withMark mark :: e.preorder.tail := by
  cases e <;> rfl

theorem Element.isProper_withMark {v : Vocabulary} {e : Element} {mark : Mark}
    (h : e.isProper v = true) (known : mark.isKnown v = true) :
    (e.withMark mark).isProper v = true := by
  cases e with
  | node test children absent old =>
      simp only [isProper, Bool.and_eq_true] at h
      simp [withMark, isProper, h, known]
  | choice branches old =>
      simp only [isProper, Bool.and_eq_true] at h
      simp [withMark, isProper, h, known]

namespace Read

theorem isKnown_of_fieldLead {ctx : Context} {s s' : State} {field : Option String}
    (h : fieldLead ctx s = .ok (field, s')) : field.all ctx.vocabulary.hasField = true := by
  obtain ⟨name, colon, rest, -, -, -, known, rfl, -⟩ | ⟨-, rfl, -⟩ := fieldLead_eq_ok_iff.1 h
  · exact known
  · rfl

theorem isKnown_of_missingKind {ctx : Context} {s s' : State} {kind : Option String}
    (h : missingKind ctx s = .ok (kind, s')) :
    (KindTest.missing kind).isKnown ctx.vocabulary = true := by
  unfold missingKind at h
  split at h
  · dsimp only at h
    split at h
    · rename_i known
      cases h
      simp [KindTest.isKnown, known]
    · simp at h
  · dsimp only at h
    split at h
    · rename_i known
      cases h
      simp [KindTest.isKnown, known]
    · simp at h
  · cases h
    rfl

theorem isKnown_of_kindTest {ctx : Context} {s s' : State} {test : KindTest}
    (h : kindTest ctx s = .ok (test, s')) : test.isKnown ctx.vocabulary = true := by
  unfold kindTest at h
  split at h
  · dsimp only at h
    split at h
    · cases h
      rfl
    split at h
    · cases h
      rfl
    split at h
    · obtain ⟨⟨kind, s₁⟩, read, h⟩ := bind_eq_ok_iff.1 h
      cases h
      exact isKnown_of_missingKind read
    split at h
    · rename_i known
      cases h
      exact known
    · simp at h
  · simp at h

theorem isKnown_of_absentField {ctx : Context} {s s' : State} {field : String}
    (h : absentField ctx s = .ok (field, s')) : ctx.vocabulary.hasField field = true := by
  unfold absentField at h
  split at h
  split at h
  · rename_i known
    cases h
    exact known
  · simp at h

theorem ReadsItems.absent_isKnown {ctx : Context} {s s' : State} {children : List Element}
    {absent : List String} (h : ReadsItems ctx s children absent s') :
    absent.all ctx.vocabulary.hasField = true := by
  match h with
  | .close _ _ => rfl
  | .absent _ _ field items =>
      rw [List.all_cons, isKnown_of_absentField field, items.absent_isKnown]
      rfl
  | .predicate _ _ items => exact items.absent_isKnown
  | .child _ _ items => exact items.absent_isKnown

mutual

theorem ReadsElement.proper {ctx : Context} : ∀ {s s' : State} {e : Element},
    ReadsElement ctx s e s' → ∀ x ∈ e.preorder, x.isProper ctx.vocabulary = true
  | _, _, _, .marked lead atom _ _ => by
      have inner := atom.proper
      rw [Element.preorder_eq] at inner
      obtain ⟨own, inside⟩ := List.forall_mem_cons.1 inner
      rw [Element.preorder_withMark]
      exact List.forall_mem_cons.2
        ⟨Element.isProper_withMark own (isKnown_of_fieldLead lead), inside⟩

theorem ReadsAtom.proper {ctx : Context} : ∀ {s s' : State} {e : Element},
    ReadsAtom ctx s e s' → ∀ x ∈ e.preorder, x.isProper ctx.vocabulary = true
  | _, _, _, .node _ _ _ _ kind items => by
      refine List.forall_mem_cons.2 ⟨?_, items.proper⟩
      simp [Element.isProper, isKnown_of_kindTest kind, items.absent_isKnown, Mark.isKnown]
  | _, _, _, .group _ _ _ group => group.proper
  | _, _, _, .choice _ _ branches nonempty => by
      refine List.forall_mem_cons.2 ⟨?_, branches.proper⟩
      simp [Element.isProper, nonempty, Mark.isKnown]
  | _, _, _, .anonymous _ _ known => by
      refine List.forall_mem_cons.2 ⟨?_, by simp [preorderAll]⟩
      simp [Element.isProper, KindTest.isKnown, known, Mark.isKnown]
  | _, _, _, .wildcard _ _ _ => List.forall_mem_cons.2 ⟨rfl, by simp [preorderAll]⟩

theorem ReadsItems.proper {ctx : Context} : ∀ {s s' : State} {children : List Element}
    {absent : List String}, ReadsItems ctx s children absent s' →
    ∀ x ∈ preorderAll children, x.isProper ctx.vocabulary = true
  | _, _, _, _, .close _ _ => by simp [preorderAll]
  | _, _, _, _, .absent _ _ _ items => items.proper
  | _, _, _, _, .predicate _ _ items => items.proper
  | _, _, _, _, .child _ element items =>
      List.forall_mem_append.2 ⟨element.proper, items.proper⟩

theorem ReadsGroup.proper {ctx : Context} : ∀ {s s' : State} {e : Element},
    ReadsGroup ctx s e s' → ∀ x ∈ e.preorder, x.isProper ctx.vocabulary = true
  | _, _, _, .predicate _ _ group => group.proper
  | _, _, _, .element _ element _ => element.proper

theorem ReadsBranches.proper {ctx : Context} : ∀ {s s' : State} {branches : List Element},
    ReadsBranches ctx s branches s' →
    ∀ x ∈ preorderAll branches, x.isProper ctx.vocabulary = true
  | _, _, _, .close _ _ => by simp [preorderAll]
  | _, _, _, .branch element branches =>
      List.forall_mem_append.2 ⟨element.proper, branches.proper⟩

end

/-! ## Predicates -/

theorem mapM_eq_ok_iff {f : α → Except ε β} {xs : List α} {ys : List β} :
    xs.mapM f = .ok ys ↔ List.Forall₂ (fun x y => f x = .ok y) xs ys := by
  induction xs generalizing ys with
  | nil => simp [pure, Except.pure, eq_comm]
  | cons x xs ih =>
      rw [List.mapM_cons, List.forall₂_cons_left_iff, bind_eq_ok_iff]
      refine exists_congr fun y => ?_
      constructor
      · rintro ⟨first, h⟩
        obtain ⟨others, behind, h⟩ := bind_eq_ok_iff.1 h
        cases h
        exact ⟨others, first, ih.1 behind, rfl⟩
      · rintro ⟨others, first, behind, rfl⟩
        exact ⟨first, bind_eq_ok_iff.2 ⟨others, ih.2 behind, rfl⟩⟩

theorem exists_of_mem_mapM {f : α → Except ε β} {xs : List α} {ys : List β}
    (h : xs.mapM f = .ok ys) {y : β} (mem : y ∈ ys) : ∃ x ∈ xs, f x = .ok y := by
  have pairs := mapM_eq_ok_iff.1 h
  clear h
  induction pairs with
  | nil => cases mem
  | cons first _ ih =>
      rcases List.mem_cons.1 mem with rfl | later
      · exact ⟨_, List.mem_cons_self, first⟩
      · obtain ⟨x, found, same⟩ := ih later
        exact ⟨x, List.mem_cons_of_mem _ found, same⟩

theorem resolve_eq_ok_iff {names : List String} {ref : CaptureRef} {slot : Nat} :
    resolve names ref = .ok slot ↔ names.idxOf? ref.name = some slot := by
  unfold resolve
  cases names.idxOf? ref.name <;> simp

theorem lt_of_resolve {names : List String} {ref : CaptureRef} {slot : Nat}
    (h : resolve names ref = .ok slot) : slot < names.length := by
  obtain ⟨inside, -⟩ := List.findIdx?_eq_some_iff_getElem.1 (resolve_eq_ok_iff.1 h)
  exact inside

theorem Condition.slots_lt_of_resolve {names : List String} {c : Condition} {p : Predicate}
    (h : c.resolve names = .ok p) : ∀ slot ∈ p.slots, slot < names.length := by
  obtain ⟨negated, capture, operand⟩ := c
  cases operand with
  | text t =>
      obtain ⟨_, first, h⟩ := bind_eq_ok_iff.1 h
      obtain ⟨slot, second, h⟩ := bind_eq_ok_iff.1 h
      cases first
      cases h
      exact List.forall_mem_singleton.2 (lt_of_resolve second)
  | capture ref =>
      obtain ⟨_, first, h⟩ := bind_eq_ok_iff.1 h
      obtain ⟨slot, second, h⟩ := bind_eq_ok_iff.1 h
      cases h
      cases other : Read.resolve names ref with
      | error e => simp [other, Functor.map, Except.map] at first
      | ok slot' =>
          simp only [other, Functor.map, Except.map, Except.ok.injEq] at first
          subst first
          exact List.forall_mem_cons.2
            ⟨lt_of_resolve second, List.forall_mem_singleton.2 (lt_of_resolve other)⟩

/-! ## Patterns -/

theorem wellFormed_of_pattern {ctx : Context} (unnamed : ctx.vocabulary.hasField "" = false)
    {tokens rest : List Token} {p : Pattern} (h : pattern ctx tokens = .ok (p, rest)) :
    p.WellFormed ctx.vocabulary := by
  obtain ⟨s, read, -, names, noField, required, resolved, -⟩ := readsElement_of_pattern h
  obtain ⟨piece, mentions, consumed, -⟩ := read.isElement unnamed
  have declares : p.captureNames = declared mentions := names.symm.trans consumed.names
  rw [names] at resolved
  constructor
  · intro name mem
    rw [declares] at mem
    obtain ⟨m, used, declares⟩ := List.mem_filterMap.1 mem
    have known := consumed.known m used
    cases m <;> simp [Mention.capture?] at declares
    simpa [Mention.isKnown, declares] using known
  · rw [← names]
    exact consumed.distinct List.nodup_nil
  · exact slots_of_pattern h
  · intro predicate mem
    obtain ⟨c, -, resolves⟩ := exists_of_mem_mapM resolved mem
    exact c.slots_lt_of_resolve resolves
  · exact noField
  · exact required
  · exact read.proper

theorem ReadsPatterns.starts_sublist {ctx : Context}
    (unnamed : ctx.vocabulary.hasField "" = false) {tokens : List Token} {found : List Pattern}
    (h : ReadsPatterns ctx tokens found) :
    (found.map Pattern.start).Sublist (tokens.map Lexeme.start) := by
  induction h with
  | nil => exact List.Sublist.slnil
  | @cons _ rest p _ read _ ih =>
      obtain ⟨s, -, -, -, -, -, -, start⟩ := readsElement_of_pattern read
      obtain ⟨piece, rfl, isPattern⟩ := isPattern_of_pattern unnamed read
      obtain ⟨first, piece, rfl, -⟩ := isPattern.starts
      have leads : p.start = first.start := start
      rw [List.map_cons, List.cons_append, List.map_cons, leads, List.map_append]
      exact (ih.trans (List.sublist_append_right _ _)).cons_cons _

end Read

theorem Token.pairwise_start_significant (source : Text) :
    ((Token.significant source).map Lexeme.start).Pairwise (· < ·) := by
  have scanned := (Lexeme.pairwise_start_scanFrom lexicalRule 0 0 source).2
  have kept : ∀ t u : Token, (t.join u).start = t.start := fun _ _ => rfl
  have joined : ((Token.tokenize source).map Lexeme.start).Sublist
      ((Lexeme.scan lexicalRule source).map Lexeme.start) := map_coalesce_sublist kept _
  apply List.Pairwise.sublist _ (List.pairwise_map.2 scanned)
  exact (List.filter_sublist.map _).trans joined

theorem wellFormed_of_compile {v : Vocabulary} (unnamed : v.hasField "" = false) {source : Text}
    {found : List Pattern} (h : compile v source = .ok found) {p : Pattern} (mem : p ∈ found) :
    p.WellFormed v := by
  obtain ⟨tokens, rest, read⟩ := exists_pattern_of_compile h mem
  exact Read.wellFormed_of_pattern unnamed read

theorem starts_sublist_of_compile {v : Vocabulary} (unnamed : v.hasField "" = false)
    {source : Text} {found : List Pattern} (h : compile v source = .ok found) :
    (found.map Pattern.start).Sublist ((Token.significant source).map Lexeme.start) :=
  ((compile_eq_ok_iff unnamed).1 h).1.starts_sublist unnamed

/-- Every compiled pattern is well formed, and the patterns of a query start at
tokens of it, each behind the one before.  This is so for any vocabulary in which every
field has a name. -/
theorem wellFormed_patterns_of_compile {v : Vocabulary} (unnamed : v.hasField "" = false)
    {source : Text} {found : List Pattern} (h : compile v source = .ok found) :
    (∀ p ∈ found, p.WellFormed v) ∧
      (found.map Pattern.start).Pairwise (· < ·) ∧
      ∀ p ∈ found, ∃ t ∈ Token.significant source, t.start = p.start := by
  have starts := starts_sublist_of_compile unnamed h
  refine ⟨fun p mem => wellFormed_of_compile unnamed h mem, ?_, ?_⟩
  · exact (Token.pairwise_start_significant source).sublist starts
  · intro p mem
    exact List.mem_map.1 (starts.subset (List.mem_map_of_mem mem))

/-- The captures of the choice are numbered behind those of its branches, and the
second pattern numbers its own from zero on. -/
theorem wellFormed_patterns_of_compile_two :
    let p : Pattern :=
      { root := .node (.named "sum")
          [.choice
            [.node (.named "number") [] [] { captures := [0] },
              .node (.missing (some ")")) [] ["left"] { captures := [1] }]
            { field := some "right", optional := true, captures := [2] }]
          [] { captures := [3] }
        captureNames := ["n", "m", "c", "s"]
        predicates := [⟨true, 0, .capture 2⟩]
        start := 0 }
    let q : Pattern :=
      { root := .node .any [] [] { captures := [0] }
        captureNames := ["n"]
        predicates := []
        start := 74 }
    let source := Text.ofString
      "(sum right: [(number) @n (MISSING \")\" !left) @m]? @c (#not-eq? @n @c)) @s\n_ @n"
    compile Vocabulary.math source = .ok [p, q] ∧
      p.WellFormed Vocabulary.math ∧ q.WellFormed Vocabulary.math ∧
      p.start < q.start := by
  intro p q source
  have compiled : compile Vocabulary.math source = .ok [p, q] := rfl
  obtain ⟨wellFormed, ordered, -⟩ := wellFormed_patterns_of_compile (by decide) compiled
  refine ⟨compiled, wellFormed p (by simp), wellFormed q (by simp), ?_⟩
  exact List.rel_of_pairwise_cons ordered (by simp)

end ParseTree.Query
