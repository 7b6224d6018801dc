import Mathlib.Data.List.Nodup
import ParseTree.Proofs.Query.Printing
import ParseTree.Proofs.Query.Replay

/-!
# Printed patterns compile to themselves

The words of a pattern lead the reader through the rules that give the pattern back.
The reader numbers captures as it meets them, which is the numbering of a well-formed
pattern: in front of an element that takes `n` slots from `k` on, the first `k` names
are declared, and behind it the first `k + n`.  Where an element ends depends on what
follows, so of several elements the last is read first.
-/

namespace ParseTree.Query

/-! ## Tokens that spell words -/

def Spelled : List Word → List Token → List Token → Prop
  | [], tokens, rest => tokens = rest
  | w :: words, tokens, rest =>
      ∃ t more, tokens = t :: more ∧ Spells t w ∧ Spelled words more rest

theorem spelled_append {first second : List Word} {tokens rest : List Token} :
    Spelled (first ++ second) tokens rest ↔
      ∃ between, Spelled first tokens between ∧ Spelled second between rest := by
  induction first generalizing tokens with
  | nil => simp [Spelled]
  | cons w words ih =>
      simp only [List.cons_append, Spelled, ih]
      constructor
      · rintro ⟨t, more, here, spells, between, before, behind⟩
        exact ⟨between, ⟨t, more, here, spells, before⟩, behind⟩
      · rintro ⟨between, ⟨t, more, here, spells, before⟩, behind⟩
        exact ⟨t, more, here, spells, between, before, behind⟩

theorem spelled_of_forall₂ {tokens : List Token} {words : List Word}
    (h : List.Forall₂ Spells tokens words) : Spelled words tokens [] := by
  induction h with
  | nil => rfl
  | cons spells _ ih => exact ⟨_, _, rfl, spells, ih⟩

namespace Spells

variable {t : Token} {n : String} {text : Text}

theorem name_eq (h : Spells t (.name n)) : t.name = n := by
  have written : t.text = n.toList := h.2
  rw [Token.name, written, String.ofList_toList]

theorem nameAfterSign_capture (h : Spells t (.capture n)) : t.nameAfterSign = n := by
  have written : t.text = '@' :: n.toList := h.2
  rw [Token.nameAfterSign, written, List.drop_one, List.tail_cons, String.ofList_toList]

theorem nameAfterSign_predicate (h : Spells t (.predicate n)) : t.nameAfterSign = n := by
  have written : t.text = '#' :: n.toList := h.2
  rw [Token.nameAfterSign, written, List.drop_one, List.tail_cons, String.ofList_toList]

theorem unquote_eq (h : Spells t (.string text)) : unquote t.text = text := by
  obtain ⟨body, quotes, written⟩ := h.2
  rw [written, quotes.unquote_eq]

end Spells

namespace Read

section Parts

variable {ctx : Context} {s : State} {rest : List Token}

/-! ## Around an atom -/

theorem fieldLead_of_spelled {mark : Mark} (known : mark.isKnown ctx.vocabulary = true)
    (spelled : Spelled mark.lead s.rest rest) (noField : ¬ LeadsField rest) :
    fieldLead ctx s = .ok (mark.field, { s with rest }) := by
  apply fieldLead_eq_ok_iff.2
  unfold Mark.lead at spelled
  unfold Mark.isKnown at known
  cases field : mark.field with
  | none =>
      rw [field] at spelled
      obtain rfl : s.rest = rest := spelled
      exact .inr ⟨noField, rfl, rfl⟩
  | some name =>
      rw [field] at spelled known
      obtain ⟨t, _, here, isName, u, _, rfl, isColon, rfl⟩ := spelled
      refine .inl ⟨t, u, _, here, isName.1, isColon.1, ?_, ?_, rfl⟩
      · rw [isName.name_eq]
        exact known
      · rw [isName.name_eq]

section Captures

variable {names : List String} (named : ∀ name ∈ names, name ≠ "") (distinct : names.Nodup)

include named distinct

theorem captureMarks_of_spelled {k n : Nat} {tokens : List Token} (fits : k + n ≤ names.length)
    (spelled : Spelled ((List.range' k n).map fun slot => .capture (names.getD slot "")) tokens
      rest) (ends : Ends rest) :
    captureMarks (names.take k) tokens = .ok (List.range' k n, names.take (k + n), rest) := by
  induction n generalizing k tokens with
  | zero =>
      obtain rfl : tokens = rest := spelled
      unfold captureMarks
      split
      · exact absurd rfl (ends _ rfl).2.2.2.2
      · rfl
  | succ n ih =>
      have inside : k < names.length := by omega
      rw [List.range'_succ, List.map_cons] at spelled
      obtain ⟨⟨_, start, text⟩, more, rfl, spells, behind⟩ := spelled
      obtain rfl : _ = TokenKind.capture := spells.1
      have name : String.ofList (text.drop 1) = names[k] := by
        have same := spells.nameAfterSign_capture
        rwa [List.getD_eq_getElem?_getD, List.getElem?_eq_getElem inside] at same
      have fresh : names[k] ∉ names.take k := by
        have split : (names.take k ++ names.drop k).Nodup := by
          rwa [List.take_append_drop]
        rw [List.drop_eq_getElem_cons inside] at split
        intro mem
        exact (List.nodup_append.1 split).2.2 _ mem _ List.mem_cons_self rfl
      have later := ih (k := k + 1) (by omega) behind
      rw [← List.take_append_getElem inside] at later
      rw [captureMarks, name]
      refine check_eq_ok_iff.2 ⟨named _ (List.getElem_mem inside), check_eq_ok_iff.2 ⟨?_, ?_⟩⟩
      · rwa [List.contains_iff_mem]
      · refine bind_eq_ok_iff.2 ⟨_, later, ?_⟩
        rw [List.length_take_of_le (Nat.le_of_lt inside), List.range'_succ, Nat.add_right_comm]
        rfl

theorem marks_of_spelled {mark : Mark} {k n : Nat} (numbered : mark.captures = List.range' k n)
    (fits : k + n ≤ names.length) (declares : s.names = names.take k)
    (spelled : Spelled (mark.trail names) s.rest rest) (ends : Ends rest) :
    ∃ between, questionMark s = .ok (mark.optional, { s with rest := between }) ∧
      captureMarks s.names between = .ok (mark.captures, names.take (k + n), rest) ∧
      ∀ t ∈ s.rest.head?, t.kind ≠ .colon := by
  obtain ⟨between, question, captures⟩ := spelled_append.1 spelled
  rw [numbered] at captures
  have marks := captureMarks_of_spelled named distinct fits captures ends
  rw [← declares, ← numbered] at marks
  refine ⟨between, ?_⟩
  cases optional : mark.optional with
  | false =>
      rw [optional] at question
      obtain rfl : s.rest = between := question
      obtain ⟨taken, split, all, -⟩ := captureMarks_eq_ok marks
      have behind := ends.captures fun t mem => (all t mem).1
      rw [← split] at behind
      have none := questionMark_eq_ok_iff.2
        (.inr ⟨fun t mem => (behind t mem).2, rfl, rfl⟩)
      exact ⟨none, marks, fun t mem => (behind t mem).1⟩
  | true =>
      rw [optional] at question
      obtain ⟨t, _, here, isQuestion, rfl⟩ := question
      refine ⟨questionMark_eq_ok_iff.2 (.inl ⟨t, _, here, isQuestion.1, rfl, rfl⟩), marks, ?_⟩
      rw [here]
      rintro u mem
      obtain rfl := Option.some.inj mem
      simp [isQuestion.1, Word.kind]

theorem readsElement_around (unnamed : ctx.vocabulary.hasField "" = false) (body : Element)
    (plain : body.mark = {}) {mark : Mark} (known : mark.isKnown ctx.vocabulary = true)
    {k n : Nat} (numbered : mark.captures = List.range' k n) (fits : k + n ≤ names.length)
    {atom : List Word} (spelled : Spelled (mark.around names atom) s.rest rest) (ends : Ends rest)
    (reads : ∀ ⦃tokens between : List Token⦄, Spelled atom tokens between →
      ReadsAtom ctx { s with rest := tokens } body
        { s with rest := between, names := names.take k }) :
    ReadsElement ctx s (body.withMark mark) { s with rest, names := names.take (k + n) } := by
  obtain ⟨tokens, first, others⟩ := spelled_append.1 spelled
  obtain ⟨between, second, third⟩ := spelled_append.1 others
  have inside := reads second
  obtain ⟨behind, question, captures, noColon⟩ :=
    @marks_of_spelled { s with rest := between, names := names.take k } rest names named distinct
      mark k n numbered fits rfl third ends
  have noField : ¬ LeadsField tokens := by
    obtain ⟨ts, ms, consumed, isAtom⟩ := inside.isAtom unnamed
    have split : tokens = ts ++ between := consumed.rest
    exact split ▸ isAtom.not_leadsField noColon
  have read := ReadsElement.marked (fieldLead_of_spelled known first noField) inside question captures
  rwa [plain] at read

end Captures

/-! ## Atoms -/

theorem exists_head_of_kindTest {s' : State} {test : KindTest}
    (h : kindTest ctx s = .ok (test, s')) :
    ∃ t more, s.rest = t :: more ∧ t.kind = .identifier := by
  obtain ⟨ts, ms, isKind, consumed⟩ := isKind_of_kindTest h
  obtain ⟨t, more, rfl, isName⟩ := isKind.exists_head
  exact ⟨t, _, consumed.rest, isName⟩

theorem readsAtom_of_kindTest {s₁ s₂ : State} {opening : Token} {test : KindTest}
    {children : List Element} {absent : List String} (here : s.rest = opening :: rest)
    (opens : opening.kind = .parenOpen) (kind : kindTest ctx { s with rest } = .ok (test, s₁))
    (items : ReadsItems ctx s₁ children absent s₂) :
    ReadsAtom ctx s (.node test children absent {}) s₂ := by
  obtain ⟨⟨_, start, text⟩, more, behind, rfl⟩ := exists_head_of_kindTest kind
  obtain rfl : rest = _ := behind
  refine .node here opens rfl ?_ kind items
  refine Bool.eq_false_iff.2 fun ahead => ?_
  obtain ⟨_, head, _, same, -, isHead⟩ := atPredicate_iff.1 ahead
  rw [here] at same
  cases same
  cases isHead

theorem ReadsItems.head_of_nil {s' : State} {absent : List String}
    (h : ReadsItems ctx s [] absent s') :
    ∀ t ∈ s.rest.head?, t.kind ≠ .identifier ∧ t.kind ≠ .string := by
  have signs : ∀ {u : Token} {more : List Token}, s.rest = u :: more →
      (u.kind = .parenClose ∨ u.kind = .bang ∨ u.kind = .parenOpen) →
      ∀ t ∈ s.rest.head?, t.kind ≠ .identifier ∧ t.kind ≠ .string := by
    intro u more here kind t mem
    rw [here] at mem
    obtain rfl := Option.some.inj mem
    rcases kind with kind | kind | kind <;> simp [kind]
  cases h with
  | close here closes => exact signs here (.inl closes)
  | absent here bang => exact signs here (.inr (.inl bang))
  | predicate ahead =>
      obtain ⟨opening, head, more, here, opens, -⟩ := atPredicate_iff.1 ahead
      exact signs here (.inr (.inr opens))

theorem readsItems_absentWords {absent : List String}
    (known : absent.all ctx.vocabulary.hasField = true)
    (spelled : Spelled (absentWords absent ++ [.parenClose]) s.rest rest) :
    ReadsItems ctx s [] absent { s with rest } := by
  induction absent generalizing s with
  | nil =>
      obtain ⟨t, _, here, closes, rfl⟩ := spelled
      exact .close here closes.1
  | cons field absent ih =>
      obtain ⟨t, _, here, bang, u, more, rfl, isName, others⟩ := spelled
      obtain ⟨first, later⟩ := Bool.and_eq_true_iff.1 known
      rw [← isName.name_eq] at first
      have read := @absentField_eq_ok ctx { s with rest := u :: more } u more rfl isName.1 first
      rw [isName.name_eq] at read
      exact .absent here bang.1 read (@ih { s with rest := more } later others)

theorem kindTest_of_name {t : Token} {n : String} (here : s.rest = t :: rest)
    (spells : Spells t (.name n)) :
    kindTest ctx s =
      if n = "_" then .ok (.anyNamed, { s with rest })
      else if n = "ERROR" then .ok (.error, { s with rest })
      else if n = "MISSING" then do
        let (kind, s) ← missingKind ctx { s with rest }
        .ok (.missing kind, s)
      else if ctx.vocabulary.hasKind n true then .ok (.named n, { s with rest })
      else refuse t.start (.unknownKind n) := by
  obtain ⟨_, start, text⟩ := t
  obtain rfl : _ = TokenKind.identifier := spells.1
  have name : String.ofList text = n := spells.name_eq
  subst name
  simp only [kindTest, here]

theorem missingKind_of_spelled {kind : String}
    (known : (KindTest.missing (some kind)).isKnown ctx.vocabulary = true)
    (spelled : Spelled [if ctx.vocabulary.hasKind kind true then .name kind
      else .string kind.toList] s.rest rest) :
    missingKind ctx s = .ok (some kind, { s with rest }) := by
  obtain ⟨⟨_, start, text⟩, _, here, spells, rfl⟩ := spelled
  split at spells
  · rename_i isName
    obtain rfl : _ = TokenKind.identifier := spells.1
    have name : String.ofList text = kind := spells.name_eq
    simp [missingKind, here, name, isName]
  · rename_i noName
    obtain rfl : _ = TokenKind.string := spells.1
    have content : unquote text = kind.toList := spells.unquote_eq
    simp only [KindTest.isKnown, noName, Bool.false_or] at known
    simp [missingKind, here, content, known]

theorem kindTest_of_spelled (writable : ctx.vocabulary.Writable) {test : KindTest}
    (known : test.isKnown ctx.vocabulary = true)
    (inParens : test ≠ .any ∧ ∀ kind, test ≠ .anonymous kind) (noError : test ≠ .named "ERROR")
    (spelled : Spelled (test.words ctx.vocabulary) s.rest rest)
    (bare : test = .missing none →
      ∀ t ∈ rest.head?, t.kind ≠ .identifier ∧ t.kind ≠ .string) :
    kindTest ctx s = .ok (test, { s with rest }) := by
  cases test with
  | any => exact absurd rfl inParens.1
  | anonymous kind => exact absurd rfl (inParens.2 kind)
  | named kind =>
      obtain ⟨t, _, here, spells, rfl⟩ := spelled
      have listed : kind ∈ ctx.vocabulary.named := List.contains_iff_mem.1 known
      have noWildcard : kind ≠ "_" := fun same => writable.unreserved.1 (same ▸ listed)
      have noMissing : kind ≠ "MISSING" := fun same => writable.unreserved.2 (same ▸ listed)
      have noError : kind ≠ "ERROR" := fun same => noError (same ▸ rfl)
      rw [kindTest_of_name here spells, if_neg noWildcard, if_neg noError, if_neg noMissing]
      exact if_pos known
  | anyNamed | error =>
      obtain ⟨t, _, here, spells, rfl⟩ := spelled
      rw [kindTest_of_name here spells]
      rfl
  | missing kind =>
      cases kind with
      | none =>
          obtain ⟨t, more, here, spells, rfl⟩ := spelled
          have read := @missingKind_of_bare ctx { s with rest := more } (bare rfl)
          rw [kindTest_of_name here spells]
          exact bind_eq_ok_iff.2 ⟨_, read, rfl⟩
      | some kind =>
          obtain ⟨t, more, here, spells, others⟩ := spelled
          have read := @missingKind_of_spelled ctx { s with rest := more } rest kind known others
          rw [kindTest_of_name here spells]
          exact bind_eq_ok_iff.2 ⟨_, read, rfl⟩

theorem readsAtom_of_spelled (writable : ctx.vocabulary.Writable) {test : KindTest}
    {children : List Element} {absent : List String} {mark : Mark} {items : List Word}
    {names : List String} (known : test.isKnown ctx.vocabulary = true)
    (printable : (Element.node test children absent mark).isPrintable = true)
    (spelled : Spelled (test.atomWords ctx.vocabulary items) s.rest rest)
    (unchanged : children = [] → names = s.names)
    (inside : ∀ ⦃tokens : List Token⦄, Spelled (items ++ [.parenClose]) tokens rest →
      ReadsItems ctx { s with rest := tokens } children absent { s with rest, names }) :
    ReadsAtom ctx s (.node test children absent {}) { s with rest, names } := by
  by_cases inParens : test ≠ .any ∧ ∀ kind, test ≠ .anonymous kind
  · have words : test.atomWords ctx.vocabulary items =
        .parenOpen :: (test.words ctx.vocabulary ++ (items ++ [.parenClose])) := by
      cases test with
      | any => exact absurd rfl inParens.1
      | anonymous kind => exact absurd rfl (inParens.2 kind)
      | _ => rfl
    rw [words] at spelled
    obtain ⟨opening, more, here, opens, others⟩ := spelled
    obtain ⟨between, kind, behind⟩ := spelled_append.1 others
    have items := inside behind
    have noError : test ≠ .named "ERROR" := by
      rintro rfl
      simp [Element.isPrintable] at printable
    refine readsAtom_of_kindTest here opens.1
      (@kindTest_of_spelled ctx { s with rest := more } between writable test known inParens
        noError kind ?_) items
    rintro rfl
    obtain rfl : children = [] := by simpa [Element.isPrintable] using printable
    exact items.head_of_nil
  · cases test with
    | any =>
        obtain ⟨rfl, rfl⟩ : children = [] ∧ absent = [] := by
          simpa [Element.isPrintable] using printable
        obtain ⟨t, _, here, spells, rfl⟩ := spelled
        rw [unchanged rfl]
        exact .wildcard here spells.1 spells.name_eq
    | anonymous kind =>
        obtain ⟨rfl, rfl⟩ : children = [] ∧ absent = [] := by
          simpa [Element.isPrintable] using printable
        obtain ⟨t, _, here, spells, rfl⟩ := spelled
        have content : String.ofList (unquote t.text) = kind := by
          rw [spells.unquote_eq, String.ofList_toList]
        rw [unchanged rfl, ← content]
        exact .anonymous here spells.1 (content ▸ known)
    | _ => simp at inParens

end Parts

/-! ## Elements -/

theorem exists_split_of_range' {first second : List Nat} {k n : Nat}
    (h : first ++ second = List.range' k n) :
    ∃ m l, n = m + l ∧ first = List.range' k m ∧ second = List.range' (k + m) l := by
  obtain ⟨m, within, rfl, rfl⟩ := List.range'_eq_append_iff.1 h.symm
  exact ⟨m, n - m, by omega, rfl, by rw [Nat.mul_one]⟩

mutual

theorem readsElement_of_spelled {ctx : Context} (writable : ctx.vocabulary.Writable)
    {p : Pattern} (printable : p.Printable ctx.vocabulary) : ∀ (e : Element),
    (∀ x ∈ e.preorder, x.isProper ctx.vocabulary = true ∧ x.isPrintable = true) →
    ∀ ⦃k n : Nat⦄ ⦃s : State⦄ ⦃rest : List Token⦄, e.slots = List.range' k n →
    k + n ≤ p.captureNames.length → s.names = p.captureNames.take k →
    Spelled (e.words ctx.vocabulary p.captureNames) s.rest rest → Ends rest →
    ReadsElement ctx s e { s with rest, names := p.captureNames.take (k + n) }
  | .node test children absent mark, sound => by
      intro k n s rest numbered fits declares spelled ends
      obtain ⟨⟨own, shown⟩, inside⟩ := List.forall_mem_cons.1 sound
      simp only [Element.isProper, Bool.and_eq_true] at own
      obtain ⟨⟨kind, fields⟩, known⟩ := own
      obtain ⟨m, l, rfl, inner, outer⟩ := exists_split_of_range' numbered
      rw [← Nat.add_assoc] at fits ⊢
      rw [Element.words] at spelled
      refine readsElement_around printable.named printable.distinct writable.unnamed
        (.node test children absent {}) rfl known outer fits spelled ends ?_
      intro tokens between atom
      refine readsAtom_of_spelled writable kind shown atom ?_ ?_
      · rintro rfl
        obtain rfl : m = 0 := by simpa [slotsAll] using inner.symm
        exact declares.symm
      · intro tokens items
        rw [List.append_assoc] at items
        obtain ⟨behind, elements, others⟩ := spelled_append.1 items
        have last := @readsItems_absentWords ctx
          { s with rest := behind, names := p.captureNames.take (k + m) } between absent fields others
        refine readsAll_of_spelled writable printable children inside
          (P := fun s₁ es => ReadsItems ctx s₁ es absent
            { s with rest := between, names := p.captureNames.take (k + m) }) ?_ ?_ inner
          (by omega) declares elements last
        · intro s₁ s₂ e es element items
          exact .child (element.not_atPredicate writable.unnamed) element items
        · exact fun s es items => items.ends writable.unnamed
  | .choice branches mark, sound => by
      intro k n s rest numbered fits declares spelled ends
      obtain ⟨⟨own, -⟩, inside⟩ := List.forall_mem_cons.1 sound
      simp only [Element.isProper, Bool.and_eq_true] at own
      obtain ⟨nonempty, known⟩ := own
      obtain ⟨m, l, rfl, inner, outer⟩ := exists_split_of_range' numbered
      rw [← Nat.add_assoc] at fits ⊢
      rw [Element.words] at spelled
      refine readsElement_around printable.named printable.distinct writable.unnamed
        (.choice branches {}) rfl known outer fits spelled ends ?_
      intro tokens between atom
      obtain ⟨opening, more, here, opens, others⟩ := atom
      obtain ⟨behind, elements, closing, after, closed, closes, rfl⟩ := spelled_append.1 others
      refine .choice here opens.1 ?_ (by simpa using nonempty)
      refine readsAll_of_spelled writable printable branches inside
        (P := fun s₁ es => ReadsBranches ctx s₁ es
          { s with rest := after, names := p.captureNames.take (k + m) }) ?_ ?_ inner (by omega)
        declares elements (.close closed closes.1)
      · exact fun s s' e es element others => .branch element others
      · exact fun s es others => others.ends writable.unnamed

/-- Elements in a row, where `P` says how they may be read: as the children of a node or
as the branches of a choice. -/
theorem readsAll_of_spelled {ctx : Context} (writable : ctx.vocabulary.Writable)
    {p : Pattern} (printable : p.Printable ctx.vocabulary) : ∀ (es : List Element),
    (∀ x ∈ preorderAll es, x.isProper ctx.vocabulary = true ∧ x.isPrintable = true) →
    ∀ ⦃P : State → List Element → Prop⦄,
    (∀ ⦃s s' : State⦄ ⦃e : Element⦄ ⦃es : List Element⦄, ReadsElement ctx s e s' → P s' es →
      P s (e :: es)) →
    (∀ ⦃s : State⦄ ⦃es : List Element⦄, P s es → Ends s.rest) →
    ∀ ⦃k n : Nat⦄ ⦃s : State⦄ ⦃rest : List Token⦄, slotsAll es = List.range' k n →
    k + n ≤ p.captureNames.length → s.names = p.captureNames.take k →
    Spelled (wordsAll ctx.vocabulary p.captureNames es) s.rest rest →
    P { s with rest, names := p.captureNames.take (k + n) } [] → P s es
  | [], _ => by
      intro P _ _ k n s rest numbered _ declares spelled last
      obtain rfl : n = 0 := by simpa [slotsAll] using numbered.symm
      obtain rfl : s.rest = rest := spelled
      rwa [Nat.add_zero, ← declares] at last
  | e :: es, sound => by
      intro P step ends k n s rest numbered fits declares spelled last
      obtain ⟨first, others⟩ := List.forall_mem_append.1 sound
      obtain ⟨m, l, rfl, here, behind⟩ := exists_split_of_range' numbered
      rw [← Nat.add_assoc] at fits last
      obtain ⟨between, before, after⟩ := spelled_append.1 spelled
      have later := @readsAll_of_spelled _ writable _ printable es others P step ends (k + m) l
        { s with rest := between, names := p.captureNames.take (k + m) } rest behind fits rfl after
        last
      have element := readsElement_of_spelled writable printable e first here (by omega) declares
        before (ends later)
      exact step element later

end

/-! ## Predicates -/

section Arguments

variable {opening : Nat} {t : Token} {more rest : List Token} {others : List Argument}

theorem arguments_close (kind : t.kind = .parenClose) :
    arguments opening (t :: rest) = .ok ([], rest) := by
  simp [arguments, kind]

theorem arguments_capture (kind : t.kind = .capture) (named : t.nameAfterSign ≠ "")
    (read : arguments opening more = .ok (others, rest)) :
    arguments opening (t :: more) =
      .ok (.capture ⟨t.nameAfterSign, t.start⟩ :: others, rest) := by
  simp [arguments, kind, named, read, bind, Except.bind]

theorem arguments_text (kind : t.kind = .string)
    (read : arguments opening more = .ok (others, rest)) :
    arguments opening (t :: more) = .ok (.text (unquote t.text) :: others, rest) := by
  simp [arguments, kind, read, bind, Except.bind]

theorem predicate_eq_ok {s : State} {opening head : Token} {negated : Bool}
    {capture : CaptureRef} {operand : Argument} (here : s.rest = opening :: head :: more)
    (sign : negation? head.nameAfterSign = some negated)
    (read : arguments opening.start more = .ok ([.capture capture, operand], rest)) :
    predicate s = .ok { s with rest, conditions := s.conditions ++ [⟨negated, capture, operand⟩] } := by
  simp [predicate, here, sign, read, bind, Except.bind]

end Arguments

section Predicates

variable {names : List String} (named : ∀ name ∈ names, name ≠ "") (distinct : names.Nodup)

include named distinct

theorem resolve_of_spells {t : Token} {slot : Nat} (inside : slot < names.length)
    (spells : Spells t (.capture (names.getD slot ""))) :
    t.nameAfterSign ≠ "" ∧ resolve names ⟨t.nameAfterSign, t.start⟩ = .ok slot := by
  have name : t.nameAfterSign = names[slot] := by
    rw [spells.nameAfterSign_capture, List.getD_eq_getElem?_getD, List.getElem?_eq_getElem inside]
    rfl
  rw [name]
  refine ⟨named _ (List.getElem_mem inside), resolve_eq_ok_iff.2 ?_⟩
  refine List.findIdx?_eq_some_iff_getElem.2 ⟨inside, beq_self_eq_true _, ?_⟩
  intro j earlier same
  have index := (distinct.getElem_inj_iff).1 (beq_iff_eq.1 same)
  omega

theorem exists_condition_of_spelled {q : Predicate} {s : State} {rest : List Token}
    (declared : ∀ slot ∈ q.slots, slot < names.length)
    (spelled : Spelled (q.words names) s.rest rest) :
    s.atPredicate = true ∧ ∃ c : Condition, c.resolve names = .ok q ∧
      predicate s = .ok { s with rest, conditions := s.conditions ++ [c] } := by
  obtain ⟨opening, _, here, opens, head, _, rfl, isHead, capture, _, rfl, isCapture, operand, _,
    rfl, isOperand, closing, after, rfl, closes, rfl⟩ := spelled
  obtain ⟨negated, slot, compared⟩ := q
  obtain ⟨first, others⟩ := List.forall_mem_cons.1 declared
  obtain ⟨nonempty, resolved⟩ := resolve_of_spells named distinct first isCapture
  refine ⟨atPredicate_iff.2 ⟨_, _, _, here, opens.1, isHead.1⟩, ?_⟩
  have sign : negation? head.nameAfterSign = some negated := by
    rw [isHead.nameAfterSign_predicate]
    cases negated <;> rfl
  have last := @arguments_close opening.start closing after closes.1
  cases compared with
  | text t =>
      have read := arguments_capture isCapture.1 nonempty (arguments_text isOperand.1 last)
      rw [isOperand.unquote_eq] at read
      refine ⟨_, ?_, predicate_eq_ok here sign read⟩
      exact bind_eq_ok_iff.2 ⟨_, rfl, bind_eq_ok_iff.2 ⟨slot, resolved, rfl⟩⟩
  | capture other =>
      have inside : other < names.length := others other List.mem_cons_self
      obtain ⟨nonempty', resolved'⟩ := resolve_of_spells named distinct inside isOperand
      have read := arguments_capture isCapture.1 nonempty
        (arguments_capture isOperand.1 nonempty' last)
      refine ⟨_, ?_, predicate_eq_ok here sign read⟩
      refine bind_eq_ok_iff.2 ⟨.capture other, ?_, bind_eq_ok_iff.2 ⟨slot, resolved, rfl⟩⟩
      simp [resolved', Functor.map, Except.map]

theorem exists_conditions_of_spelled (ctx : Context) {qs : List Predicate} {s : State}
    {rest : List Token} (declared : ∀ q ∈ qs, ∀ slot ∈ q.slots, slot < names.length)
    (spelled : Spelled (qs.flatMap (Predicate.words names)) s.rest rest) :
    ∃ cs, List.Forall₂ (fun c q => Condition.resolve names c = .ok q) cs qs ∧
      ∀ ⦃e : Element⦄ ⦃s' : State⦄,
        ReadsGroup ctx { s with rest, conditions := s.conditions ++ cs } e s' →
        ReadsGroup ctx s e s' := by
  induction qs generalizing s with
  | nil =>
      obtain rfl : s.rest = rest := spelled
      exact ⟨[], .nil, fun e s' group => by rwa [List.append_nil] at group⟩
  | cons q qs ih =>
      obtain ⟨first, others⟩ := List.forall_mem_cons.1 declared
      obtain ⟨between, here, behind⟩ := spelled_append.1 spelled
      obtain ⟨ahead, c, resolves, read⟩ := exists_condition_of_spelled named distinct first here
      obtain ⟨cs, resolved, resume⟩ :=
        @ih { s with rest := between, conditions := s.conditions ++ [c] } others behind
      refine ⟨c :: cs, .cons resolves resolved, fun e s' group => ?_⟩
      refine .predicate ahead read (resume ?_)
      rwa [List.append_assoc]

end Predicates

/-! ## Patterns -/

theorem opensGroup_of_predicateWords {names : List String} {qs : List Predicate} (some : qs ≠ [])
    {tokens rest : List Token}
    (spelled : Spelled (qs.flatMap (Predicate.words names)) tokens rest) :
    opensGroup tokens = true := by
  obtain ⟨q, qs, rfl⟩ := List.exists_cons_of_ne_nil some
  obtain ⟨⟨_, start, text⟩, more, rfl, opens, -⟩ := spelled
  obtain rfl : _ = TokenKind.parenOpen := opens.1
  rfl

theorem readsElement_of_group {ctx : Context} {s : State} {opening : Token} {more : List Token}
    {e : Element} {names : List String} {cs : List Condition} (here : s.rest = opening :: more)
    (opens : opening.kind = .parenOpen) (begins : opensGroup more = true)
    (noField : e.mark.field = none)
    (group : ReadsGroup ctx { s with rest := more } e ⟨[], names, cs⟩) :
    ReadsElement ctx s e ⟨[], names, cs⟩ := by
  have lead : fieldLead ctx s = .ok (none, s) := by
    refine fieldLead_eq_ok_iff.2 (.inr ⟨?_, rfl, rfl⟩)
    rintro ⟨name, colon, rest, same, isName, -⟩
    rw [here] at same
    cases same
    simp [isName] at opens
  have read := ReadsElement.marked lead (.group here opens begins group)
    (show questionMark ⟨[], names, cs⟩ = .ok (false, ⟨[], names, cs⟩) from rfl)
    (show captureMarks names [] = .ok ([], names, []) from rfl)
  rw [Bool.or_false, List.append_nil, ← noField] at read
  cases e <;> exact read

theorem readsElement_of_patternWords {ctx : Context} (writable : ctx.vocabulary.Writable)
    {p : Pattern} (printable : p.Printable ctx.vocabulary) {tokens : List Token}
    (spelled : Spelled (p.words ctx.vocabulary) tokens []) :
    ∃ cs, List.Forall₂ (fun c q => Condition.resolve p.captureNames c = .ok q) cs p.predicates ∧
      ReadsElement ctx { rest := tokens } p.root ⟨[], p.captureNames, cs⟩ := by
  have root : ∀ ⦃tokens rest : List Token⦄ (cs : List Condition),
      Spelled (p.root.words ctx.vocabulary p.captureNames) tokens rest → Ends rest →
      ReadsElement ctx ⟨tokens, [], cs⟩ p.root ⟨rest, p.captureNames, cs⟩ := by
    intro tokens rest cs spelled ends
    have sound : ∀ x ∈ p.root.preorder,
        x.isProper ctx.vocabulary = true ∧ x.isPrintable = true :=
      fun x mem => ⟨printable.proper x mem, printable.printable x mem⟩
    have numbered : p.root.slots = List.range' 0 p.captureNames.length := by
      rw [printable.numbered, List.range_eq_range']
    have read := @readsElement_of_spelled ctx writable p printable p.root sound 0 _
      ⟨tokens, [], cs⟩ rest numbered (by omega) rfl spelled ends
    rwa [Nat.zero_add, List.take_length] at read
  unfold Pattern.words at spelled
  split at spelled
  · rename_i none
    rw [List.isEmpty_iff.1 none]
    exact ⟨[], .nil, root [] spelled (by simp [Ends])⟩
  · rename_i some
    obtain ⟨opening, more, rfl, opens, others⟩ := spelled
    obtain ⟨between, first, others⟩ := spelled_append.1 others
    obtain ⟨last, second, closing, _, rfl, closes, rfl⟩ := spelled_append.1 others
    obtain ⟨cs, resolved, resume⟩ :=
      @exists_conditions_of_spelled _ printable.named printable.distinct ctx _
        { rest := more } between printable.resolved first
    have element := root cs second (ends_cons (.inl closes.1))
    have group := ReadsGroup.element (element.not_atPredicate writable.unnamed) element
      (.close rfl closes.1)
    have begins := opensGroup_of_predicateWords (by simpa using some) first
    exact ⟨cs, resolved, readsElement_of_group rfl opens.1 begins printable.noField (resume group)⟩

end Read

theorem exists_compile_of_prints {v : Vocabulary} (writable : v.Writable) {p : Pattern}
    (printable : p.Printable v) {source : Text} (printed : Prints (p.words v) source) :
    ∃ start, compile v source = .ok [{ p with start }] := by
  have spelled := spelled_of_forall₂
    (printed.spells_significant (printable.writable_words writable))
  obtain ⟨cs, resolved, read⟩ :=
    @Read.readsElement_of_patternWords ⟨v, source.width⟩ writable p printable _ spelled
  exact exists_compile_of_readsElement writable.unnamed read rfl printable.noField
    printable.required (Read.mapM_eq_ok_iff.2 resolved)

theorem writable_math : Vocabulary.math.Writable :=
  ⟨by decide, by decide, by decide⟩

/-- A printable pattern over the kinds and fields of formulas compiles to itself, with any
gaps between its words, and however else it is printed. -/
theorem compile_printed {p : Pattern} (printable : p.Printable Vocabulary.math) :
    (∀ spaced last, spaced.map Prod.snd = p.words Vocabulary.math →
      (∀ x ∈ spaced, IsGap x.1) → (∀ x ∈ spaced.tail, x.1 ≠ []) → IsGap last →
        ∃ start, compile Vocabulary.math (render spaced ++ last) =
          .ok [{ p with start }]) ∧
      ∀ source, Prints (p.words Vocabulary.math) source →
        ∃ start, compile Vocabulary.math source = .ok [{ p with start }] := by
  have compiles : ∀ source, Prints (p.words Vocabulary.math) source →
      ∃ start, compile Vocabulary.math source = .ok [{ p with start }] :=
    fun _ printed => exists_compile_of_prints writable_math printable printed
  refine ⟨?_, compiles⟩
  intro spaced last words gaps apart closing
  exact compiles _ (words ▸ prints_render gaps apart closing)

theorem compile_printed_choice :
    let p : Pattern :=
      { root := .node (.named "sum")
          [.choice
            [.node (.named "number") [] [] { captures := [0] },
              .node (.missing (some ")")) [] ["left"] {}]
            { field := some "right", optional := true, captures := [1] }, .node .any [] [] {}]
          ["left"] { captures := [2] }
        captureNames := ["n", "c.x", "s-1"]
        predicates := [⟨true, 0, .text ['"', 'a', '\n']⟩, ⟨false, 1, .capture 2⟩]
        start := 0 }
    let source :=
      Text.ofString " ( ( #not-eq? @n \"\\\"a\\n\" ) ( #eq? @c.x @s-1 ) ( sum right :" ++
        Text.ofString " [ ( number ) @n ( MISSING \")\" ! left ) ] ? @c.x _ ! left ) @s-1 )"
    p.Printable Vocabulary.math ∧
      ∃ start, compile Vocabulary.math (source ++ Text.ofString ";end\n") =
        .ok [{ p with start }] := by
  intro p source
  have printable : p.Printable Vocabulary.math :=
    { named := by decide
      distinct := by decide
      numbered := by decide
      resolved := by decide
      noField := rfl
      required := rfl
      proper := by decide
      printable := by decide
      written := by decide }
  have blank : IsGap [' '] := .layout (by decide) .nil
  have comment : IsGap (Text.ofString ";end\n") :=
    @IsGap.comment ['e', 'n', 'd'] [] (by simp) .nil
  let spaced := (p.words Vocabulary.math).map fun w => ([' '], w)
  have rendered : render spaced = source := by decide +kernel
  obtain ⟨compiles, -⟩ := compile_printed printable
  refine ⟨printable, rendered ▸ compiles spaced _ ?_ ?_ ?_ comment⟩
  · simp [spaced, Function.comp_def]
  · intro x mem
    obtain ⟨w, -, rfl⟩ := List.mem_map.1 mem
    exact blank
  · intro x mem
    obtain ⟨w, -, rfl⟩ := List.mem_map.1 (List.mem_of_mem_tail mem)
    simp

end ParseTree.Query
