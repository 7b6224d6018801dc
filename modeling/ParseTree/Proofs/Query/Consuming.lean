import ParseTree.Proofs.Query.Grammar
import ParseTree.Proofs.Query.Reading

/-!
# Consuming tokens

What a reader takes off the tokens, which names it mentions, and how the mentions
enter the state.  For each reader that calls no other: the tokens it succeeds on
are those of its part of the language with all names known.
-/

namespace ParseTree.Query

@[simp] theorem declared_nil : declared [] = [] := rfl

@[simp] theorem compared_nil : compared [] = [] := rfl

@[simp] theorem declared_append (ms ns : List Mention) :
    declared (ms ++ ns) = declared ms ++ declared ns := List.filterMap_append

@[simp] theorem compared_append (ms ns : List Mention) :
    compared (ms ++ ns) = compared ms ++ compared ns := List.filterMap_append

@[simp] theorem declared_captures (captures : List Token) :
    declared (captures.map Token.captureMention) = captures.map Token.nameAfterSign := by
  induction captures with
  | nil => rfl
  | cons t ts ih => rw [List.map_cons, List.map_cons, ← ih]; rfl

@[simp] theorem compared_captures (captures : List Token) :
    compared (captures.map Token.captureMention) = [] := by
  induction captures with
  | nil => rfl
  | cons t ts ih => rw [List.map_cons, ← ih]; rfl

namespace Read

def Argument.names : Argument → List String
  | .text _ => []
  | .capture ref => [ref.name]

def Condition.names (c : Condition) : List String := c.capture.name :: c.operand.names

def State.compared (s : State) : List String := s.conditions.flatMap Condition.names

/-- From `s` to `s'` the tokens were read, and the mentions went into the state. -/
structure Consumes (ctx : Context) (s : State) (tokens : List Token) (mentions : List Mention)
    (s' : State) : Prop where
  rest : s.rest = tokens ++ s'.rest
  names : s'.names = s.names ++ declared mentions
  compared : s'.compared = s.compared ++ Query.compared mentions
  known : ∀ m ∈ mentions, m.isKnown ctx.vocabulary = true
  distinct : s.names.Nodup → s'.names.Nodup

theorem Consumes.none (ctx : Context) (s : State) : Consumes ctx s [] [] s :=
  ⟨rfl, by simp, by simp, by simp, id⟩

theorem Consumes.tokens {ctx : Context} {s : State} {tokens rest : List Token}
    {mentions : List Mention} (here : s.rest = tokens ++ rest)
    (none : declared mentions = []) (none' : Query.compared mentions = [])
    (known : ∀ m ∈ mentions, m.isKnown ctx.vocabulary = true) :
    Consumes ctx s tokens mentions { s with rest } :=
  ⟨here, by simp [none], by simp [none', State.compared], known, id⟩

theorem Consumes.condition {ctx : Context} {s : State} {tokens rest : List Token}
    {mentions : List Mention} {c : Condition} (here : s.rest = tokens ++ rest)
    (none : declared mentions = []) (names : Query.compared mentions = c.names)
    (known : ∀ m ∈ mentions, m.isKnown ctx.vocabulary = true) :
    Consumes ctx s tokens mentions { s with rest, conditions := s.conditions ++ [c] } :=
  ⟨here, by simp [none], by simp [names, State.compared], known, id⟩

theorem Consumes.append {ctx : Context} {s₁ s₂ s₃ : State} {ts us : List Token}
    {ms ns : List Mention} (h₁ : Consumes ctx s₁ ts ms s₂) (h₂ : Consumes ctx s₂ us ns s₃) :
    Consumes ctx s₁ (ts ++ us) (ms ++ ns) s₃ where
  rest := by rw [h₁.rest, h₂.rest, List.append_assoc]
  names := by rw [h₂.names, h₁.names, declared_append, List.append_assoc]
  compared := by rw [h₂.compared, h₁.compared, compared_append, List.append_assoc]
  known m mem := (List.mem_append.1 mem).elim (h₁.known m) (h₂.known m)
  distinct h := h₂.distinct (h₁.distinct h)

theorem Consumes.token {ctx : Context} {s : State} {t : Token} {rest : List Token}
    (here : s.rest = t :: rest) : Consumes ctx s [t] [] { s with rest } :=
  .tokens here rfl rfl (by simp)

theorem Consumes.cons {ctx : Context} {s s' : State} {t : Token} {ts rest : List Token}
    {ms : List Mention} (here : s.rest = t :: rest)
    (h : Consumes ctx { s with rest } ts ms s') : Consumes ctx s (t :: ts) ms s' := by
  simpa using (Consumes.token here).append h

structure Ahead (ctx : Context) (s : State) (tokens : List Token) (mentions : List Mention)
    (rest : List Token) : Prop where
  tokens : s.rest = tokens ++ rest
  known : ∀ m ∈ mentions, m.isKnown ctx.vocabulary = true
  distinct : (s.names ++ declared mentions).Nodup

theorem Ahead.left {ctx : Context} {s : State} {ts us rest : List Token}
    {ms ns : List Mention} (h : Ahead ctx s (ts ++ us) (ms ++ ns) rest) :
    Ahead ctx s ts ms (us ++ rest) where
  tokens := h.tokens.trans (List.append_assoc ts us rest)
  known m mem := h.known m (List.mem_append_left ns mem)
  distinct := by
    have all := h.distinct
    rw [declared_append, ← List.append_assoc] at all
    exact (List.nodup_append.1 all).1

theorem Ahead.right {ctx : Context} {s s' : State} {ts us rest : List Token}
    {ms ns : List Mention} (h : Ahead ctx s (ts ++ us) (ms ++ ns) rest)
    (consumed : Consumes ctx s ts ms s') : Ahead ctx s' us ns rest where
  tokens := by
    have here := h.tokens
    rw [consumed.rest, List.append_assoc] at here
    exact List.append_cancel_left here
  known m mem := h.known m (List.mem_append_right ms mem)
  distinct := by
    have all := h.distinct
    rwa [declared_append, ← List.append_assoc, ← consumed.names] at all

theorem Ahead.tail {ctx : Context} {s : State} {t : Token} {ts rest : List Token}
    {ms : List Mention} (h : Ahead ctx s (t :: ts) ms rest) :
    Ahead ctx { s with rest := ts ++ rest } ts ms rest :=
  ⟨rfl, h.known, h.distinct⟩

/-! ## What the small readers take -/

def LeadsField (tokens : List Token) : Prop :=
  ∃ name colon rest, tokens = name :: colon :: rest ∧ name.kind = .identifier ∧
    colon.kind = .colon

theorem fieldLead_eq_ok_iff {ctx : Context} {s s' : State} {field : Option String} :
    fieldLead ctx s = .ok (field, s') ↔
      (∃ name colon rest, s.rest = name :: colon :: rest ∧ name.kind = .identifier ∧
        colon.kind = .colon ∧ ctx.vocabulary.hasField name.name = true ∧
        field = some name.name ∧ s' = { s with rest }) ∨
      (¬ LeadsField s.rest ∧ field = none ∧ s' = s) := by
  unfold fieldLead
  split
  · rename_i start text start' text' rest here
    dsimp only
    constructor
    · intro h
      split at h
      · rename_i known
        cases h
        exact Or.inl ⟨_, _, rest, here, rfl, rfl, known, rfl, rfl⟩
      · simp at h
    · rintro (⟨name, colon, rest', same, -, -, known, rfl, rfl⟩ | ⟨other, -⟩)
      · cases here.symm.trans same
        exact if_pos known
      · exact absurd ⟨_, _, rest, here, rfl, rfl⟩ other
  · rename_i other
    constructor
    · intro h
      cases h
      refine Or.inr ⟨?_, rfl, rfl⟩
      rintro ⟨⟨_, start, text⟩, ⟨_, start', text'⟩, rest, here, rfl, rfl⟩
      exact other start text start' text' rest here
    · rintro (⟨⟨_, start, text⟩, ⟨_, start', text'⟩, rest, here, rfl, rfl, -⟩ | ⟨-, rfl, rfl⟩)
      · exact absurd here (other start text start' text' rest)
      · rfl

theorem questionMark_eq_ok_iff {s s' : State} {optional : Bool} :
    questionMark s = .ok (optional, s') ↔
      (∃ t rest, s.rest = t :: rest ∧ t.kind = .question ∧ optional = true ∧
        s' = { s with rest }) ∨
      ((∀ t ∈ s.rest.head?, t.kind ≠ .question ∧ t.kind ≠ .star ∧ t.kind ≠ .plus) ∧
        optional = false ∧ s' = s) := by
  obtain ⟨rest, names, conditions⟩ := s
  cases rest with
  | nil => simp [questionMark, eq_comm]
  | cons t rest =>
      obtain ⟨kind, start, text⟩ := t
      cases kind with
      | question =>
          constructor
          · intro h
            cases h
            exact .inl ⟨_, _, rfl, rfl, rfl, rfl⟩
          · rintro (⟨t, rest', same, -, rfl, rfl⟩ | ⟨other, -⟩)
            · cases same
              rfl
            · exact absurd rfl (other _ rfl).1
      | star | plus => simp [questionMark]
      | _ => simp [questionMark, eq_comm]

theorem captureMarks_eq_ok {names names' : List String} {tokens rest : List Token}
    {slots : List Nat} (h : captureMarks names tokens = .ok (slots, names', rest)) :
    ∃ captures : List Token, tokens = captures ++ rest ∧
      (∀ t ∈ captures, t.kind = .capture ∧ t.nameAfterSign ≠ "") ∧
      names' = names ++ captures.map Token.nameAfterSign ∧ (names.Nodup → names'.Nodup) := by
  induction tokens generalizing names slots with
  | nil =>
      cases h
      exact ⟨[], rfl, by simp, by simp, id⟩
  | cons token tokens ih =>
      unfold captureMarks at h
      split at h
      · rename_i start text rest' same
        cases same
        dsimp only at h
        obtain ⟨nonempty, h⟩ := check_eq_ok_iff.1 h
        obtain ⟨fresh, h⟩ := check_eq_ok_iff.1 h
        obtain ⟨⟨later, names'', rest'⟩, read, h⟩ := bind_eq_ok_iff.1 h
        cases h
        obtain ⟨captures, rfl, all, rfl, distinct⟩ := ih read
        refine ⟨⟨.capture, start, text⟩ :: captures, rfl, ?_, by simp [Token.nameAfterSign], ?_⟩
        · intro t mem
          rcases List.mem_cons.1 mem with rfl | later
          · exact ⟨rfl, nonempty⟩
          · exact all t later
        · intro nodup
          apply distinct
          refine List.nodup_append.2 ⟨nodup, by simp, ?_⟩
          rintro name mem _ single rfl
          rw [List.mem_singleton.1 single] at mem
          exact fresh (by simpa using mem)
      · cases h
        exact ⟨[], rfl, by simp, by simp, id⟩

theorem exists_slots_of_captures {captures : List Token} (rest : List Token) {names : List String}
    (all : ∀ t ∈ captures, t.kind = .capture ∧ t.nameAfterSign ≠ "")
    (distinct : (names ++ captures.map Token.nameAfterSign).Nodup)
    (ends : ∀ t ∈ rest.head?, t.kind ≠ .capture) :
    ∃ slots, captureMarks names (captures ++ rest) =
      .ok (slots, names ++ captures.map Token.nameAfterSign, rest) := by
  induction captures generalizing names with
  | nil =>
      refine ⟨[], ?_⟩
      rw [List.nil_append, List.map_nil, List.append_nil]
      unfold captureMarks
      split
      · exact absurd rfl (ends _ rfl)
      · rfl
  | cons t captures ih =>
      obtain ⟨_, start, text⟩ := t
      obtain ⟨rfl, nonempty⟩ := all _ List.mem_cons_self
      have fresh : Token.nameAfterSign ⟨.capture, start, text⟩ ∉ names := by
        intro mem
        exact (List.nodup_append.1 distinct).2.2 _ mem _ List.mem_cons_self rfl
      rw [List.map_cons, List.append_cons] at distinct ⊢
      obtain ⟨slots, read⟩ := ih (fun t mem => all t (List.mem_cons_of_mem _ mem)) distinct
      refine ⟨names.length :: slots, ?_⟩
      rw [List.cons_append, captureMarks]
      refine check_eq_ok_iff.2 ⟨nonempty, check_eq_ok_iff.2 ⟨?_, ?_⟩⟩
      · rwa [List.contains_iff_mem]
      · exact bind_eq_ok_iff.2 ⟨_, read, rfl⟩

theorem Consumes.captures (ctx : Context) {s : State} {names : List String}
    {rest : List Token} {slots : List Nat}
    (h : captureMarks s.names s.rest = .ok (slots, names, rest)) :
    ∃ captures : List Token, (∀ t ∈ captures, t.kind = .capture) ∧
      Consumes ctx s captures (captures.map Token.captureMention) { s with rest, names } := by
  obtain ⟨captures, taken, all, rfl, distinct⟩ := captureMarks_eq_ok h
  refine ⟨captures, fun t mem => (all t mem).1, taken, by simp, by simp [State.compared], ?_,
    distinct⟩
  intro m mem
  obtain ⟨t, found, rfl⟩ := List.mem_map.1 mem
  exact (t.isKnown_captureMention ctx.vocabulary).2 (all t found).2

theorem exists_captureMarks {ctx : Context} {s : State} {captures rest : List Token}
    (ahead : Ahead ctx s captures (captures.map Token.captureMention) rest)
    (all : ∀ t ∈ captures, t.kind = .capture) (ends : ∀ t ∈ rest.head?, t.kind ≠ .capture) :
    ∃ slots names, captureMarks s.names s.rest = .ok (slots, names, rest) ∧
      Consumes ctx s captures (captures.map Token.captureMention) { s with rest, names } := by
  have named : ∀ t ∈ captures, t.kind = .capture ∧ t.nameAfterSign ≠ "" := by
    intro t mem
    have known := ahead.known _ (List.mem_map_of_mem mem)
    exact ⟨all t mem, (t.isKnown_captureMention _).1 known⟩
  have distinct := ahead.distinct
  rw [declared_captures] at distinct
  obtain ⟨slots, read⟩ := exists_slots_of_captures rest named distinct ends
  refine ⟨slots, _, ahead.tokens ▸ read, ahead.tokens, by simp, by simp [State.compared],
    ahead.known, fun _ => distinct⟩

theorem isKind_of_missingKind {ctx : Context} {s s' : State} {t : Token} {rest : List Token}
    {found : Option String} (here : s.rest = t :: rest) (kind : t.kind = .identifier)
    (word : t.name = "MISSING") (h : missingKind ctx { s with rest } = .ok (found, s')) :
    ∃ ts ms, IsKind s'.rest ts ms ∧ Consumes ctx s ts ms s' := by
  unfold missingKind at h
  split at h
  · rename_i start text rest' there
    dsimp only at h there
    split at h
    · rename_i known
      cases h
      subst there
      exact ⟨_, _, .missingText (u := ⟨.string, start, text⟩) kind word rfl,
        .tokens here rfl rfl (List.forall_mem_singleton.2 known)⟩
    · simp at h
  · rename_i start text rest' there
    dsimp only at h there
    split at h
    · rename_i known
      cases h
      subst there
      exact ⟨_, _, .missingNamed (u := ⟨.identifier, start, text⟩) kind word rfl,
        .tokens here rfl rfl (List.forall_mem_singleton.2 known)⟩
    · simp at h
  · rename_i noString noName
    cases h
    refine ⟨_, _, .missing kind word ?_, .tokens here rfl rfl (by simp)⟩
    rintro ⟨next, start, text⟩ mem
    obtain ⟨rest', there⟩ := List.head?_eq_some_iff.1 mem
    constructor
    · rintro rfl
      exact noName _ _ _ there
    · rintro rfl
      exact noString _ _ _ there

theorem isKind_of_kindTest {ctx : Context} {s s' : State} {test : KindTest}
    (h : kindTest ctx s = .ok (test, s')) :
    ∃ ts ms, IsKind s'.rest ts ms ∧ Consumes ctx s ts ms s' := by
  unfold kindTest at h
  split at h
  · rename_i start text rest here
    dsimp only at h
    split at h
    · rename_i word
      cases h
      exact ⟨_, _, .word rfl (by simp [Token.name, word]), .tokens here rfl rfl (by simp)⟩
    split at h
    · rename_i word
      cases h
      exact ⟨_, _, .word rfl (by simp [Token.name, word]), .tokens here rfl rfl (by simp)⟩
    split at h
    · rename_i missing
      obtain ⟨⟨kind, s₁⟩, read, h⟩ := bind_eq_ok_iff.1 h
      cases h
      exact isKind_of_missingKind here rfl missing read
    split at h
    · rename_i wildcard error missing known
      cases h
      refine ⟨_, _, .named rfl ?_, .tokens here rfl rfl (List.forall_mem_singleton.2 known)⟩
      simp [Token.name, wildcard, error, missing]
    · simp at h
  · simp at h

theorem missingKind_of_bare {ctx : Context} {s : State}
    (bare : ∀ t ∈ s.rest.head?, t.kind ≠ .identifier ∧ t.kind ≠ .string) :
    missingKind ctx s = .ok (none, s) := by
  unfold missingKind
  split
  · rename_i there
    rw [there] at bare
    exact absurd rfl (bare _ rfl).2
  · rename_i there
    rw [there] at bare
    exact absurd rfl (bare _ rfl).1
  · rfl

theorem exists_kindTest_of_isKind {ctx : Context} {s : State} {following ts rest : List Token}
    {ms : List Mention} (h : IsKind following ts ms) (ahead : Ahead ctx s ts ms rest)
    (same : rest.head? = following.head?) :
    ∃ test, kindTest ctx s = .ok (test, { s with rest }) ∧
      Consumes ctx s ts ms { s with rest } := by
  obtain ⟨here, known, -⟩ := ahead
  cases h with
  | @word t kind word =>
      obtain ⟨_, start, text⟩ := t
      subst kind
      simp only [Token.name, List.mem_cons, List.not_mem_nil, or_false] at word
      simp only [kindTest, here, List.cons_append, List.nil_append]
      rcases word with word | word
      · exact ⟨_, if_pos word, .tokens here rfl rfl known⟩
      · rw [if_neg (by simp [word]), if_pos word]
        exact ⟨_, rfl, .tokens here rfl rfl known⟩
  | @named t kind other =>
      obtain ⟨_, start, text⟩ := t
      subst kind
      simp only [Token.name, List.mem_cons, List.not_mem_nil, or_false, not_or] at other
      simp only [kindTest, here, List.cons_append, List.nil_append]
      rw [if_neg other.1, if_neg other.2.1, if_neg other.2.2]
      exact ⟨_, if_pos (known _ List.mem_cons_self), .tokens here rfl rfl known⟩
  | @missing t kind word bare =>
      obtain ⟨_, start, text⟩ := t
      subst kind
      rw [← same] at bare
      have read := @missingKind_of_bare ctx { s with rest } bare
      simp only [Token.name] at word
      refine ⟨.missing none, ?_, .tokens here rfl rfl known⟩
      simp [kindTest, here, word, read, bind, Except.bind]
  | @missingNamed t u kind word kind' =>
      obtain ⟨_, start, text⟩ := t
      obtain ⟨_, start', text'⟩ := u
      subst kind kind'
      simp only [Token.name] at word
      have found : ctx.vocabulary.hasKind (String.ofList text') true = true :=
        known _ List.mem_cons_self
      refine ⟨.missing (some (String.ofList text')), ?_, .tokens here rfl rfl known⟩
      simp [kindTest, missingKind, here, word, found, bind, Except.bind]
  | @missingText t u kind word kind' =>
      obtain ⟨_, start, text⟩ := t
      obtain ⟨_, start', text'⟩ := u
      subst kind kind'
      simp only [Token.name] at word
      have found : ctx.vocabulary.hasKind (String.ofList (unquote text')) false = true :=
        known _ List.mem_cons_self
      refine ⟨.missing (some (String.ofList (unquote text'))), ?_, .tokens here rfl rfl known⟩
      simp [kindTest, missingKind, here, word, found, bind, Except.bind]

theorem absentField_consumes {ctx : Context} {s s' : State} {field : String}
    (unnamed : ctx.vocabulary.hasField "" = false) (h : absentField ctx s = .ok (field, s')) :
    ∃ t : Token, t.kind = .identifier ∧ Consumes ctx s [t] [.field t.name] s' := by
  unfold absentField at h
  split at h
  rename_i name s₁ next
  split at h
  · rename_i known
    cases h
    split at next
    · rename_i start text rest here
      cases next
      exact ⟨⟨.identifier, start, text⟩, rfl,
        .tokens here rfl rfl (List.forall_mem_singleton.2 known)⟩
    · cases next
      simp [unnamed] at known
  · simp at h

theorem absentField_eq_ok {ctx : Context} {s : State} {t : Token} {rest : List Token}
    (here : s.rest = t :: rest) (kind : t.kind = .identifier)
    (known : ctx.vocabulary.hasField t.name = true) :
    absentField ctx s = .ok (t.name, { s with rest }) := by
  obtain ⟨_, start, text⟩ := t
  subst kind
  simp only [absentField, here]
  exact if_pos known

/-! ## Predicates -/

theorem negation?_isSome_iff {name : String} :
    (∃ negated, negation? name = some negated) ↔ name ∈ ["eq?", "not-eq?"] := by
  unfold negation?
  split <;> simp_all

theorem arguments_cons_eq_ok {opening : Nat} {tokens rest : List Token} {first : Argument}
    {others : List Argument} (h : arguments opening tokens = .ok (first :: others, rest)) :
    ∃ t more, tokens = t :: more ∧ arguments opening more = .ok (others, rest) ∧
      (t.kind = .capture ∧ t.nameAfterSign ≠ "" ∧
          first = .capture ⟨t.nameAfterSign, t.start⟩ ∨
        t.kind = .string ∧ first = .text (unquote t.text)) := by
  unfold arguments at h
  split at h
  · simp at h
  · rename_i t more
    split at h
    · cases h
    · rename_i kind
      obtain ⟨named, h⟩ := check_eq_ok_iff.1 h
      obtain ⟨⟨others', rest'⟩, read, h⟩ := bind_eq_ok_iff.1 h
      cases h
      exact ⟨t, more, rfl, read, .inl ⟨kind, named, rfl⟩⟩
    · rename_i kind
      obtain ⟨⟨others', rest'⟩, read, h⟩ := bind_eq_ok_iff.1 h
      cases h
      exact ⟨t, more, rfl, read, .inr ⟨kind, rfl⟩⟩
    · simp at h

theorem arguments_nil_eq_ok {opening : Nat} {tokens rest : List Token}
    (h : arguments opening tokens = .ok ([], rest)) :
    ∃ t, tokens = t :: rest ∧ t.kind = .parenClose := by
  unfold arguments at h
  split at h
  · simp at h
  · rename_i t more
    split at h
    · rename_i kind
      cases h
      exact ⟨t, rfl, kind⟩
    · obtain ⟨-, h⟩ := check_eq_ok_iff.1 h
      obtain ⟨_, -, h⟩ := bind_eq_ok_iff.1 h
      cases h
    · obtain ⟨_, -, h⟩ := bind_eq_ok_iff.1 h
      cases h
    · simp at h

theorem atPredicate_iff {s : State} :
    s.atPredicate = true ↔ ∃ opening head rest, s.rest = opening :: head :: rest ∧
      opening.kind = .parenOpen ∧ head.kind = .predicate := by
  unfold State.atPredicate
  split
  · rename_i start text start' text' rest here
    exact ⟨fun _ => ⟨_, _, rest, here, rfl, rfl⟩, fun _ => rfl⟩
  · rename_i other
    simp only [Bool.false_eq_true, false_iff]
    rintro ⟨⟨_, start, text⟩, ⟨_, start', text'⟩, rest, here, rfl, rfl⟩
    exact other start text start' text' rest here

theorem isPredicate_of_predicate (ctx : Context) {s s' : State} (ahead : s.atPredicate = true)
    (h : predicate s = .ok s') : ∃ ts ms, IsPredicate ts ms ∧ Consumes ctx s ts ms s' := by
  obtain ⟨opening, head, rest, here, opens, isHead⟩ := atPredicate_iff.1 ahead
  simp only [predicate, here] at h
  split at h
  · rename_i negated known
    obtain ⟨⟨read, rest'⟩, arguments, h⟩ := bind_eq_ok_iff.1 h
    split at h
    · rename_i capture operand rest'' same
      cases same
      cases h
      obtain ⟨t, more, rfl, arguments, first⟩ := arguments_cons_eq_ok arguments
      obtain ⟨u, more, rfl, arguments, second⟩ := arguments_cons_eq_ok arguments
      obtain ⟨closing, rfl, closes⟩ := arguments_nil_eq_ok arguments
      have name := negation?_isSome_iff.1 ⟨negated, known⟩
      obtain ⟨isCapture, named, first⟩ | ⟨-, first⟩ := first <;> cases first
      obtain ⟨isCapture', named', rfl⟩ | ⟨isString, rfl⟩ := second
      · refine ⟨_, _, .withCapture opens isHead name isCapture isCapture' closes,
          .condition here rfl rfl ?_⟩
        simp [named, named']
      · refine ⟨_, _, .withText opens isHead name isCapture isString closes,
          .condition here rfl rfl ?_⟩
        simp [named]
    · simp at h
  · simp at h

theorem exists_predicate_of_isPredicate {ctx : Context} {s : State} {ts rest : List Token}
    {ms : List Mention} (h : IsPredicate ts ms) (ahead : Ahead ctx s ts ms rest) :
    s.atPredicate = true ∧ ∃ s', predicate s = .ok s' ∧ Consumes ctx s ts ms s' := by
  obtain ⟨here, known, -⟩ := ahead
  cases h with
  | @withCapture opening head capture operand closing opens isHead name kind kind' closes =>
      obtain ⟨negated, found⟩ := negation?_isSome_iff.2 name
      have named := (capture.isKnown_comparedMention _).1 (known _ List.mem_cons_self)
      have named' := (operand.isKnown_comparedMention _).1
        (known _ (List.mem_cons_of_mem _ List.mem_cons_self))
      have consumed := Consumes.condition (c := ⟨negated,
        ⟨capture.nameAfterSign, capture.start⟩,
        .capture ⟨operand.nameAfterSign, operand.start⟩⟩) here rfl rfl known
      refine ⟨atPredicate_iff.2 ⟨_, _, _, here, opens, isHead⟩, _, ?_, consumed⟩
      simp [predicate, here, found, arguments, kind, kind', closes, named, named', bind,
        Except.bind]
  | @withText opening head capture operand closing opens isHead name kind kind' closes =>
      obtain ⟨negated, found⟩ := negation?_isSome_iff.2 name
      have named := (capture.isKnown_comparedMention _).1 (known _ List.mem_cons_self)
      have consumed := Consumes.condition (c := ⟨negated,
        ⟨capture.nameAfterSign, capture.start⟩, .text (unquote operand.text)⟩) here rfl rfl known
      refine ⟨atPredicate_iff.2 ⟨_, _, _, here, opens, isHead⟩, _, ?_, consumed⟩
      simp [predicate, here, found, arguments, kind, kind', closes, named, bind, Except.bind]

end Read

end ParseTree.Query
