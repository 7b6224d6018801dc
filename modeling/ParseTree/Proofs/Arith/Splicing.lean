import ParseTree.Proofs.Arith.Words

/-!
# Cutting a text between its tokens

A text without unknown tokens prints words: one for each token, just where the token
stands.  So it can be cut in front of any token and behind any token, and what is left
on both sides prints the words that stand there.  Texts that print words can be put
together again in any order.
-/

namespace ParseTree

namespace Arith

/-! ## The words of a text -/

theorem take_numberLength (rest : Text) :
    ∃ whole tail, rest.take (numberLength rest) = whole ++ tail ∧
      (∀ d ∈ whole, d.isDigit = true) ∧
      (tail = [] ∨ ∃ d more, tail = '.' :: d :: more ∧ d.isDigit = true ∧
        ∀ e ∈ more, e.isDigit = true) := by
  have digits : ∀ text : Text, ∀ d ∈ text.takeWhile Char.isDigit, d.isDigit = true :=
    fun _ => List.all_eq_true.1 List.all_takeWhile
  have taken : ∀ text : Text,
      text.take (text.takeWhile Char.isDigit).length = text.takeWhile Char.isDigit :=
    fun _ => (List.prefix_iff_eq_take.1 (List.takeWhile_prefix _)).symm
  unfold numberLength
  dsimp only
  split
  · rename_i digit more behind
    split
    · rename_i isDigit
      refine ⟨_, _, ?_, digits rest, Or.inr ⟨digit, _, rfl, isDigit, digits more⟩⟩
      rw [Nat.add_assoc, List.take_add, taken rest, behind, Nat.add_comm 2]
      simp [taken more]
    · exact ⟨_, [], by rw [taken rest, List.append_nil], digits rest, Or.inl rfl⟩
  · exact ⟨_, [], by rw [taken rest, List.append_nil], digits rest, Or.inl rfl⟩

theorem isNumeral_cons {c : Char} {whole tail : Text} (first : c.isDigit = true)
    (digits : ∀ d ∈ whole, d.isDigit = true)
    (fraction : tail = [] ∨ ∃ d more, tail = '.' :: d :: more ∧ d.isDigit = true ∧
      ∀ e ∈ more, e.isDigit = true) :
    isNumeral (c :: (whole ++ tail)) = true := by
  have all : ∀ d ∈ c :: whole, d.isDigit = true := List.forall_mem_cons.2 ⟨first, digits⟩
  rw [isNumeral, ← List.cons_append, List.takeWhile_append_of_pos all,
    List.dropWhile_append_of_pos all]
  rcases fraction with rfl | ⟨d, more, rfl, digit, others⟩
  · rfl
  · simpa [show Char.isDigit '.' = false by decide, digit] using others

theorem exists_word_of_lexicalRule {c : Char} {rest : Text} {kind : TokenKind} {more : Nat}
    (rule : lexicalRule c rest = (some kind, more)) (known : kind ≠ .unknown) :
    ∃ w : Word, w.kind = kind ∧ w.text = c :: rest.take more := by
  unfold lexicalRule at rule
  split at rule
  · cases rule
  split at rule
  · rename_i digit
    cases rule
    obtain ⟨whole, tail, taken, digits, fraction⟩ := take_numberLength rest
    exact ⟨.numeral ⟨_, isNumeral_cons digit digits fraction⟩, rfl, by rw [taken]; rfl⟩
  split at rule
  · rename_i start
    cases rule
    refine ⟨.name ⟨c :: rest.takeWhile isWordRest, ?_⟩, rfl, ?_⟩
    · rw [isName, start, List.all_takeWhile]
      rfl
    · rw [← List.prefix_iff_eq_take.1 (List.takeWhile_prefix _)]
      rfl
  split at rule <;> cases rule
  · exact ⟨.operator .add, rfl, rfl⟩
  · exact ⟨.operator .subtract, rfl, rfl⟩
  · exact ⟨.operator .multiply, rfl, rfl⟩
  · exact ⟨.operator .divide, rfl, rfl⟩
  · exact ⟨.openParen, rfl, rfl⟩
  · exact ⟨.closeParen, rfl, rfl⟩
  · exact absurd rfl known

def Placed : Nat → Text → List Token → Prop
  | _, text, [] => ∀ c ∈ text, Text.isLayout c = true
  | offset, text, token :: tokens =>
      ∃ (gap : Text) (w : Word) (rest : Text), text = gap ++ w.text ++ rest ∧
        (∀ c ∈ gap, Text.isLayout c = true) ∧
        token = ⟨w.kind, ⟨offset + gap.width, offset + gap.width + w.text.width⟩⟩ ∧
        Placed token.range.stop rest tokens

theorem Placed.after_gap {offset : Nat} {gap text : Text} {tokens : List Token}
    (layout : ∀ c ∈ gap, Text.isLayout c = true)
    (h : Placed (offset + gap.width) text tokens) : Placed offset (gap ++ text) tokens := by
  cases tokens with
  | nil => exact List.forall_mem_append.2 ⟨layout, h⟩
  | cons token tokens =>
      obtain ⟨more, w, rest, rfl, moreLayout, rfl, behind⟩ := h
      refine ⟨gap ++ more, w, rest, by simp, List.forall_mem_append.2 ⟨layout, moreLayout⟩, ?_,
        behind⟩
      simp [Nat.add_assoc]

theorem placed_lexed (offset : Nat) (text : Text)
    (known : ∀ token ∈ lexed offset text, token.kind ≠ .unknown) :
    Placed offset text (lexed offset text) := by
  induction size : text.length using Nat.strongRecOn generalizing offset text with
  | ind length ih =>
      cases text with
      | nil => simp [lexed, Lexeme.scanFrom, Placed]
      | cons c rest =>
          obtain ⟨⟨kind, more⟩, rule⟩ : ∃ cut, lexicalRule c rest = cut := ⟨_, rfl⟩
          have cut : c :: rest = (c :: rest.take more) ++ rest.drop more := by simp
          have shorter : (rest.drop more).length < length := by
            rw [← size, List.length_drop, List.length_cons]
            omega
          rw [lexed, Lexeme.scanFrom_cons rule] at known ⊢
          cases kind with
          | none =>
              rw [List.filterMap_cons_none rfl] at known ⊢
              rw [cut]
              exact (ih _ shorter _ _ known rfl).after_gap (layout_of_lexicalRule rule)
          | some kind =>
              rw [List.filterMap_cons] at known ⊢
              obtain ⟨first, others⟩ := List.forall_mem_cons.1 known
              obtain ⟨w, sameKind, taken⟩ := exists_word_of_lexicalRule rule first
              have behind := ih _ shorter _ _ others rfl
              refine ⟨[], w, rest.drop more, ?_, by simp, ?_, behind⟩
              · rw [List.nil_append, taken, ← cut]
              · rw [sameKind, taken]
                rfl

theorem placed_tokenize {text : Text}
    (known : ∀ token ∈ Token.tokenize text, token.kind ≠ .unknown) :
    Placed 0 text (Token.tokenize text) := by
  have isKnown : ∀ token ∈ lexed 0 text, token.isUnknown = false := by
    refine @loose_eq_false_of_coalesce _ Token.isUnknown Token.join (fun _ _ => id) _ ?_
    intro token mem
    simpa [Token.isUnknown] using known token mem
  have same : Token.tokenize text = lexed 0 text := coalesce_eq_self isKnown
  rw [same]
  apply placed_lexed
  intro token mem
  simpa [Token.isUnknown] using isKnown token mem

/-! ## Cutting and joining -/

theorem Prints.append {words others : List Word} {text more : Text} (h : Prints words text)
    (h' : Prints others more) : Prints (words ++ others) (text ++ more) := by
  induction h with
  | nil layout =>
      cases h' with
      | nil layout' => exact .nil (List.forall_mem_append.2 ⟨layout, layout'⟩)
      | cons w layout' behind =>
          have joined := Prints.cons w (List.forall_mem_append.2 ⟨layout, layout'⟩) behind
          simpa using joined
  | cons w layout _ ih =>
      have joined := Prints.cons w layout ih
      simpa using joined

def PrintsKinds (kinds : List TokenKind) (text : Text) : Prop :=
  ∃ words, words.map Word.kind = kinds ∧ Prints words text

theorem PrintsKinds.append {kinds others : List TokenKind} {text more : Text}
    (h : PrintsKinds kinds text) (h' : PrintsKinds others more) :
    PrintsKinds (kinds ++ others) (text ++ more) := by
  obtain ⟨words, rfl, prints⟩ := h
  obtain ⟨words', rfl, prints'⟩ := h'
  exact ⟨words ++ words', List.map_append, prints.append prints'⟩

theorem printsKinds_word (w : Word) : PrintsKinds [w.kind] w.text := by
  have nothing : ∀ c ∈ ([] : Text), Text.isLayout c = true := by simp
  exact ⟨[w], rfl, by simpa using Prints.cons w nothing (.nil nothing)⟩

theorem PrintsKinds.enclosed {kinds : List TokenKind} {text : Text} (h : PrintsKinds kinds text) :
    PrintsKinds (.openParen :: (kinds ++ [.closeParen])) ('(' :: (text ++ [')'])) :=
  (printsKinds_word .openParen).append (h.append (printsKinds_word .closeParen))

theorem Placed.printsKinds {offset : Nat} {text : Text} {tokens : List Token}
    (h : Placed offset text tokens) : PrintsKinds (tokens.map (·.kind)) text := by
  induction tokens generalizing offset text with
  | nil => exact ⟨[], rfl, .nil h⟩
  | cons token tokens ih =>
      obtain ⟨gap, w, rest, rfl, layout, rfl, behind⟩ := h
      obtain ⟨words, kinds, prints⟩ := ih behind
      exact ⟨w :: words, by simp [kinds], .cons w layout prints⟩

theorem Placed.cut_before {offset : Nat} {text : Text} {token : Token}
    {tokens others : List Token} (h : Placed offset text (tokens ++ token :: others)) :
    ∃ before after, text = before ++ after ∧ offset + before.width = token.range.start ∧
      PrintsKinds (tokens.map (·.kind)) before ∧
      Placed token.range.start after (token :: others) := by
  induction tokens generalizing offset text with
  | nil =>
      obtain ⟨gap, w, rest, rfl, layout, rfl, behind⟩ := h
      refine ⟨gap, w.text ++ rest, by simp, rfl, ⟨[], rfl, .nil layout⟩, ?_⟩
      exact ⟨[], w, rest, by simp, by simp, by simp, behind⟩
  | cons first tokens ih =>
      obtain ⟨gap, w, rest, rfl, layout, rfl, behind⟩ := h
      obtain ⟨before, after, rfl, start, ⟨words, kinds, prints⟩, placed⟩ := ih behind
      refine ⟨gap ++ w.text ++ before, after, by simp, ?_, ?_, placed⟩
      · rw [← start]
        simp only [Text.width_append]
        omega
      · exact ⟨w :: words, by simp [kinds], .cons w layout prints⟩

theorem Placed.cut_behind {offset : Nat} {text : Text} {tokens others : List Token}
    (h : Placed offset text (tokens ++ others)) :
    ∃ before after, text = before ++ after ∧
      offset + before.width = (tokens.getLast?.map (·.range.stop)).getD offset ∧
      PrintsKinds (others.map (·.kind)) after := by
  induction tokens generalizing offset text with
  | nil => exact ⟨[], text, rfl, rfl, h.printsKinds⟩
  | cons first tokens ih =>
      obtain ⟨gap, w, rest, rfl, layout, rfl, behind⟩ := h
      obtain ⟨before, after, rfl, stop, prints⟩ := ih behind
      refine ⟨gap ++ w.text ++ before, after, by simp, ?_, prints⟩
      rw [List.getLast?_cons]
      cases last : tokens.getLast? with
      | none =>
          rw [last] at stop
          simp only [Text.width_append, Option.map_none, Option.getD_none, Option.map_some,
            Option.getD_some] at stop ⊢
          omega
      | some token =>
          rw [last] at stop
          simp only [Text.width_append, Option.map_some, Option.getD_some] at stop ⊢
          omega

theorem exists_parts {text : Text} {before middle after : List Token} {range : ByteRange}
    (known : ∀ token ∈ Token.tokenize text, token.kind ≠ .unknown)
    (tokens : Token.tokenize text = before ++ middle ++ after)
    (start : middle.head?.map (·.range.start) = some range.start)
    (stop : middle.getLast?.map (·.range.stop) = some range.stop) :
    ∃ first part last, text = first ++ part ++ last ∧
      range = ⟨first.width, first.width + part.width⟩ ∧
      PrintsKinds (before.map (·.kind)) first ∧ PrintsKinds (after.map (·.kind)) last := by
  have placed := placed_tokenize known
  obtain ⟨token, isFirst, starts⟩ := Option.map_eq_some_iff.1 start
  obtain ⟨middle, rfl⟩ : ∃ more, middle = token :: more := by
    cases middle with
    | nil => cases isFirst
    | cons first more => exact ⟨more, by rw [Option.some.inj isFirst]⟩
  rw [tokens, List.append_assoc, List.cons_append] at placed
  obtain ⟨first, _, rfl, here, prints, placed⟩ := placed.cut_before
  rw [← List.cons_append] at placed
  obtain ⟨part, last, rfl, there, prints'⟩ := placed.cut_behind
  refine ⟨first, part, last, by simp, ?_, prints, prints'⟩
  rw [stop, Option.getD_some] at there
  obtain ⟨_, _⟩ := range
  simp only [ByteRange.mk.injEq] at starts there ⊢
  omega

theorem map_kind_tokenize {kinds : List TokenKind} {text : Text} (h : PrintsKinds kinds text)
    (apart : kinds.IsChain fun k k' => k.isOperand = true → k'.isOperand = false) :
    (Token.tokenize text).map (·.kind) = kinds := by
  obtain ⟨words, rfl, prints⟩ := h
  apply map_kind_of_spells
  apply prints.spells_tokenize
  rw [List.isChain_map] at apart
  refine apart.imp ?_
  intro w w' chain
  rwa [w.isOperand_kind, w'.isOperand_kind] at chain

end Arith

end ParseTree
