import ParseTree.Proofs.Arith.Kinds
import ParseTree.Proofs.Arith.Words

/-!
# Layout between tokens

Layout that is put into a text, anywhere but inside of a number or a variable, changes
neither the kinds of its tokens nor the form of its tree.  Where a rule stops at or before
the place of the insertion, it stops there in both texts: layout goes on with neither a
digit nor a letter nor a point.  Unknown text may be cut in two, but its parts are joined
again across the layout.
-/

namespace ParseTree.Arith

theorem map_kind_tokenize_eq (text : Text) :
    (Token.tokenize text).map (·.kind) =
      coalesce (· == .unknown) (fun kind _ => kind) ((lexed 0 text).map (·.kind)) := by
  rw [Token.tokenize, Lexeme.scan, ← lexed]
  apply map_coalesce
  · intro token
    rfl
  · intro token next
    rfl

theorem map_kind_lexed (offset : Nat) (text : Text) :
    (lexed offset text).map (·.kind) = (lexed 0 text).map (·.kind) := by
  have moved := Lexeme.scanFrom_moved lexicalRule offset 0 0 text
  rw [Nat.zero_add] at moved
  rw [lexed, lexed, moved, List.filterMap_map, List.map_filterMap, List.map_filterMap]
  congr 1
  funext lexeme
  rw [Function.comp_apply, Token.ofLexeme?, Token.ofLexeme?, Option.map_map, Option.map_map]
  rfl

theorem TokenKind.isOperand_iff {kind : TokenKind} :
    kind.isOperand = true ↔ kind = .number ∨ kind = .variable := by
  cases kind <;> simp [isOperand]

/-! ## Rules that stop before the layout -/

def fractionLength : Text → Nat
  | '.' :: digit :: more =>
      if digit.isDigit then 2 + (more.takeWhile Char.isDigit).length else 0
  | _ => 0

theorem numberLength_eq (rest : Text) :
    numberLength rest = (rest.takeWhile Char.isDigit).length +
      fractionLength (rest.drop (rest.takeWhile Char.isDigit).length) := by
  rw [numberLength]
  generalize rest.drop (rest.takeWhile Char.isDigit).length = tail
  fun_cases fractionLength tail with
  | case1 digit more isDigit => simp [isDigit, Nat.add_assoc]
  | case2 digit more other => simp [other]
  | case3 _ other =>
      split
      · exact (other _ _ rfl).elim
      · rfl

theorem fractionLength_le (tail : Text) : fractionLength tail ≤ tail.length := by
  fun_cases fractionLength tail with
  | case1 digit more isDigit =>
      have digits : (more.takeWhile Char.isDigit).length ≤ more.length :=
        (List.takeWhile_sublist _).length_le
      rw [List.length_cons, List.length_cons]
      omega
  | case2 | case3 => exact Nat.zero_le _

theorem fractionLength_of_other {tail : Text}
    (other : ∀ digit more, tail = '.' :: digit :: more → digit.isDigit = false) :
    fractionLength tail = 0 := by
  fun_cases fractionLength tail with
  | case1 digit more isDigit =>
      rw [other digit more rfl] at isDigit
      cases isDigit
  | case2 | case3 => rfl

theorem fractionLength_of_lt_two {tail : Text} (short : fractionLength tail < 2) :
    fractionLength tail = 0 := by
  revert short
  fun_cases fractionLength tail with
  | case1 digit more isDigit =>
      intro short
      omega
  | case2 | case3 => exact fun _ => rfl

theorem numberLength_le (rest : Text) : numberLength rest ≤ rest.length := by
  have digits : (rest.takeWhile Char.isDigit).length ≤ rest.length :=
    (List.takeWhile_sublist _).length_le
  have fraction := fractionLength_le (rest.drop (rest.takeWhile Char.isDigit).length)
  rw [List.length_drop] at fraction
  rw [numberLength_eq]
  omega

theorem exists_lexicalRule {c : Char} (solid : Text.isLayout c = false) (rest : Text) :
    ∃ kind more, lexicalRule c rest = (some kind, more) ∧ more ≤ rest.length ∧
      (kind.isOperand = true ∨ more = 0) := by
  unfold lexicalRule
  rw [if_neg (by simp [solid])]
  split
  · exact ⟨_, _, rfl, numberLength_le rest, Or.inl rfl⟩
  · split
    · exact ⟨_, _, rfl, (List.takeWhile_sublist _).length_le, Or.inl rfl⟩
    · split <;> exact ⟨_, 0, rfl, Nat.zero_le _, Or.inr rfl⟩

theorem lexed_cons {c : Char} {body rest : Text} {kind : TokenKind} {more : Nat}
    (rule : lexicalRule c (body ++ rest) = (some kind, more)) (fits : more ≤ body.length)
    (offset : Nat) :
    lexed offset (c :: (body ++ rest)) =
      ⟨kind, ⟨offset, offset + Text.width (c :: body.take more)⟩⟩ ::
        lexed (offset + Text.width (c :: body.take more)) (body.drop more ++ rest) := by
  rw [lexed, Lexeme.scanFrom_cons rule, List.take_append_of_le_length fits,
    List.drop_append_of_le_length fits, List.filterMap_cons]
  rfl

theorem exists_straddling {c : Char} {body rest : Text} {kind : TokenKind} {more : Nat}
    (rule : lexicalRule c (body ++ rest) = (some kind, more))
    (within : more ≤ (body ++ rest).length) (longer : body.length < more) (offset : Nat) :
    ∃ token ∈ lexed offset (c :: (body ++ rest)), token.kind = kind ∧
      token.range.start < offset + Text.width (c :: body) ∧
      offset + Text.width (c :: body) < token.range.stop := by
  refine ⟨⟨kind, ⟨offset, offset + Text.width (c :: (body ++ rest).take more)⟩⟩, ?_, rfl, ?_, ?_⟩
  · rw [lexed, Lexeme.scanFrom_cons rule, List.filterMap_cons]
    exact List.mem_cons_self
  · have size := c.utf8Size_pos
    show offset < offset + Text.width (c :: body)
    rw [Text.width_cons]
    omega
  · have rest_ne : rest.take (more - body.length) ≠ [] := by
      rw [List.length_append] at within
      rw [Ne, List.take_eq_nil_iff, ← List.length_eq_zero_iff]
      omega
    have size := Text.width_pos rest_ne
    rw [List.take_append, List.take_of_length_le (by omega), Text.width_cons, Text.width_cons,
      Text.width_append]
    dsimp only
    omega

section Insertion

variable {gap : Text} (layout : ∀ c ∈ gap, Text.isLayout c = true)

include layout

theorem fractionLength_insert {body rest : Text}
    (fits : fractionLength (body ++ rest) ≤ body.length) :
    fractionLength (body ++ (gap ++ rest)) = fractionLength (body ++ rest) := by
  cases gap with
  | nil => rfl
  | cons first gap =>
      obtain ⟨-, noPoint, noDigit⟩ := delimits_of_isLayout (layout first List.mem_cons_self)
      -- the layout stands before the point, between the point and the digit, or behind both
      match body with
      | [] =>
          rw [fractionLength_of_lt_two (Nat.lt_of_le_of_lt fits Nat.two_pos)]
          apply fractionLength_of_other
          intro digit more same
          exact absurd (List.cons.inj same).1 noPoint
      | [c] =>
          rw [fractionLength_of_lt_two (Nat.lt_of_le_of_lt fits Nat.one_lt_two)]
          apply fractionLength_of_other
          intro digit more same
          obtain rfl : first = digit := (List.cons.inj (List.cons.inj same).2).1
          exact noDigit
      | c :: d :: body =>
          change fractionLength (c :: d :: (body ++ (first :: gap ++ rest))) =
            fractionLength (c :: d :: (body ++ rest))
          by_cases fraction : c = '.' ∧ d.isDigit = true
          · obtain ⟨rfl, digit⟩ := fraction
            rw [List.cons_append, List.cons_append, fractionLength, if_pos digit,
              List.length_cons, List.length_cons] at fits
            rw [fractionLength, fractionLength, if_pos digit, if_pos digit,
              takeWhile_insert (fun c mem => (delimits_of_isLayout (layout c mem)).2.2)]
            omega
          · rw [fractionLength_of_other, fractionLength_of_other]
            all_goals
              intro digit more same
              cases same
              simpa using fraction

theorem numberLength_insert {body rest : Text} (fits : numberLength (body ++ rest) ≤ body.length) :
    numberLength (body ++ (gap ++ rest)) = numberLength (body ++ rest) := by
  rw [numberLength_eq] at fits
  have digits : (body ++ (gap ++ rest)).takeWhile Char.isDigit =
      (body ++ rest).takeWhile Char.isDigit :=
    takeWhile_insert (fun c mem => (delimits_of_isLayout (layout c mem)).2.2) (by omega)
  rw [numberLength_eq, numberLength_eq, digits]
  generalize ((body ++ rest).takeWhile Char.isDigit).length = whole at fits
  rw [List.drop_append_of_le_length (by omega)] at fits ⊢
  rw [List.drop_append_of_le_length (by omega), fractionLength_insert layout]
  rw [List.length_drop]
  omega

theorem lexicalRule_insert {c : Char} {body rest : Text} {kind : TokenKind} {more : Nat}
    (rule : lexicalRule c (body ++ rest) = (some kind, more)) (fits : more ≤ body.length) :
    lexicalRule c (body ++ (gap ++ rest)) = (some kind, more) := by
  rw [← rule]
  unfold lexicalRule at rule ⊢
  split at rule
  · cases rule
  rename_i solid
  rw [if_neg solid, if_neg solid]
  split at rule
  · rename_i digit
    cases rule
    rw [if_pos digit, if_pos digit, numberLength_insert layout fits]
  rename_i noDigit
  rw [if_neg noDigit, if_neg noDigit]
  split at rule
  · rename_i start
    cases rule
    rw [if_pos start, if_pos start,
      takeWhile_insert (fun c mem => (delimits_of_isLayout (layout c mem)).1) fits]
  · rename_i noStart
    rw [if_neg noStart, if_neg noStart]

/-! ## Insertion -/

theorem map_kind_lexed_insert (before rest : Text) (offset : Nat)
    (outside : ∀ token ∈ lexed offset (before ++ rest), token.kind.isOperand = true →
      ¬ (token.range.start < offset + before.width ∧
        offset + before.width < token.range.stop)) :
    (lexed offset (before ++ (gap ++ rest))).map (·.kind) =
      (lexed offset (before ++ rest)).map (·.kind) := by
  -- by the length of `before`: its tokens are cut off from both texts in turn, and the one
  -- that would go on behind it is excluded
  match before with
  | [] =>
      rw [List.nil_append, List.nil_append, lexed_gap layout, map_kind_lexed,
        map_kind_lexed offset]
  | c :: body =>
      rw [List.cons_append] at outside
      rw [List.cons_append, List.cons_append]
      cases solid : Text.isLayout c with
      | true =>
          have first : ∀ d ∈ [c], Text.isLayout d = true := by simpa using solid
          have skip : ∀ text, lexed offset (c :: text) = lexed (offset + c.utf8Size) text :=
            lexed_gap first offset
          rw [skip] at outside
          rw [skip, skip]
          apply map_kind_lexed_insert body rest
          simpa only [Text.width_cons, Nat.add_assoc] using outside
      | false =>
          obtain ⟨kind, more, rule, within, short⟩ := exists_lexicalRule solid (body ++ rest)
          by_cases fits : more ≤ body.length
          · have width : offset + Text.width (c :: body) =
                offset + Text.width (c :: body.take more) + Text.width (body.drop more) := by
              rw [Nat.add_assoc, ← Text.width_append, List.cons_append, List.take_append_drop]
            rw [lexed_cons rule fits, width] at outside
            rw [lexed_cons rule fits, lexed_cons (lexicalRule_insert layout rule fits) fits,
              List.map_cons, List.map_cons]
            congr 1
            apply map_kind_lexed_insert (body.drop more) rest
            exact fun token mem => outside token (List.mem_cons_of_mem _ mem)
          · obtain ⟨token, mem, same, inside⟩ :=
              exists_straddling rule within (Nat.lt_of_not_le fits) offset
            have operand : kind.isOperand = true := short.resolve_right (by omega)
            exact (outside token mem (same ▸ operand) inside).elim
termination_by before.length

theorem map_kind_tokenize_insert (before rest : Text)
    (outside : ∀ token ∈ Token.tokenize (before ++ rest), token.kind.isOperand = true →
      ¬ (token.range.start < before.width ∧ before.width < token.range.stop)) :
    (Token.tokenize (before ++ gap ++ rest)).map (·.kind) =
      (Token.tokenize (before ++ rest)).map (·.kind) := by
  rw [map_kind_tokenize_eq, map_kind_tokenize_eq, List.append_assoc, map_kind_lexed_insert layout]
  intro token mem operand
  rw [Nat.zero_add]
  refine outside token (mem_coalesce mem ?_) operand
  obtain ⟨kind, range⟩ := token
  cases kind <;> first | rfl | cases operand

end Insertion

/-- Layout is of no account to the form of the tree: the kinds of the tokens decide it, and
they stay the same where layout is inserted outside of numbers and variables. -/
theorem form_of_layout :
    (∀ text other : Text,
      (Token.tokenize text).map (·.kind) = (Token.tokenize other).map (·.kind) →
        (arena text).size = (arena other).size ∧ (arena text).sexp 0 = (arena other).sexp 0) ∧
    ∀ (text gap : Text) (offset : Nat), text.isBoundary offset = true →
      (∀ token ∈ Token.tokenize text, token.kind = .number ∨ token.kind = .variable →
        ¬ (token.range.start < offset ∧ offset < token.range.stop)) →
      (∀ c ∈ gap, Text.isLayout c = true) →
      ∃ edited, text.splice? ⟨offset, offset⟩ gap = some edited ∧
        (Token.tokenize edited).map (·.kind) = (Token.tokenize text).map (·.kind) ∧
        (arena edited).size = (arena text).size ∧ (arena edited).sexp 0 = (arena text).sexp 0 := by
  refine ⟨fun text other => arena_of_same_kinds, ?_⟩
  intro text gap offset boundary outside layout
  obtain ⟨before, rest, rfl, rfl⟩ := Text.isBoundary_iff.1 boundary
  have kinds := map_kind_tokenize_insert layout before rest fun token mem operand =>
    outside token mem (TokenKind.isOperand_iff.1 operand)
  refine ⟨before ++ gap ++ rest, ?_, kinds, arena_of_same_kinds kinds⟩
  rw [Text.splice?, Text.split?_append]

theorem form_of_layout_unknown :
    ((arena (.ofString "1+$$")).size = (arena (.ofString "20 + $\t$")).size ∧
      (arena (.ofString "1+$$")).sexp 0 = (arena (.ofString "20 + $\t$")).sexp 0) ∧
    ∃ edited, (Text.ofString "(1.$$").splice? ⟨4, 4⟩ [' ', '\n'] = some edited ∧
      (Token.tokenize edited).map (·.kind) =
        (Token.tokenize (.ofString "(1.$$")).map (·.kind) ∧
      (arena edited).size = (arena (.ofString "(1.$$")).size ∧
      (arena edited).sexp 0 = (arena (.ofString "(1.$$")).sexp 0 :=
  ⟨form_of_layout.1 _ _ (by decide),
    form_of_layout.2 _ _ 4 (by decide) (by decide) (by simp [Text.isLayout])⟩

end ParseTree.Arith
