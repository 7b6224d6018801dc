import Mathlib.Data.List.Chain
import ParseTree.Proofs.Arith.Tokens

/-!
# Words and the texts that print them

A word is a token by its kind and text, wherever it stands.  A text prints a list
of words if it has them in order and only layout around them.  Numerals and names
may not touch each other, but no layout is needed beside an operator or a
parenthesis; a text that prints words kept apart in this way is cut into just
these words.
-/

namespace ParseTree

namespace Arith

def isNumeral (text : Text) : Bool :=
  !(text.takeWhile Char.isDigit).isEmpty &&
    match text.dropWhile Char.isDigit with
    | [] => true
    | '.' :: fraction => !fraction.isEmpty && fraction.all Char.isDigit
    | _ => false

def isName : Text → Bool
  | [] => false
  | c :: rest => isWordStart c && rest.all isWordRest

structure Numeral where
  text : Text
  numeral : isNumeral text = true
  deriving DecidableEq

structure Name where
  text : Text
  name : isName text = true
  deriving DecidableEq

inductive Word where
  | numeral (n : Numeral)
  | name (v : Name)
  | operator (op : Operator)
  | openParen
  | closeParen
  deriving DecidableEq

namespace Word

def kind : Word → TokenKind
  | .numeral _ => .number
  | .name _ => .variable
  | .operator op => .operator op
  | .openParen => .openParen
  | .closeParen => .closeParen

def text : Word → Text
  | .numeral n => n.text
  | .name v => v.text
  | .operator op => op.symbol.toList
  | .openParen => ['(']
  | .closeParen => [')']

def isOperand : Word → Bool
  | .numeral _ | .name _ => true
  | .operator _ | .openParen | .closeParen => false

end Word

def TokenKind.isOperand : TokenKind → Bool
  | .number | .variable => true
  | .operator _ | .openParen | .closeParen | .unknown => false

theorem Word.isOperand_kind (w : Word) : w.kind.isOperand = w.isOperand := by
  cases w <;> rfl

def Apart (w w' : Word) : Prop := w.isOperand = true → w'.isOperand = false

inductive Prints : List Word → Text → Prop
  | nil {gap : Text} : (∀ c ∈ gap, Text.isLayout c = true) → Prints [] gap
  | cons {gap text : Text} (w : Word) {words : List Word} :
      (∀ c ∈ gap, Text.isLayout c = true) → Prints words text →
      Prints (w :: words) (gap ++ w.text ++ text)

/-! ## Cutting off one word -/

/-- A text that goes on with none of the characters of numerals and names. -/
def Delimits (rest : Text) : Prop := ∀ c ∈ rest.head?, isWordRest c = false ∧ c ≠ '.'

theorem delimits_of_isLayout {c : Char} (h : Text.isLayout c = true) :
    isWordRest c = false ∧ c ≠ '.' ∧ c.isDigit = false := by
  simp only [Text.isLayout, Bool.or_eq_true, beq_iff_eq] at h
  rcases h with (((rfl | rfl) | rfl) | rfl) | rfl <;> decide

theorem isWordRest_of_isDigit {c : Char} (h : c.isDigit = true) : isWordRest c = true := by
  simp [isWordRest, Char.isAlphanum, h]

theorem isLayout_of_isWordRest {c : Char} (h : isWordRest c = true) :
    Text.isLayout c = false := by
  by_contra layout
  rw [Bool.not_eq_false] at layout
  rw [(delimits_of_isLayout layout).1] at h
  cases h

theorem isWordRest_of_isWordStart {c : Char} (h : isWordStart c = true) :
    isWordRest c = true := by
  simp only [isWordStart, Bool.or_eq_true] at h
  rcases h with alpha | underscore
  · simp [isWordRest, Char.isAlphanum, alpha]
  · simp [isWordRest, underscore]

theorem isDigit_of_isWordStart {c : Char} (h : isWordStart c = true) : c.isDigit = false := by
  refine Bool.eq_false_iff.2 fun digit => ?_
  have nine : c.val ≤ '9'.val := of_decide_eq_true (Bool.and_eq_true_iff.1 digit).2
  have high : c.val.toNat ≤ 57 := UInt32.le_iff_toNat_le.1 nine
  -- letters and the underscore come behind the digits
  rcases Bool.or_eq_true_iff.1 h with alpha | underscore
  · rcases Bool.or_eq_true_iff.1 alpha with upper | lower
    · have first : 'A'.val ≤ c.val := (of_decide_eq_true upper).1
      have low : 65 ≤ c.val.toNat := UInt32.le_iff_toNat_le.1 first
      omega
    · have first : 'a'.val ≤ c.val := of_decide_eq_true (Bool.and_eq_true_iff.1 lower).1
      have low : 97 ≤ c.val.toNat := UInt32.le_iff_toNat_le.1 first
      omega
  · rw [beq_iff_eq.1 underscore] at high
    exact absurd high (by decide)

theorem exists_of_isNumeral {text : Text} (h : isNumeral text = true) :
    ∃ c whole tail, text = c :: (whole ++ tail) ∧ c.isDigit = true ∧
      (∀ d ∈ whole, d.isDigit = true) ∧
      (tail = [] ∨ ∃ d more, tail = '.' :: d :: more ∧ d.isDigit = true ∧
        ∀ e ∈ more, e.isDigit = true) := by
  rw [isNumeral, Bool.and_eq_true] at h
  obtain ⟨nonempty, tail⟩ := h
  have digits : ∀ d ∈ text.takeWhile Char.isDigit, d.isDigit = true :=
    List.all_eq_true.1 List.all_takeWhile
  obtain ⟨c, whole, first⟩ := List.exists_cons_of_ne_nil
    (show text.takeWhile Char.isDigit ≠ [] by simpa using nonempty)
  rw [first] at digits
  refine ⟨c, whole, text.dropWhile Char.isDigit, ?_, digits c List.mem_cons_self,
    fun d mem => digits d (List.mem_cons_of_mem c mem), ?_⟩
  · rw [← List.cons_append, ← first, List.takeWhile_append_dropWhile]
  · split at tail
    · rename_i none
      exact Or.inl none
    · rename_i fraction point
      rw [Bool.and_eq_true] at tail
      obtain ⟨d, more, rfl⟩ := List.exists_cons_of_ne_nil
        (show fraction ≠ [] by simpa using tail.1)
      have all := List.all_eq_true.1 tail.2
      exact Or.inr ⟨d, more, point, all d List.mem_cons_self,
        fun e mem => all e (List.mem_cons_of_mem d mem)⟩
    · cases tail

theorem numberLength_append {whole tail rest : Text} (digits : ∀ d ∈ whole, d.isDigit = true)
    (fraction : tail = [] ∨ ∃ d more, tail = '.' :: d :: more ∧ d.isDigit = true ∧
      ∀ e ∈ more, e.isDigit = true)
    (delimits : Delimits rest) :
    numberLength (whole ++ tail ++ rest) = (whole ++ tail).length := by
  have noDigit : ∀ c ∈ rest.head?, c.isDigit = false := by
    intro c mem
    by_contra digit
    rw [Bool.not_eq_false] at digit
    have outside := (delimits c mem).1
    rw [isWordRest_of_isDigit digit] at outside
    cases outside
  rcases fraction with rfl | ⟨d, more, rfl, digit, others⟩
  · rw [List.append_nil, numberLength, takeWhile_append_eq digits noDigit, List.drop_left]
    split
    · exact absurd rfl (delimits '.' (by simp)).2
    · rfl
  · have behind : (whole ++ ('.' :: d :: (more ++ rest))).takeWhile Char.isDigit = whole := by
      apply takeWhile_append_eq digits
      intro c mem
      obtain rfl : '.' = c := by simpa using mem
      rfl
    rw [List.append_assoc, List.cons_append, List.cons_append, numberLength, behind,
      List.drop_left]
    simp [digit, takeWhile_append_eq others noDigit]
    omega

theorem lexicalRule_word (w : Word) {rest : Text} (h : w.isOperand = true → Delimits rest) :
    ∃ c body, w.text = c :: body ∧
      lexicalRule c (body ++ rest) = (some w.kind, body.length) := by
  cases w with
  | numeral n =>
      obtain ⟨c, whole, tail, text, digit, digits, fraction⟩ := exists_of_isNumeral n.numeral
      have solid := isLayout_of_isWordRest (isWordRest_of_isDigit digit)
      refine ⟨c, whole ++ tail, text, ?_⟩
      unfold lexicalRule
      rw [if_neg (by simp [solid]), if_pos digit, numberLength_append digits fraction (h rfl)]
      rfl
  | name v =>
      obtain ⟨text, isName⟩ := v
      cases text with
      | nil => cases isName
      | cons c body =>
          obtain ⟨start, others⟩ := Bool.and_eq_true_iff.1 isName
          have solid := isLayout_of_isWordRest (isWordRest_of_isWordStart start)
          have digit := isDigit_of_isWordStart start
          have whole := takeWhile_append_eq (List.all_eq_true.1 others)
            fun c mem => (h rfl c mem).1
          refine ⟨c, body, rfl, ?_⟩
          unfold lexicalRule
          rw [if_neg (by simp [solid]), if_neg (by simp [digit]), if_pos start, whole]
          rfl
  | operator op => cases op <;> exact ⟨_, [], rfl, rfl⟩
  | openParen => exact ⟨_, [], rfl, rfl⟩
  | closeParen => exact ⟨_, [], rfl, rfl⟩

/-! ## Cutting a printed text -/

/-- The tokens of a text that begins at `offset`, unknown text not yet joined. -/
def lexed (offset : Nat) (text : Text) : List Token :=
  (Lexeme.scanFrom lexicalRule offset 0 text).filterMap Token.ofLexeme?

theorem lexed_word (w : Word) {rest : Text} (h : w.isOperand = true → Delimits rest)
    (offset : Nat) :
    lexed offset (w.text ++ rest) =
      ⟨w.kind, ⟨offset, offset + w.text.width⟩⟩ :: lexed (offset + w.text.width) rest := by
  obtain ⟨c, body, text, rule⟩ := lexicalRule_word w h
  rw [lexed, text, List.cons_append, Lexeme.scanFrom_append rule, List.filterMap_cons]
  rfl

theorem lexed_dropWhile (offset : Nat) (text : Text) :
    lexed offset text =
      lexed (offset + Text.width (text.takeWhile Text.isLayout))
        (text.dropWhile Text.isLayout) := by
  cases text with
  | nil => rfl
  | cons c rest =>
      by_cases layout : Text.isLayout c = true
      · have split : rest.takeWhile Text.isLayout ++ rest.dropWhile Text.isLayout = rest :=
          List.takeWhile_append_dropWhile
        have rule : lexicalRule c (rest.takeWhile Text.isLayout ++ rest.dropWhile Text.isLayout) =
            (none, (rest.takeWhile Text.isLayout).length) := by
          unfold lexicalRule
          rw [split, if_pos layout]
        have scanned := Lexeme.scanFrom_append rule offset
        rw [split] at scanned
        rw [lexed, scanned, List.filterMap_cons_none rfl, List.takeWhile_cons_of_pos layout,
          List.dropWhile_cons_of_pos layout]
        rfl
      · rw [List.takeWhile_cons_of_neg layout, List.dropWhile_cons_of_neg layout]
        rfl

theorem lexed_gap {gap : Text} (layout : ∀ c ∈ gap, Text.isLayout c = true) (offset : Nat)
    (text : Text) : lexed offset (gap ++ text) = lexed (offset + gap.width) text := by
  rw [lexed_dropWhile offset (gap ++ text), List.takeWhile_append_of_pos layout,
    List.dropWhile_append_of_pos layout, lexed_dropWhile (offset + gap.width) text,
    Text.width_append, Nat.add_assoc]

def Spells (source : Text) (token : Token) (w : Word) : Prop :=
  token.kind = w.kind ∧ source.slice? token.range = some w.text

theorem Prints.delimits {words : List Word} {text : Text} (h : Prints words text)
    (symbol : ∀ w ∈ words.head?, w.isOperand = false) : Delimits text := by
  intro c mem
  cases h with
  | nil layout =>
      have first := layout c (List.mem_of_mem_head? mem)
      exact ⟨(delimits_of_isLayout first).1, (delimits_of_isLayout first).2.1⟩
  | @cons gap text w words layout behind =>
      cases gap with
      | nil =>
          have head := symbol w rfl
          cases w with
          | numeral | name => cases head
          | operator op =>
              cases op <;> obtain rfl : _ = c := Option.some.inj mem <;> decide
          | openParen | closeParen =>
              obtain rfl : _ = c := Option.some.inj mem
              decide
      | cons d gap =>
          obtain rfl : d = c := Option.some.inj mem
          have first := delimits_of_isLayout (layout d List.mem_cons_self)
          exact ⟨first.1, first.2.1⟩

theorem Prints.spells {words : List Word} {text : Text} (h : Prints words text)
    (apart : words.IsChain Apart) (before : Text) :
    List.Forall₂ (Spells (before ++ text)) (lexed before.width text) words := by
  induction h generalizing before with
  | @nil gap layout =>
      have nothing := lexed_gap layout before.width []
      rw [List.append_nil] at nothing
      rw [nothing]
      exact .nil
  | @cons gap text w words layout behind ih =>
      obtain ⟨next, others⟩ := List.isChain_cons.1 apart
      have delimited : w.isOperand = true → Delimits text := fun operand =>
        behind.delimits fun w' mem => next w' mem operand
      have start : before.width + gap.width = (before ++ gap).width := (Text.width_append _ _).symm
      have stop : (before ++ gap).width + w.text.width = (before ++ gap ++ w.text).width :=
        (Text.width_append _ _).symm
      have whole : before ++ (gap ++ w.text ++ text) = before ++ gap ++ w.text ++ text := by simp
      rw [whole, List.append_assoc gap, lexed_gap layout, lexed_word w delimited, start]
      refine .cons ⟨rfl, Text.slice?_append _ _ _⟩ ?_
      rw [stop]
      exact ih others (before ++ gap ++ w.text)

theorem map_kind_of_spells {source : Text} {tokens : List Token} {words : List Word}
    (h : List.Forall₂ (Spells source) tokens words) :
    tokens.map (·.kind) = words.map Word.kind := by
  induction h with
  | nil => rfl
  | cons spells _ ih => rw [List.map_cons, List.map_cons, spells.1, ih]

theorem Prints.spells_tokenize {words : List Word} {text : Text} (h : Prints words text)
    (apart : words.IsChain Apart) : List.Forall₂ (Spells text) (Token.tokenize text) words := by
  have spelled : List.Forall₂ (Spells text) (lexed 0 text) words := h.spells apart []
  have known : ∀ token ∈ lexed 0 text, token.isUnknown = false := by
    intro token mem
    have listed : token.kind ∈ words.map Word.kind :=
      map_kind_of_spells spelled ▸ List.mem_map_of_mem mem
    obtain ⟨w, -, kind⟩ := List.mem_map.1 listed
    cases w <;> simp [Token.isUnknown, ← kind, Word.kind]
  have same : Token.tokenize text = lexed 0 text := coalesce_eq_self known
  rwa [same]

end Arith

end ParseTree
