import ParseTree.Proofs.Query.Literals
import ParseTree.Proofs.Text.Change

/-!
# Tokens tile a query

For each kind of token a form says which texts it may have.  The tokens of a query stand in
it one behind the other from its start to its end.  Each is the longest text ahead that has
one of the forms, or it is garbage.  Garbage is made of pieces at which no text ahead has a
form: such a piece is as long as something of a form could still come of it, or one
character if there is no hope from the start.
-/

namespace ParseTree

/-- A regular form of texts, built from single characters. -/
inductive Form where
  | one (accepts : Char → Bool)
  | cat (first second : Form)
  | either (left right : Form)
  | many (body : Form)

namespace Form

def sign (c : Char) : Form := .one (· == c)

def plus (body : Form) : Form := .cat body (.many body)

def Fits : Form → Text → Prop
  | .one accepts, text => ∃ c, accepts c = true ∧ text = [c]
  | .cat first second, text => ∃ s t, text = s ++ t ∧ first.Fits s ∧ second.Fits t
  | .either left right, text => left.Fits text ∨ right.Fits text
  | .many body, text => ∃ pieces : List Text, text = pieces.flatten ∧ ∀ s ∈ pieces, body.Fits s

@[simp] theorem fits_sign {c : Char} {text : Text} : (sign c).Fits text ↔ text = [c] := by
  simp [sign, Fits]

theorem fits_cat_one {p : Char → Bool} {f : Form} {text : Text} :
    (cat (.one p) f).Fits text ↔ ∃ c rest, text = c :: rest ∧ p c = true ∧ f.Fits rest := by
  constructor
  · rintro ⟨_, rest, rfl, ⟨c, accepted, rfl⟩, fits⟩
    exact ⟨c, rest, rfl, accepted, fits⟩
  · rintro ⟨c, rest, rfl, accepted, fits⟩
    exact ⟨[c], rest, rfl, ⟨c, accepted, rfl⟩, fits⟩

theorem fits_cat_sign {c : Char} {f : Form} {text : Text} :
    (cat (sign c) f).Fits text ↔ ∃ rest, text = c :: rest ∧ f.Fits rest := by
  simp [sign, fits_cat_one]

theorem fits_many_nil (f : Form) : (many f).Fits [] := ⟨[], rfl, by simp⟩

theorem fits_many_append {f : Form} {s t : Text} (first : f.Fits s) (others : (many f).Fits t) :
    (many f).Fits (s ++ t) := by
  obtain ⟨pieces, rfl, all⟩ := others
  exact ⟨s :: pieces, rfl, List.forall_mem_cons.2 ⟨first, all⟩⟩

theorem fits_many_one {p : Char → Bool} {text : Text} :
    (many (.one p)).Fits text ↔ ∀ c ∈ text, p c = true := by
  constructor
  · rintro ⟨pieces, rfl, all⟩ c mem
    obtain ⟨piece, listed, mem⟩ := List.mem_flatten.1 mem
    obtain ⟨d, accepted, rfl⟩ := all piece listed
    rwa [List.mem_singleton.1 mem]
  · intro all
    induction text with
    | nil => exact fits_many_nil _
    | cons c text ih =>
        obtain ⟨first, others⟩ := List.forall_mem_cons.1 all
        exact fits_many_append (s := [c]) ⟨c, first, rfl⟩ (ih others)

end Form

namespace Query

/-! ## The forms of tokens -/

def stringItem : Form :=
  .either (.one fun c => c ≠ '"' && c ≠ '\\') (.cat (.sign '\\') (.one (· ≠ '\n')))

namespace TokenKind

def form? : TokenKind → Option Form
  | .parenOpen => some (.sign '(')
  | .parenClose => some (.sign ')')
  | .bracketOpen => some (.sign '[')
  | .bracketClose => some (.sign ']')
  | .colon => some (.sign ':')
  | .bang => some (.sign '!')
  | .question => some (.sign '?')
  | .star => some (.sign '*')
  | .plus => some (.sign '+')
  | .capture => some (.cat (.sign '@') (.many (.one isCaptureChar)))
  | .predicate => some (.cat (.sign '#') (.many (.one isPredicateChar)))
  | .identifier => some (.plus (.one isNameChar))
  | .string => some (.cat (.sign '"') (.cat (.many stringItem) (.sign '"')))
  | .blank => some (.plus (.one Text.isLayout))
  | .comment => some (.cat (.sign ';') (.many (.one (· ≠ '\n'))))
  | .garbage => none

def Accepts (kind : TokenKind) (text : Text) : Prop := ∃ form ∈ kind.form?, form.Fits text

end TokenKind

def Viable (text : Text) : Prop := ∃ (kind : TokenKind) (more : Text), kind.Accepts (text ++ more)

theorem TokenKind.Accepts.ne_nil {kind : TokenKind} {text : Text} (h : kind.Accepts text) :
    text ≠ [] := by
  rintro rfl
  obtain ⟨form, listed, fits⟩ := h
  cases kind <;> cases listed <;>
    simp [Form.plus, Form.fits_cat_one, Form.fits_cat_sign] at fits

/-! ## Strings -/

theorem fits_stringItem {text : Text} :
    stringItem.Fits text ↔
      (∃ c, c ≠ '"' ∧ c ≠ '\\' ∧ text = [c]) ∨ ∃ c, text = ['\\', c] ∧ c ≠ '\n' := by
  simp [stringItem, Form.Fits, and_assoc]

theorem stringBody_of_fits {body : Text} (h : (Form.many stringItem).Fits body) (rest : Text) :
    stringBody (body ++ '"' :: rest) = (true, body.length + 1) := by
  obtain ⟨pieces, rfl, all⟩ := h
  induction pieces with
  | nil => rfl
  | cons piece pieces ih =>
      obtain ⟨first, others⟩ := List.forall_mem_cons.1 all
      rw [List.flatten_cons, List.append_assoc]
      obtain ⟨c, noQuote, noEscape, rfl⟩ | ⟨c, rfl, noLine⟩ := fits_stringItem.1 first
      · rw [List.singleton_append, stringBody_plain noQuote noEscape, ih others]
        rfl
      · rw [List.cons_append, List.singleton_append, stringBody_escaped noLine, ih others]
        rfl

theorem fits_plain {c : Char} {body : Text} (noQuote : c ≠ '"') (noEscape : c ≠ '\\')
    (h : (Form.many stringItem).Fits body) : (Form.many stringItem).Fits (c :: body) :=
  Form.fits_many_append (s := [c]) (fits_stringItem.2 (.inl ⟨c, noQuote, noEscape, rfl⟩)) h

theorem fits_escaped {c : Char} {body : Text} (noLine : c ≠ '\n')
    (h : (Form.many stringItem).Fits body) : (Form.many stringItem).Fits ('\\' :: c :: body) :=
  Form.fits_many_append (s := ['\\', c]) (fits_stringItem.2 (.inr ⟨c, rfl, noLine⟩)) h

theorem exists_fits_of_closed {rest : Text} (closed : (stringBody rest).1 = true) :
    ∃ body more, rest = body ++ '"' :: more ∧ (Form.many stringItem).Fits body := by
  fun_induction stringBody rest with
  | case1 | case2 | case3 => cases closed
  | case4 c rest line inner length same ih =>
      rw [same] at ih
      obtain ⟨body, more, rfl, fits⟩ := ih closed
      exact ⟨'\\' :: c :: body, more, rfl, fits_escaped line fits⟩
  | case5 rest => exact ⟨[], rest, rfl, Form.fits_many_nil _⟩
  | case6 c rest noEnd noEscape noQuote inner length same ih =>
      rw [same] at ih
      obtain ⟨body, more, rfl, fits⟩ := ih closed
      exact ⟨c :: body, more, rfl, fits_plain noQuote (ne_backslash noEnd noEscape) fits⟩

theorem exists_fits_of_open {rest : Text} (opened : (stringBody rest).1 = false) :
    ∃ more, (Form.many stringItem).Fits (rest.take (stringBody rest).2 ++ more) := by
  -- a backslash that was taken last waits for any character but a line end
  have waiting : (Form.many stringItem).Fits (['\\'] ++ ['\\']) :=
    fits_escaped (by decide) (Form.fits_many_nil _)
  fun_induction stringBody rest with
  | case1 => exact ⟨[], Form.fits_many_nil _⟩
  | case2 | case3 => exact ⟨['\\'], waiting⟩
  | case4 c rest line inner length same ih =>
      rw [same] at ih
      obtain ⟨more, fits⟩ := ih opened
      exact ⟨more, fits_escaped line fits⟩
  | case5 => cases opened
  | case6 c rest noEnd noEscape noQuote inner length same ih =>
      rw [same] at ih
      obtain ⟨more, fits⟩ := ih opened
      exact ⟨more, fits_plain noQuote (ne_backslash noEnd noEscape) fits⟩

theorem stringBody_append_eq {text tail : Text}
    (within : (stringBody (text ++ tail)).2 < text.length) (more : Text) :
    stringBody (text ++ more) = stringBody (text ++ tail) := by
  fun_induction stringBody text with
  | case1 => cases within
  | case2 =>
      exfalso
      cases tail with
      | nil => simp [stringBody] at within
      | cons c tail =>
          by_cases line : c = '\n'
          · simp [stringBody, line] at within
          · simp [stringBody_escaped line] at within
  | case3 rest => simp [stringBody]
  | case4 c rest line inner length same ih =>
      simp only [List.cons_append, stringBody_escaped line] at within ⊢
      rw [ih (by simpa using within)]
  | case5 rest => rfl
  | case6 c rest noEnd noEscape noQuote inner length same ih =>
      have plain := ne_backslash noEnd noEscape
      simp only [List.cons_append, stringBody_plain noQuote plain] at within ⊢
      rw [ih (by simpa using within)]

/-! ## One lexeme -/

theorem length_le_takeWhile {p : Char → Bool} {piece rest : Text} (ahead : piece <+: rest)
    (all : ∀ c ∈ piece, p c = true) : piece.length ≤ (rest.takeWhile p).length := by
  obtain ⟨more, rfl⟩ := ahead
  rw [List.takeWhile_append_of_pos all, List.length_append]
  exact Nat.le_add_right _ _

theorem lexicalRule_of_accepts {kind : TokenKind} {c : Char} {piece rest : Text}
    (accepts : kind.Accepts (c :: piece)) (ahead : piece <+: rest) :
    (lexicalRule c rest).1 = kind ∧ piece.length ≤ (lexicalRule c rest).2 := by
  obtain ⟨form, listed, fits⟩ := accepts
  cases kind <;> cases listed
  case string =>
      obtain ⟨_, same, body, _, rfl, inside, ends⟩ := Form.fits_cat_sign.1 fits
      cases same
      cases Form.fits_sign.1 ends
      obtain ⟨more, rfl⟩ := ahead
      have closed := stringBody_of_fits inside more
      rw [lexicalRule_quote, List.append_assoc, List.singleton_append, closed]
      exact ⟨rfl, by simp⟩
  case identifier =>
      obtain ⟨_, _, same, name, all⟩ := Form.fits_cat_one.1 fits
      cases same
      unfold lexicalRule
      rw [if_neg (by simp [isLayout_of_isNameChar name]), if_pos name]
      exact ⟨rfl, length_le_takeWhile ahead (Form.fits_many_one.1 all)⟩
  case blank =>
      obtain ⟨_, _, same, layout, all⟩ := Form.fits_cat_one.1 fits
      cases same
      unfold lexicalRule
      rw [if_pos layout]
      exact ⟨rfl, length_le_takeWhile ahead (Form.fits_many_one.1 all)⟩
  case capture | predicate | comment =>
      obtain ⟨_, same, all⟩ := Form.fits_cat_sign.1 fits
      cases same
      exact ⟨rfl, length_le_takeWhile ahead (Form.fits_many_one.1 all)⟩
  -- every other form is one sign
  all_goals
    cases Form.fits_sign.1 fits
    exact ⟨rfl, Nat.zero_le _⟩

theorem fits_takeWhile (p : Char → Bool) (rest : Text) :
    (Form.many (.one p)).Fits (rest.take (rest.takeWhile p).length) := by
  rw [← List.prefix_iff_eq_take.1 (List.takeWhile_prefix p), Form.fits_many_one]
  exact List.all_eq_true.1 List.all_takeWhile

theorem accepts_lexicalRule {c : Char} {rest : Text} (known : (lexicalRule c rest).1 ≠ .garbage) :
    (lexicalRule c rest).1.Accepts (c :: rest.take (lexicalRule c rest).2) := by
  by_cases quote : c = '"'
  · subst quote
    rw [lexicalRule_quote] at known ⊢
    have closed : (stringBody rest).1 = true := by
      refine Bool.of_not_eq_false fun opened => known ?_
      simp [opened]
    obtain ⟨body, more, rfl, inside⟩ := exists_fits_of_closed closed
    rw [stringBody_of_fits inside]
    refine ⟨_, rfl, Form.fits_cat_sign.2 ⟨_, rfl, body, ['"'], ?_, inside, Form.fits_sign.2 rfl⟩⟩
    exact List.take_length_add_append 1
  unfold lexicalRule at known ⊢
  by_cases layout : Text.isLayout c = true
  · simp only [layout, if_true]
    exact ⟨_, rfl, Form.fits_cat_one.2 ⟨c, _, rfl, layout, fits_takeWhile _ _⟩⟩
  simp only [layout, Bool.false_eq_true, if_false] at known ⊢
  by_cases name : isNameChar c = true
  · simp only [name, if_true]
    exact ⟨_, rfl, Form.fits_cat_one.2 ⟨c, _, rfl, name, fits_takeWhile _ _⟩⟩
  simp only [name, Bool.false_eq_true, if_false] at known ⊢
  split at known
  case h_10 | h_11 | h_12 =>
      exact ⟨_, rfl, Form.fits_cat_sign.2 ⟨_, rfl, fits_takeWhile _ _⟩⟩
  case h_13 => exact absurd rfl quote
  case h_14 => exact absurd rfl known
  all_goals exact ⟨_, rfl, Form.fits_sign.2 rfl⟩

theorem lexicalRule_of_garbage {c : Char} (noQuote : c ≠ '"') {rest : Text}
    (garbage : (lexicalRule c rest).1 = .garbage) (rest' : Text) :
    lexicalRule c rest' = (.garbage, 0) := by
  unfold lexicalRule at garbage ⊢
  by_cases layout : Text.isLayout c = true
  · simp only [layout, if_true] at garbage
    cases garbage
  simp only [layout, Bool.false_eq_true, if_false] at garbage ⊢
  by_cases name : isNameChar c = true
  · simp only [name, if_true] at garbage
    cases garbage
  simp only [name, Bool.false_eq_true, if_false] at garbage ⊢
  split at garbage
  case h_13 => exact absurd rfl noQuote
  case h_14 => rfl
  all_goals cases garbage

/-- A piece of garbage at the head of `ahead`: nothing there has the form of a token, and the
piece is the longest text there of which one could still have come. -/
structure Broken (ahead piece : Text) : Prop where
  head : piece <+: ahead
  nonempty : piece ≠ []
  refused : ∀ (kind : TokenKind) (text : Text), text <+: ahead → ¬ kind.Accepts text
  longest : ∀ text, text <+: ahead → Viable text → text.length ≤ piece.length
  viable : Viable piece ∨ piece.length = 1

theorem refused_of_garbage {c : Char} {rest : Text} (garbage : (lexicalRule c rest).1 = .garbage)
    (kind : TokenKind) {text : Text} (ahead : text <+: c :: rest) : ¬ kind.Accepts text := by
  intro accepts
  obtain ⟨d, piece, rfl⟩ := List.exists_cons_of_ne_nil accepts.ne_nil
  obtain ⟨rfl, inside⟩ := List.cons_prefix_cons.1 ahead
  obtain ⟨same, -⟩ := lexicalRule_of_accepts accepts inside
  obtain ⟨form, listed, -⟩ := accepts
  rw [← same, garbage] at listed
  cases listed

theorem length_le_of_open {rest text : Text} (opened : (stringBody rest).1 = false)
    (ahead : text <+: rest) (viable : Viable ('"' :: text)) :
    text.length ≤ (stringBody rest).2 := by
  obtain ⟨kind, more, accepts⟩ := viable
  obtain ⟨tail, rfl⟩ := ahead
  refine Nat.le_of_not_lt fun within => ?_
  have garbage : (lexicalRule '"' (text ++ more)).1 = .garbage := by
    rw [lexicalRule_quote, stringBody_append_eq within more, opened]
    rfl
  exact refused_of_garbage garbage kind List.prefix_rfl accepts

theorem viable_of_open {rest : Text} (opened : (stringBody rest).1 = false) :
    Viable ('"' :: rest.take (stringBody rest).2) := by
  obtain ⟨more, fits⟩ := exists_fits_of_open opened
  refine ⟨.string, more ++ ['"'], _, rfl, Form.fits_cat_sign.2 ⟨_, rfl, ?_⟩⟩
  exact ⟨_, _, (List.append_assoc _ _ _).symm, fits, Form.fits_sign.2 rfl⟩

theorem not_viable_of_garbage {c : Char} (noQuote : c ≠ '"') {rest : Text}
    (garbage : (lexicalRule c rest).1 = .garbage) (text : Text) : ¬ Viable (c :: text) := by
  rintro ⟨kind, more, accepts⟩
  have none : (lexicalRule c (text ++ more)).1 = .garbage := by
    rw [lexicalRule_of_garbage noQuote garbage]
  exact refused_of_garbage none kind List.prefix_rfl accepts

theorem broken_lexicalRule {c : Char} {rest : Text}
    (garbage : (lexicalRule c rest).1 = .garbage) :
    Broken (c :: rest) (c :: rest.take (lexicalRule c rest).2) := by
  have head : c :: rest.take (lexicalRule c rest).2 <+: c :: rest :=
    List.cons_prefix_cons.2 ⟨rfl, List.take_prefix _ _⟩
  by_cases quote : c = '"'
  · subst quote
    have opened : (stringBody rest).1 = false := by
      refine Bool.eq_false_iff.2 fun closed => ?_
      simp [lexicalRule_quote, closed] at garbage
    refine ⟨head, List.cons_ne_nil _ _, fun kind _ => refused_of_garbage garbage kind, ?_,
      .inl (viable_of_open opened)⟩
    rintro (_ | ⟨d, text⟩) ahead viable
    · exact Nat.zero_le _
    · obtain ⟨rfl, inside⟩ := List.cons_prefix_cons.1 ahead
      rw [lexicalRule_quote, List.length_cons, List.length_cons,
        List.length_take_of_le (stringBody_le rest)]
      exact Nat.succ_le_succ (length_le_of_open opened inside viable)
  · refine ⟨head, List.cons_ne_nil _ _, fun kind _ => refused_of_garbage garbage kind, ?_, ?_⟩
    · rintro (_ | ⟨d, text⟩) ahead viable
      · exact Nat.zero_le _
      · obtain ⟨rfl, -⟩ := List.cons_prefix_cons.1 ahead
        exact absurd viable (not_viable_of_garbage quote garbage text)
    · rw [lexicalRule_of_garbage quote garbage rest]
      exact .inr rfl

/-! ## All tokens -/

structure IsLongest (kind : TokenKind) (text rest : Text) : Prop where
  accepts : kind.Accepts text
  longest : ∀ (other : TokenKind) (taken : Text), taken <+: text ++ rest → other.Accepts taken →
    taken.length ≤ text.length

inductive Garbled : Text → Text → Prop
  | piece {piece rest : Text} : Broken (piece ++ rest) piece → Garbled piece rest
  | more {piece text rest : Text} :
      Broken (piece ++ (text ++ rest)) piece → Garbled text rest → Garbled (piece ++ text) rest

theorem Garbled.append {text more rest : Text} (h : Garbled text (more ++ rest))
    (others : Garbled more rest) : Garbled (text ++ more) rest := by
  generalize behind : more ++ rest = rest' at h
  induction h with
  | piece broken =>
      subst behind
      exact .more broken others
  | @more piece text _ broken _ ih =>
      subst behind
      rw [List.append_assoc]
      refine .more ?_ (ih rfl)
      rwa [List.append_assoc]

def Token.Stands (t : Token) (rest : Text) : Prop :=
  if t.isGarbage then Garbled t.text rest else IsLongest t.kind t.text rest

def Tiled : Nat → Text → List Token → Prop
  | _, text, [] => text = []
  | offset, text, t :: ts =>
      t.start = offset ∧ t.text ≠ [] ∧
        ∃ rest, text = t.text ++ rest ∧ t.Stands rest ∧ Tiled (offset + t.text.width) rest ts

theorem stands_lexicalRule {c : Char} {rest : Text} {kind : TokenKind} {length : Nat}
    (rule : lexicalRule c rest = (kind, length)) (offset : Nat) :
    Token.Stands ⟨kind, offset, c :: rest.take length⟩ (rest.drop length) := by
  have whole : c :: rest.take length ++ rest.drop length = c :: rest := by
    rw [List.cons_append, List.take_append_drop]
  unfold Token.Stands
  split
  · rename_i garbage
    have broken := @broken_lexicalRule c rest (by simpa [Token.isGarbage, rule] using garbage)
    rw [rule] at broken
    exact .piece (whole ▸ broken)
  · rename_i solid
    have accepts := @accepts_lexicalRule c rest (by simpa [Token.isGarbage, rule] using solid)
    rw [rule] at accepts
    refine ⟨accepts, ?_⟩
    rw [whole]
    intro other taken ahead fits
    obtain ⟨d, piece, rfl⟩ := List.exists_cons_of_ne_nil fits.ne_nil
    obtain ⟨rfl, inside⟩ := List.cons_prefix_cons.1 ahead
    have most := (lexicalRule_of_accepts fits inside).2
    rw [rule] at most
    have all := inside.length_le
    rw [List.length_cons, List.length_cons, List.length_take]
    omega

theorem tiled_scanFrom (offset : Nat) (text : Text) :
    Tiled offset text (Lexeme.scanFrom lexicalRule offset 0 text) := by
  induction size : text.length using Nat.strongRecOn generalizing offset text with
  | ind length ih =>
      cases text with
      | nil => simp [Lexeme.scanFrom, Tiled]
      | cons c rest =>
          obtain ⟨⟨kind, more⟩, rule⟩ : ∃ cut, lexicalRule c rest = cut := ⟨_, rfl⟩
          have shorter : (rest.drop more).length < length := by
            rw [← size, List.length_drop, List.length_cons]
            omega
          rw [Lexeme.scanFrom_cons rule]
          exact ⟨rfl, List.cons_ne_nil _ _, rest.drop more, by simp,
            stands_lexicalRule rule offset, ih _ shorter _ _ rfl⟩

theorem Tiled.join {offset : Nat} {text : Text} {t u : Token} {ts : List Token}
    (h : Tiled offset text (t :: u :: ts)) (garbage : t.isGarbage = true)
    (garbage' : u.isGarbage = true) : Tiled offset text (t.join u :: ts) := by
  obtain ⟨start, nonempty, _, rfl, stands, -, -, rest, rfl, stands', behind⟩ := h
  refine ⟨start, by simp [Token.join, nonempty], rest, by simp [Token.join], ?_, ?_⟩
  · have joined : (t.join u).isGarbage = true := garbage
    rw [Token.Stands, if_pos garbage] at stands
    rw [Token.Stands, if_pos garbage'] at stands'
    rw [Token.Stands, if_pos joined]
    exact stands.append stands'
  · simpa [Token.join, Nat.add_assoc] using behind

theorem Tiled.coalesce {offset : Nat} {text : Text} {ts : List Token}
    (h : Tiled offset text ts) :
    Tiled offset text (coalesce Token.isGarbage Token.join ts) := by
  induction ts generalizing offset text with
  | nil => exact h
  | cons t ts ih =>
      obtain ⟨start, nonempty, rest, rfl, stands, behind⟩ := h
      have tiled : Tiled offset (t.text ++ rest)
          (t :: ParseTree.coalesce Token.isGarbage Token.join ts) :=
        ⟨start, nonempty, rest, rfl, stands, ih behind⟩
      rw [ParseTree.coalesce]
      cases later : ParseTree.coalesce Token.isGarbage Token.join ts with
      | nil => rwa [later] at tiled
      | cons u us =>
          rw [later] at tiled
          dsimp only
          split
          · rename_i both
            obtain ⟨garbage, garbage'⟩ := Bool.and_eq_true_iff.1 both
            exact tiled.join garbage garbage'
          · exact tiled

theorem tiled_tokenize (source : Text) : Tiled 0 source (Token.tokenize source) :=
  (tiled_scanFrom 0 source).coalesce

/-- The spans of tokens cover a source without gap or overlap; each token but garbage is the
longest text ahead of its start that has the form of a token, and garbage is all the text up to
the next token. -/
structure Tiling (source : Text) (tokens : List Token) : Prop where
  nonempty : ∀ t ∈ tokens, t.start < t.stop
  first : ∀ t ∈ tokens.head?, t.start = 0
  adjacent : tokens.IsChain fun t u => t.stop = u.start
  last : (tokens.map Lexeme.stop).getLastD 0 = source.width
  boundary : ∀ t ∈ tokens, source.isBoundary t.start = true ∧ source.isBoundary t.stop = true
  apart : tokens.IsChain fun t u => ¬ (t.isGarbage = true ∧ u.isGarbage = true)
  longest : ∀ t ∈ tokens, t.isGarbage = false → ∃ before rest,
    source = before ++ (t.text ++ rest) ∧ t.start = before.width ∧ IsLongest t.kind t.text rest
  garbled : ∀ t ∈ tokens, t.isGarbage = true → ∃ before rest,
    source = before ++ (t.text ++ rest) ∧ t.start = before.width ∧ Garbled t.text rest

theorem Tiled.of_mem {before text : Text} {ts : List Token} (h : Tiled before.width text ts)
    {t : Token} (mem : t ∈ ts) :
    t.text ≠ [] ∧ ∃ front rest, before ++ text = front ++ (t.text ++ rest) ∧
      t.start = front.width ∧ t.Stands rest := by
  induction ts generalizing before text with
  | nil => cases mem
  | cons u us ih =>
      obtain ⟨start, nonempty, rest, rfl, stands, behind⟩ := h
      rcases List.mem_cons.1 mem with rfl | later
      · exact ⟨nonempty, before, rest, rfl, start, stands⟩
      · rw [← List.append_assoc]
        refine ih ?_ later
        rwa [Text.width_append]

theorem Tiled.start_of_head? {offset : Nat} {text : Text} {ts : List Token}
    (h : Tiled offset text ts) : ∀ t ∈ ts.head?, t.start = offset := by
  cases ts with
  | nil => simp
  | cons u us => simpa using h.1

theorem Tiled.isChain {offset : Nat} {text : Text} {ts : List Token} (h : Tiled offset text ts) :
    ts.IsChain fun t u => t.stop = u.start := by
  induction ts generalizing offset text with
  | nil => exact .nil
  | cons t ts ih =>
      obtain ⟨start, -, rest, rfl, -, behind⟩ := h
      refine List.isChain_cons.2 ⟨?_, ih behind⟩
      intro u next
      rw [behind.start_of_head? u next, Lexeme.stop, start]

theorem Tiled.getLastD_stop {offset : Nat} {text : Text} {ts : List Token}
    (h : Tiled offset text ts) : (ts.map Lexeme.stop).getLastD offset = offset + text.width := by
  induction ts generalizing offset text with
  | nil =>
      obtain rfl : text = [] := h
      rfl
  | cons t ts ih =>
      obtain ⟨start, -, rest, rfl, -, behind⟩ := h
      rw [List.map_cons, List.getLastD_cons, Lexeme.stop, start, ih behind, Text.width_append,
        Nat.add_assoc]

theorem Tiled.exists_rest {source : Text} {ts : List Token} (h : Tiled 0 source ts) {t : Token}
    (mem : t ∈ ts) :
    t.text ≠ [] ∧ ∃ before rest, source = before ++ (t.text ++ rest) ∧
      t.start = before.width ∧ t.Stands rest :=
  @Tiled.of_mem [] source ts h t mem

/-- Tokens tile their source, whatever it is. -/
theorem tiling_tokenize (source : Text) : Tiling source (Token.tokenize source) := by
  have tiled := tiled_tokenize source
  refine
    { nonempty := ?_
      first := tiled.start_of_head?
      adjacent := tiled.isChain
      last := by rw [tiled.getLastD_stop, Nat.zero_add]
      boundary := ?_
      apart := isChain_coalesce _ _ _
      longest := ?_
      garbled := ?_ }
  · intro t mem
    have size := Text.width_pos (tiled.exists_rest mem).1
    exact Nat.lt_add_of_pos_right size
  · intro t mem
    obtain ⟨-, before, rest, whole, start, -⟩ := tiled.exists_rest mem
    rw [whole, ← List.append_assoc, Lexeme.stop, start]
    exact Text.isBoundary_cuts before t.text rest
  · intro t mem solid
    obtain ⟨-, before, rest, whole, start, stands⟩ := tiled.exists_rest mem
    rw [Token.Stands, if_neg (by simp [solid])] at stands
    exact ⟨before, rest, whole, start, stands⟩
  · intro t mem garbage
    obtain ⟨-, before, rest, whole, start, stands⟩ := tiled.exists_rest mem
    rw [Token.Stands, if_pos garbage] at stands
    exact ⟨before, rest, whole, start, stands⟩

end Query

end ParseTree
