import Mathlib.Data.List.Forall2
import ParseTree.Proofs.Query.Grammar
import ParseTree.Proofs.Text.Scan

/-!
# Words of queries and the texts that print them

A word is a token by what it stands for: a sign, a name, or the text of a string.  A
string can be written in many ways, since most characters may be escaped or not.  A
text prints a list of words if it has them in order, with blanks and comments around
them; no gap is needed where the character behind a word cannot prolong it.  Such a
text is cut into just these words.
-/

namespace ParseTree.Query

/-! ## Strings -/

/-- How a text may be written between quotes.  A quote and a backslash need an
escape; `n` and `t` have another meaning behind one, and a line may not end in one. -/
inductive Quotes : Text → Text → Prop
  | nil : Quotes [] []
  | plain {c : Char} {text body : Text} :
      c ≠ '"' → c ≠ '\\' → Quotes text body → Quotes (c :: text) (c :: body)
  | escaped {c : Char} {text body : Text} :
      c ≠ 'n' → c ≠ 't' → c ≠ '\n' → Quotes text body → Quotes (c :: text) ('\\' :: c :: body)
  | newline {text body : Text} : Quotes text body → Quotes ('\n' :: text) ('\\' :: 'n' :: body)
  | tab {text body : Text} : Quotes text body → Quotes ('\t' :: text) ('\\' :: 't' :: body)

theorem stringBody_plain {c : Char} (noQuote : c ≠ '"') (noEscape : c ≠ '\\') (rest : Text) :
    stringBody (c :: rest) = ((stringBody rest).1, (stringBody rest).2 + 1) := by
  rw [stringBody]
  · rw [if_neg noQuote]
  · rintro rfl
    exact absurd rfl noEscape
  · rintro d rest rfl
    exact absurd rfl noEscape

theorem stringBody_escaped {c : Char} (noLine : c ≠ '\n') (rest : Text) :
    stringBody ('\\' :: c :: rest) = ((stringBody rest).1, (stringBody rest).2 + 2) := by
  rw [stringBody, if_neg noLine]

theorem unescape_plain {c : Char} (noEscape : c ≠ '\\') (rest : Text) :
    unescape (c :: rest) = c :: unescape rest := by
  rw [unescape]
  · rintro rfl
    exact absurd rfl noEscape
  · rintro d rest rfl
    exact absurd rfl noEscape

theorem ne_backslash {c : Char} {rest : Text} (noEnd : c = '\\' → rest = [] → False)
    (noEscape : ∀ d more, c = '\\' → rest = d :: more → False) : c ≠ '\\' := by
  intro escape
  cases rest with
  | nil => exact noEnd escape rfl
  | cons d more => exact noEscape d more escape rfl

theorem Quotes.stringBody_eq {text body : Text} (h : Quotes text body) (rest : Text) :
    stringBody (body ++ '"' :: rest) = (true, body.length + 1) := by
  induction h with
  | nil => rfl
  | plain noQuote noEscape _ ih =>
      rw [List.cons_append, stringBody_plain noQuote noEscape, ih]
      rfl
  | escaped _ _ noLine _ ih =>
      rw [List.cons_append, List.cons_append, stringBody_escaped noLine, ih]
      rfl
  | newline _ ih | tab _ ih =>
      rw [List.cons_append, List.cons_append, stringBody_escaped (by decide), ih]
      rfl

theorem Quotes.unescape_eq {text body : Text} (h : Quotes text body) : unescape body = text := by
  induction h with
  | nil => rfl
  | plain _ noEscape _ ih => rw [unescape_plain noEscape, ih]
  | escaped noNewline noTab _ _ ih => rw [unescape, if_neg noNewline, if_neg noTab, ih]
  | newline _ ih | tab _ ih => rw [unescape, ih]; rfl

theorem Quotes.unquote_eq {text body : Text} (h : Quotes text body) :
    unquote ('"' :: (body ++ ['"'])) = text := by
  rw [unquote, List.drop_one, List.tail_cons, List.dropLast_concat, h.unescape_eq]

theorem quotes_self {text : Text} (plain : ∀ c ∈ text, c ≠ '"' ∧ c ≠ '\\') :
    Quotes text text := by
  induction text with
  | nil => exact .nil
  | cons c rest ih =>
      obtain ⟨first, others⟩ := List.forall_mem_cons.1 plain
      exact .plain first.1 first.2 (ih others)

def quoted : Text → Text
  | [] => []
  | c :: rest =>
      (if c = '"' ∨ c = '\\' then ['\\', c]
        else if c = '\n' then ['\\', 'n']
        else if c = '\t' then ['\\', 't']
        else [c]) ++ quoted rest

theorem quotes_quoted (text : Text) : Quotes text (quoted text) := by
  induction text with
  | nil => exact .nil
  | cons c rest ih =>
      rw [quoted]
      split
      · rename_i special
        rcases special with rfl | rfl <;> exact .escaped (by decide) (by decide) (by decide) ih
      rename_i plain
      obtain ⟨noQuote, noEscape⟩ := not_or.1 plain
      split
      · rename_i newline
        exact newline ▸ .newline ih
      split
      · rename_i tab
        exact tab ▸ .tab ih
      · exact .plain noQuote noEscape ih

/-! ## Words -/

inductive Word where
  | parenOpen
  | parenClose
  | bracketOpen
  | bracketClose
  | colon
  | bang
  | question
  | name (name : String)
  | capture (name : String)
  | predicate (name : String)
  | string (text : Text)
  deriving DecidableEq, Repr

namespace Word

def kind : Word → TokenKind
  | .parenOpen => .parenOpen
  | .parenClose => .parenClose
  | .bracketOpen => .bracketOpen
  | .bracketClose => .bracketClose
  | .colon => .colon
  | .bang => .bang
  | .question => .question
  | .name _ => .identifier
  | .capture _ => .capture
  | .predicate _ => .predicate
  | .string _ => .string

def Written : Word → Text → Prop
  | .parenOpen, text => text = ['(']
  | .parenClose, text => text = [')']
  | .bracketOpen, text => text = ['[']
  | .bracketClose, text => text = [']']
  | .colon, text => text = [':']
  | .bang, text => text = ['!']
  | .question, text => text = ['?']
  | .name n, text => text = n.toList
  | .capture n, text => text = '@' :: n.toList
  | .predicate n, text => text = '#' :: n.toList
  | .string t, text => ∃ body, Quotes t body ∧ text = '"' :: (body ++ ['"'])

def render : Word → Text
  | .parenOpen => ['(']
  | .parenClose => [')']
  | .bracketOpen => ['[']
  | .bracketClose => [']']
  | .colon => [':']
  | .bang => ['!']
  | .question => ['?']
  | .name n => n.toList
  | .capture n => '@' :: n.toList
  | .predicate n => '#' :: n.toList
  | .string t => '"' :: (quoted t ++ ['"'])

theorem written_render (w : Word) : w.Written w.render := by
  cases w with
  | string t => exact ⟨quoted t, quotes_quoted t, rfl⟩
  | _ => rfl

def isWritable : Word → Bool
  | .name n => !n.toList.isEmpty && n.toList.all isNameChar
  | .capture n => n.toList.all isCaptureChar
  | .predicate n => n.toList.all isPredicateChar
  | _ => true

def prolongs : Word → Char → Bool
  | .name _, c => isNameChar c
  | .capture _, c => isCaptureChar c
  | .predicate _, c => isPredicateChar c
  | _, _ => false

end Word

theorem isLayout_of_isNameChar {c : Char} (h : isNameChar c = true) :
    Text.isLayout c = false := by
  refine Bool.eq_false_iff.2 fun layout => ?_
  simp only [Text.isLayout, Bool.or_eq_true, beq_iff_eq] at layout
  rcases layout with (((rfl | rfl) | rfl) | rfl) | rfl <;> simp [isNameChar] at h

theorem lexicalRule_written {w : Word} {piece rest : Text} (written : w.Written piece)
    (writable : w.isWritable = true) (ends : ∀ c ∈ rest.head?, w.prolongs c = false) :
    ∃ c body, piece = c :: body ∧ lexicalRule c (body ++ rest) = (w.kind, body.length) := by
  cases w with
  | name n =>
      obtain ⟨nonempty, all⟩ := Bool.and_eq_true_iff.1 writable
      obtain ⟨c, body, same⟩ := List.exists_cons_of_ne_nil
        (show n.toList ≠ [] by simpa using nonempty)
      rw [same, List.all_cons, Bool.and_eq_true] at all
      refine ⟨c, body, written.trans same, ?_⟩
      have solid := isLayout_of_isNameChar all.1
      unfold lexicalRule
      rw [if_neg (by simp [solid]), if_pos all.1,
        takeWhile_append_eq (List.all_eq_true.1 all.2) ends]
      rfl
  | capture n =>
      refine ⟨'@', n.toList, written, ?_⟩
      have whole := takeWhile_append_eq (List.all_eq_true.1 writable) ends
      exact congrArg (fun taken => (TokenKind.capture, taken.length)) whole
  | predicate n =>
      refine ⟨'#', n.toList, written, ?_⟩
      have whole := takeWhile_append_eq (List.all_eq_true.1 writable) ends
      exact congrArg (fun taken => (TokenKind.predicate, taken.length)) whole
  | string text =>
      obtain ⟨body, quotes, rfl⟩ := written
      refine ⟨'"', body ++ ['"'], rfl, ?_⟩
      have rule : lexicalRule '"' (body ++ '"' :: rest) =
          (if (stringBody (body ++ '"' :: rest)).1 then .string else .garbage,
            (stringBody (body ++ '"' :: rest)).2) := rfl
      rw [List.append_assoc, List.singleton_append, rule, quotes.stringBody_eq rest,
        List.length_append]
      rfl
  | parenOpen | parenClose | bracketOpen | bracketClose | colon | bang | question =>
      exact ⟨_, [], written, rfl⟩

/-! ## Gaps -/

/-- Blanks, and comments that end with their line. -/
inductive IsGap : Text → Prop
  | nil : IsGap []
  | layout {c : Char} {gap : Text} : Text.isLayout c = true → IsGap gap → IsGap (c :: gap)
  | comment {body gap : Text} :
      (∀ c ∈ body, c ≠ '\n') → IsGap gap → IsGap (';' :: (body ++ '\n' :: gap))

def lexed (offset : Nat) (text : Text) : List Token :=
  (Lexeme.scanFrom lexicalRule offset 0 text).filter fun t => !t.isTrivia

/-- Garbage is significant, so it would show among the significant tokens. -/
theorem solid_of_filter {ts : List Token}
    (solid : ∀ t ∈ ts.filter fun t => !t.isTrivia, t.isGarbage = false) :
    ∀ t ∈ ts, t.isGarbage = false := by
  intro t mem
  by_cases trivia : t.isTrivia = true
  · simp only [Token.isTrivia, Bool.or_eq_true, beq_iff_eq] at trivia
    rcases trivia with kind | kind <;> simp [Token.isGarbage, kind]
  · exact solid t (List.mem_filter.2 ⟨mem, by simpa using trivia⟩)

theorem significant_eq_lexed {source : Text}
    (solid : ∀ t ∈ lexed 0 source, t.isGarbage = false) :
    Token.significant source = lexed 0 source := by
  rw [Token.significant, Token.tokenize, Lexeme.scan, coalesce_eq_self (solid_of_filter solid),
    lexed]

theorem lexed_eq_significant {source : Text}
    (solid : ∀ t ∈ Token.significant source, t.isGarbage = false) :
    lexed 0 source = Token.significant source := by
  have scanned : Token.tokenize source = Lexeme.scan lexicalRule source :=
    @coalesce_eq_of_solid _ Token.isGarbage Token.join (fun _ _ => id) _ (solid_of_filter solid)
  rw [Token.significant, scanned]
  rfl

theorem lexed_dropWhile (offset : Nat) (text : Text) :
    lexed offset text =
      lexed (offset + Text.width (text.takeWhile Text.isLayout))
        (text.dropWhile Text.isLayout) := by
  cases text with
  | nil => rfl
  | cons c rest =>
      by_cases layout : Text.isLayout c = true
      · have split : rest.takeWhile Text.isLayout ++ rest.dropWhile Text.isLayout = rest :=
          List.takeWhile_append_dropWhile
        have rule : lexicalRule c (rest.takeWhile Text.isLayout ++ rest.dropWhile Text.isLayout) =
            (.blank, (rest.takeWhile Text.isLayout).length) := by
          unfold lexicalRule
          rw [split, if_pos layout]
        have scanned := Lexeme.scanFrom_append rule offset
        rw [split] at scanned
        rw [lexed, scanned, List.filter_cons_of_neg (by simp [Token.isTrivia]),
          List.takeWhile_cons_of_pos layout, List.dropWhile_cons_of_pos layout]
        rfl
      · rw [List.takeWhile_cons_of_neg layout, List.dropWhile_cons_of_neg layout]
        rfl

theorem lexed_layout {c : Char} (layout : Text.isLayout c = true) (offset : Nat) (text : Text) :
    lexed offset (c :: text) = lexed (offset + c.utf8Size) text := by
  rw [lexed_dropWhile offset (c :: text), lexed_dropWhile (offset + c.utf8Size) text,
    List.takeWhile_cons_of_pos layout, List.dropWhile_cons_of_pos layout, Text.width_cons,
    Nat.add_assoc]

theorem lexed_comment {body : Text} (oneLine : ∀ c ∈ body, c ≠ '\n') (offset : Nat)
    (text : Text) :
    lexed offset (';' :: (body ++ '\n' :: text)) =
      lexed (offset + Text.width (';' :: body)) ('\n' :: text) := by
  have rule : lexicalRule ';' (body ++ '\n' :: text) = (.comment, body.length) := by
    have whole : (body ++ '\n' :: text).takeWhile (· ≠ '\n') = body :=
      takeWhile_append_eq (by simpa using oneLine) (by simp)
    exact congrArg (fun taken => (TokenKind.comment, taken.length)) whole
  rw [lexed, Lexeme.scanFrom_append rule, List.filter_cons_of_neg (by simp [Token.isTrivia])]
  rfl

theorem IsGap.lexed_append {gap : Text} (h : IsGap gap) (offset : Nat) (text : Text) :
    lexed offset (gap ++ text) = lexed (offset + gap.width) text := by
  induction h generalizing offset with
  | nil => rfl
  | layout layout _ ih =>
      rw [List.cons_append, lexed_layout layout, ih, Text.width_cons, Nat.add_assoc]
  | comment oneLine _ ih =>
      rw [List.cons_append, List.append_assoc, List.cons_append, lexed_comment oneLine,
        lexed_layout (by decide), ih]
      simp only [Text.width_cons, Text.width_append, Nat.add_assoc]

/-! ## Printed words -/

inductive Prints : List Word → Text → Prop
  | nil {gap : Text} : IsGap gap → Prints [] gap
  | cons {gap piece text : Text} {w : Word} {words : List Word} :
      IsGap gap → w.Written piece → (∀ c ∈ text.head?, w.prolongs c = false) →
      Prints words text → Prints (w :: words) (gap ++ piece ++ text)

theorem Prints.layout {c : Char} {words : List Word} {text : Text}
    (layout : Text.isLayout c = true) (h : Prints words text) : Prints words (c :: text) := by
  cases h with
  | nil gap => exact .nil (.layout layout gap)
  | cons gap written ends printed => exact .cons (.layout layout gap) written ends printed

theorem Prints.word {w : Word} {words : List Word} {piece text : Text}
    (written : w.Written piece) (ends : ∀ c ∈ text.head?, w.prolongs c = false)
    (h : Prints words text) : Prints (w :: words) (piece ++ text) :=
  .cons .nil written ends h

theorem IsGap.not_prolongs {gap : Text} (h : IsGap gap) (w : Word) :
    ∀ c ∈ gap.head?, w.prolongs c = false := by
  intro c mem
  cases h with
  | nil => cases mem
  | layout layout _ =>
      obtain rfl := Option.some.inj mem
      simp only [Text.isLayout, Bool.or_eq_true, beq_iff_eq] at layout
      rcases layout with (((rfl | rfl) | rfl) | rfl) | rfl <;> cases w <;> rfl
  | comment _ _ =>
      obtain rfl := Option.some.inj mem
      cases w <;> rfl

def render : List (Text × Word) → Text
  | [] => []
  | (gap, w) :: spaced => gap ++ w.render ++ render spaced

theorem prints_render {spaced : List (Text × Word)} {last : Text}
    (gaps : ∀ x ∈ spaced, IsGap x.1) (apart : ∀ x ∈ spaced.tail, x.1 ≠ [])
    (closing : IsGap last) : Prints (spaced.map Prod.snd) (render spaced ++ last) := by
  induction spaced with
  | nil => exact .nil closing
  | cons x spaced ih =>
      obtain ⟨gap, w⟩ := x
      obtain ⟨first, others⟩ := List.forall_mem_cons.1 gaps
      have later := ih others fun x mem => apart x (List.mem_of_mem_tail mem)
      rw [render, List.append_assoc]
      refine .cons first w.written_render ?_ later
      cases spaced with
      | nil => exact closing.not_prolongs w
      | cons y spaced =>
          have next := (List.forall_mem_cons.1 others).1
          have solid := apart y List.mem_cons_self
          rw [render, List.append_assoc, List.append_assoc, List.head?_append_of_ne_nil _ solid]
          exact next.not_prolongs w

def Spells (t : Token) (w : Word) : Prop := t.kind = w.kind ∧ w.Written t.text

theorem lexed_written {w : Word} {piece rest : Text} (written : w.Written piece)
    (writable : w.isWritable = true) (ends : ∀ c ∈ rest.head?, w.prolongs c = false)
    (offset : Nat) :
    lexed offset (piece ++ rest) =
      ⟨w.kind, offset, piece⟩ :: lexed (offset + piece.width) rest := by
  obtain ⟨c, body, rfl, rule⟩ := lexicalRule_written written writable ends
  rw [lexed, List.cons_append, Lexeme.scanFrom_append rule, List.filter_cons_of_pos]
  · rfl
  · cases w <;> rfl

theorem Prints.spells {words : List Word} {text : Text} (h : Prints words text)
    (writable : ∀ w ∈ words, w.isWritable = true) (offset : Nat) :
    List.Forall₂ Spells (lexed offset text) words := by
  induction h generalizing offset with
  | nil gap =>
      have nothing := gap.lexed_append offset []
      rw [List.append_nil] at nothing
      rw [nothing]
      exact .nil
  | cons gap written ends _ ih =>
      obtain ⟨first, others⟩ := List.forall_mem_cons.1 writable
      rw [List.append_assoc, gap.lexed_append, lexed_written written first ends]
      exact .cons ⟨rfl, written⟩ (ih others _)

theorem map_kind_of_spells {tokens : List Token} {words : List Word}
    (h : List.Forall₂ Spells tokens words) : tokens.map Lexeme.kind = words.map Word.kind := by
  induction h with
  | nil => rfl
  | cons spells _ ih => rw [List.map_cons, List.map_cons, spells.1, ih]

theorem Prints.spells_significant {words : List Word} {text : Text} (h : Prints words text)
    (writable : ∀ w ∈ words, w.isWritable = true) :
    List.Forall₂ Spells (Token.significant text) words := by
  have spelled := h.spells writable 0
  have solid : ∀ t ∈ lexed 0 text, t.isGarbage = false := by
    intro t mem
    have listed : t.kind ∈ words.map Word.kind :=
      map_kind_of_spells spelled ▸ List.mem_map_of_mem mem
    obtain ⟨w, -, kind⟩ := List.mem_map.1 listed
    cases w <;> simp [Token.isGarbage, ← kind, Word.kind]
  rw [significant_eq_lexed solid]
  exact spelled

end ParseTree.Query
