import ParseTree.Proofs.Query.Words
import ParseTree.Query.Compile

/-!
# Strings in queries

The lexer looks for the end of a string and the reader for what it stands for, each with
its own view of a backslash.  The two agree: between quotes, a text is one string token
exactly if it is a way to write some text, and this is the text that the token stands for.
-/

namespace ParseTree.Query

abbrev inQuotes (body : Text) : Text := '"' :: (body ++ ['"'])

/-! ## Between quotes -/

theorem stringBody_le (text : Text) : (stringBody text).2 ≤ text.length := by
  fun_induction stringBody text with
  | case1 | case2 | case3 | case5 => simp
  | case4 c rest _ closed length same ih | case6 c rest _ _ _ closed length same ih =>
      rw [same] at ih
      simpa using ih

theorem quotes_of_stringBody {body : Text}
    (h : stringBody (body ++ ['"']) = (true, body.length + 1)) : Quotes (unescape body) body := by
  fun_induction unescape body with
  | case1 => exact .nil
  | case2 => cases h
  | case3 c body ih =>
      by_cases line : c = '\n'
      · subst line
        cases h
      rw [List.cons_append, List.cons_append, stringBody_escaped line, Prod.mk.injEq] at h
      have inner := ih (Prod.ext h.1 (by simpa using h.2))
      split
      · rename_i newline
        exact newline ▸ .newline inner
      split
      · rename_i tab
        exact tab ▸ .tab inner
      · rename_i noNewline noTab
        exact .escaped noNewline noTab line inner
  | case4 c body noEnd noEscape ih =>
      have plain := ne_backslash noEnd noEscape
      by_cases quote : c = '"'
      · subst quote
        cases body <;> cases h
      rw [List.cons_append, stringBody_plain quote plain, Prod.mk.injEq] at h
      exact .plain quote plain (ih (Prod.ext h.1 (by simpa using h.2)))

/-! ## One token -/

theorem lexicalRule_quote (rest : Text) :
    lexicalRule '"' rest =
      (if (stringBody rest).1 then .string else .garbage, (stringBody rest).2) := rfl

theorem stringBody_of_scan {body : Text}
    (h : Lexeme.scan lexicalRule (inQuotes body) = [⟨.string, 0, inQuotes body⟩]) :
    stringBody (body ++ ['"']) = (true, body.length + 1) := by
  rw [Lexeme.scan, Lexeme.scanFrom_cons (lexicalRule_quote _)] at h
  simp only [List.cons.injEq, Lexeme.mk.injEq, true_and] at h
  obtain ⟨⟨kind, whole⟩, -⟩ := h
  have short := stringBody_le (body ++ ['"'])
  have long := List.length_take_le (stringBody (body ++ ['"'])).2 (body ++ ['"'])
  rw [whole] at long
  rw [List.length_append, List.length_singleton] at short long
  refine Prod.ext ?_ (Nat.le_antisymm short long)
  cases closed : (stringBody (body ++ ['"'])).1 with
  | true => rfl
  | false => simp [closed] at kind

theorem Quotes.tokenize_eq {text body : Text} (h : Quotes text body) :
    Token.tokenize (inQuotes body) = [⟨.string, 0, inQuotes body⟩] := by
  have rule := lexicalRule_quote (body ++ ['"'])
  rw [h.stringBody_eq []] at rule
  have all : (body ++ ['"']).length ≤ body.length + 1 := by simp
  rw [Token.tokenize, Lexeme.scan, Lexeme.scanFrom_cons rule, List.take_of_length_le all,
    List.drop_of_length_le all]
  rfl

theorem quotes_iff_tokenize {text body : Text} :
    Quotes text body ↔
      Token.tokenize (inQuotes body) = [⟨.string, 0, inQuotes body⟩] ∧
        unquote (inQuotes body) = text := by
  constructor
  · intro h
    exact ⟨h.tokenize_eq, h.unquote_eq⟩
  · rintro ⟨single, rfl⟩
    have solid : ∀ t ∈ Token.tokenize (inQuotes body), t.isGarbage = false := by
      simp [single, Token.isGarbage]
    have scanned : Token.tokenize (inQuotes body) = Lexeme.scan lexicalRule (inQuotes body) :=
      @coalesce_eq_of_solid _ Token.isGarbage Token.join (fun _ _ => id) _ solid
    rw [unquote, List.drop_one, List.tail_cons, List.dropLast_concat]
    exact quotes_of_stringBody (stringBody_of_scan (scanned ▸ single))

/-! ## In a predicate -/

def numberQuery (literal : Text) : Text :=
  Text.ofString "((number) @n (#eq? @n " ++ literal ++ Text.ofString "))"

theorem Quotes.significant_numberQuery {text body : Text} (h : Quotes text body) :
    Token.significant (numberQuery (inQuotes body)) =
      [⟨.parenOpen, 0, ['(']⟩, ⟨.parenOpen, 1, ['(']⟩,
        ⟨.identifier, 2, Text.ofString "number"⟩, ⟨.parenClose, 8, [')']⟩,
        ⟨.capture, 10, ['@', 'n']⟩, ⟨.parenOpen, 13, ['(']⟩,
        ⟨.predicate, 14, Text.ofString "#eq?"⟩, ⟨.capture, 19, ['@', 'n']⟩,
        ⟨.string, 22, inQuotes body⟩,
        ⟨.parenClose, 22 + Text.width (inQuotes body), [')']⟩,
        ⟨.parenClose, 22 + Text.width (inQuotes body) + 1, [')']⟩] := by
  -- everything in front of the literal is cut without a look into it
  have front : ∀ rest : Text,
      lexed 0 (Text.ofString "((number) @n (#eq? @n " ++ '"' :: rest) =
        [⟨.parenOpen, 0, ['(']⟩, ⟨.parenOpen, 1, ['(']⟩,
          ⟨.identifier, 2, Text.ofString "number"⟩, ⟨.parenClose, 8, [')']⟩,
          ⟨.capture, 10, ['@', 'n']⟩, ⟨.parenOpen, 13, ['(']⟩,
          ⟨.predicate, 14, Text.ofString "#eq?"⟩, ⟨.capture, 19, ['@', 'n']⟩] ++
        lexed 22 ('"' :: rest) := fun _ => rfl
  have literal : lexed 22 (inQuotes body ++ [')', ')']) =
      ⟨.string, 22, inQuotes body⟩ :: lexed (22 + Text.width (inQuotes body)) [')', ')'] :=
    @lexed_written (.string text) _ _ ⟨body, h, rfl⟩ rfl (fun _ _ => rfl) 22
  have split : numberQuery (inQuotes body) =
      Text.ofString "((number) @n (#eq? @n " ++ (inQuotes body ++ [')', ')']) := by
    rw [numberQuery, List.append_assoc]
    rfl
  have back : lexed (22 + Text.width (inQuotes body)) [')', ')'] =
      [⟨.parenClose, 22 + Text.width (inQuotes body), [')']⟩,
        ⟨.parenClose, 22 + Text.width (inQuotes body) + 1, [')']⟩] := rfl
  have tokens := front (body ++ ['"'] ++ [')', ')'])
  rw [← List.cons_append, literal, back, ← split] at tokens
  rw [significant_eq_lexed, tokens]
  · rfl
  · rw [tokens]
    simp [Token.isGarbage]

/-- Every text has literals.  A literal of a query is one string token and stands for
`text` exactly if it is one of the ways to write it: a quote and a backslash behind a
backslash, a newline and a tab as they are or as `\n` and `\t`.  A predicate then compares
with this very text. -/
theorem compile_literal (text : Text) :
    (∃ body, Quotes text body) ∧
      ∀ body, (Quotes text body ↔
        Token.tokenize (inQuotes body) = [⟨.string, 0, inQuotes body⟩] ∧
          unquote (inQuotes body) = text) ∧
      (Quotes text body →
        compile Vocabulary.math (numberQuery (inQuotes body)) =
          .ok [
            { root := .node (.named "number") [] [] { captures := [0] }
              captureNames := ["n"]
              predicates := [⟨false, 0, .text text⟩]
              start := 0 }]) := by
  refine ⟨⟨quoted text, quotes_quoted text⟩, fun body => ⟨quotes_iff_tokenize, fun quotes => ?_⟩⟩
  rw [← quotes.unquote_eq, compile, quotes.significant_numberQuery]
  rfl

/-- A backslash before a raw newline, then a quote and a backslash at the end. -/
theorem compile_literal_backslashes :
    let text : Text := ['\\', '\n', '\n', '"', '\t', '\\']
    let body : Text :=
      ['\\', '\\', '\n', '\\', 'n', '\\', '"', '\t', '\\', '\\']
    Quotes text body ∧
      Token.tokenize (inQuotes body) = [⟨.string, 0, inQuotes body⟩] ∧
      unquote (inQuotes body) = text ∧
      compile Vocabulary.math (numberQuery (inQuotes body)) =
        .ok [
          { root := .node (.named "number") [] [] { captures := [0] }
            captureNames := ["n"]
            predicates := [⟨false, 0, .text text⟩]
            start := 0 }] := by
  intro text body
  have quotes : Quotes text body := by
    refine .escaped ?_ ?_ ?_ (.plain ?_ ?_ (.newline (.escaped ?_ ?_ ?_ (.plain ?_ ?_
      (.escaped ?_ ?_ ?_ .nil))))) <;> decide
  obtain ⟨literal, compiles⟩ := (compile_literal text).2 body
  obtain ⟨single, stands⟩ := literal.1 quotes
  exact ⟨quotes, single, stands, compiles quotes⟩

end ParseTree.Query
