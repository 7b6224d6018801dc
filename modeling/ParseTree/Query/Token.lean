import ParseTree.Text.Blank
import ParseTree.Text.Scan

/-!
# Tokens of the query language

Every character of a query belongs to one token.  Blanks and comments are
tokens of their own.  Characters that begin no token are garbage, and
neighbouring garbage forms one token; a quote that opens no complete string is
garbage together with all text that could still have belonged to the string.
-/

namespace ParseTree.Query

inductive TokenKind where
  | parenOpen
  | parenClose
  | bracketOpen
  | bracketClose
  | colon
  | bang
  | question
  | star
  | plus
  | capture
  | predicate
  | identifier
  | string
  | blank
  | comment
  | garbage
  deriving DecidableEq, Repr

abbrev Token := Lexeme TokenKind

def isNameChar (c : Char) : Bool := c.isAlphanum || c == '_'

def isCaptureChar (c : Char) : Bool := isNameChar c || c == '.' || c == '-'

def isPredicateChar (c : Char) : Bool := isNameChar c || c == '?' || c == '!' || c == '-'

/-- How many characters behind an opening quote belong to the string, and
whether the closing quote is among them.  A backslash takes the next character
with it, but a line may not end in one. -/
def stringBody : Text → Bool × Nat
  | [] => (false, 0)
  | ['\\'] => (false, 1)
  | '\\' :: c :: rest =>
      if c = '\n' then (false, 1)
      else
        let (closed, length) := stringBody rest
        (closed, length + 2)
  | c :: rest =>
      if c = '"' then (true, 1)
      else
        let (closed, length) := stringBody rest
        (closed, length + 1)

def lexicalRule : LexicalRule TokenKind := fun c rest =>
  if Text.isLayout c then (.blank, (rest.takeWhile Text.isLayout).length)
  else if isNameChar c then (.identifier, (rest.takeWhile isNameChar).length)
  else
    match c with
    | '(' => (.parenOpen, 0)
    | ')' => (.parenClose, 0)
    | '[' => (.bracketOpen, 0)
    | ']' => (.bracketClose, 0)
    | ':' => (.colon, 0)
    | '!' => (.bang, 0)
    | '?' => (.question, 0)
    | '*' => (.star, 0)
    | '+' => (.plus, 0)
    | '@' => (.capture, (rest.takeWhile isCaptureChar).length)
    | '#' => (.predicate, (rest.takeWhile isPredicateChar).length)
    | ';' => (.comment, (rest.takeWhile (· ≠ '\n')).length)
    | '"' =>
        let (closed, length) := stringBody rest
        (if closed then .string else .garbage, length)
    | _ => (.garbage, 0)

namespace Token

def isGarbage (t : Token) : Bool := t.kind == .garbage

def isTrivia (t : Token) : Bool := t.kind == .blank || t.kind == .comment

def join (t u : Token) : Token := { t with text := t.text ++ u.text }

def tokenize (source : Text) : List Token :=
  coalesce isGarbage join (Lexeme.scan lexicalRule source)

def significant (source : Text) : List Token :=
  (tokenize source).filter fun t => !t.isTrivia

def name (t : Token) : String := String.ofList t.text

def nameAfterSign (t : Token) : String := String.ofList (t.text.drop 1)

end Token

/-- Reads escapes: `\n` and `\t` are a newline and a tab, any other escaped
character is itself. -/
def unescape : Text → Text
  | [] => []
  | ['\\'] => []
  | '\\' :: c :: rest =>
      (if c = 'n' then '\n' else if c = 't' then '\t' else c) :: unescape rest
  | c :: rest => c :: unescape rest

def unquote (literal : Text) : Text := unescape (literal.drop 1).dropLast

end ParseTree.Query
