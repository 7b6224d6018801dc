import ParseTree.Text.Blank
import ParseTree.Text.Scan

/-!
# Tokens of arithmetic

Numbers, variables, the four operators and parentheses, separated by layout.
Text that begins no token is unknown, and unknown text forms one token up to
the next token that is known, layout included.
-/

namespace ParseTree.Arith

inductive Operator where
  | add
  | subtract
  | multiply
  | divide
  deriving DecidableEq, Repr

namespace Operator

def symbol : Operator → String
  | .add => "+"
  | .subtract => "-"
  | .multiply => "*"
  | .divide => "/"

def kind : Operator → String
  | .add => "sum"
  | .subtract => "difference"
  | .multiply => "product"
  | .divide => "quotient"

def power : Operator → Nat
  | .add | .subtract => 1
  | .multiply | .divide => 2

end Operator

inductive TokenKind where
  | number
  | variable
  | operator (op : Operator)
  | openParen
  | closeParen
  | unknown
  deriving DecidableEq, Repr

structure Token where
  kind : TokenKind
  range : ByteRange
  deriving DecidableEq, Repr

def isWordStart (c : Char) : Bool := c.isAlpha || c == '_'

def isWordRest (c : Char) : Bool := c.isAlphanum || c == '_'

/-- How much of the text behind a first digit belongs to the number: digits,
and a point only if a digit follows it. -/
def numberLength (rest : Text) : Nat :=
  let whole := (rest.takeWhile Char.isDigit).length
  match rest.drop whole with
  | '.' :: digit :: more =>
      if digit.isDigit then whole + 2 + (more.takeWhile Char.isDigit).length else whole
  | _ => whole

/-- The kind `none` is layout. -/
def lexicalRule : LexicalRule (Option TokenKind) := fun c rest =>
  if Text.isLayout c then (none, (rest.takeWhile Text.isLayout).length)
  else if c.isDigit then (some .number, numberLength rest)
  else if isWordStart c then (some .variable, (rest.takeWhile isWordRest).length)
  else
    match c with
    | '+' => (some (.operator .add), 0)
    | '-' => (some (.operator .subtract), 0)
    | '*' => (some (.operator .multiply), 0)
    | '/' => (some (.operator .divide), 0)
    | '(' => (some .openParen, 0)
    | ')' => (some .closeParen, 0)
    | _ => (some .unknown, 0)

namespace Token

def isUnknown (t : Token) : Bool := t.kind == .unknown

def join (t u : Token) : Token := { t with range := ⟨t.range.start, u.range.stop⟩ }

def ofLexeme? (lexeme : Lexeme (Option TokenKind)) : Option Token :=
  lexeme.kind.map fun kind => ⟨kind, lexeme.range⟩

def tokenize (text : Text) : List Token :=
  coalesce isUnknown join ((Lexeme.scan lexicalRule text).filterMap ofLexeme?)

end Token

end ParseTree.Arith
