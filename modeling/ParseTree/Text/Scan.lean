import ParseTree.Text.Basic

/-!
# Cutting text into lexemes

A lexical rule looks at a first character and at the text behind it, and says
what kind of lexeme begins there and how many further characters belong to it.
`scan` applies a rule from left to right; every character ends up in exactly
one lexeme.  `coalesce` joins neighbours that belong together.
-/

namespace ParseTree

structure Lexeme (κ : Type) where
  kind : κ
  start : Nat
  text : Text
  deriving DecidableEq, Repr

abbrev LexicalRule (κ : Type) := Char → Text → κ × Nat

namespace Lexeme

def stop (lexeme : Lexeme κ) : Nat := lexeme.start + lexeme.text.width

def range (lexeme : Lexeme κ) : ByteRange := ⟨lexeme.start, lexeme.stop⟩

/-- `skip` characters still belong to the lexeme that was cut last. -/
def scanFrom (rule : LexicalRule κ) : Nat → Nat → Text → List (Lexeme κ)
  | _, _, [] => []
  | start, skip + 1, c :: rest => scanFrom rule (start + c.utf8Size) skip rest
  | start, 0, c :: rest =>
      let (kind, length) := rule c rest
      ⟨kind, start, c :: rest.take length⟩ ::
        scanFrom rule (start + c.utf8Size) length rest

def scan (rule : LexicalRule κ) (text : Text) : List (Lexeme κ) := scanFrom rule 0 0 text

end Lexeme

def coalesce (loose : τ → Bool) (join : τ → τ → τ) : List τ → List τ
  | [] => []
  | t :: ts =>
      match coalesce loose join ts with
      | [] => [t]
      | u :: us => if loose t && loose u then join t u :: us else t :: u :: us

end ParseTree
