import ParseTree.Arith.Expression
import ParseTree.Error
import ParseTree.Grammar

/-!
# Engines

Arithmetic is the one language with a grammar and a parser of its own.  Those of
the others belong to an engine, of which nothing is known here: it may reject a
grammar, it may make nothing of a text, and its answers may depend on everything
that it was asked before.
-/

namespace ParseTree

structure Request where
  text : Text
  change : Option Change
  deriving DecidableEq, Repr

structure Engine where
  names : Language → Vocabulary
  /-- Why the grammar of a language cannot be used. -/
  rejection? : Language → Option String
  /-- What is made of the first request; the others came before it, the latest first. -/
  parse? : Language → List Request → Option Arena

/-- Makes the same empty tree of every text, which is enough where only languages and texts
matter. -/
def Engine.blank (names : Language → Vocabulary) : Engine where
  names
  rejection? _ := none
  parse? _ _ := some (Builder.ofText []).finish

def Language.grammar (engine : Engine) : Language → Grammar
  | .math => .math
  | language => ⟨language, (engine.names language).withErrors⟩

structure Backend where
  language : Language
  asked : List Request := []
  deriving DecidableEq, Repr

namespace Backend

def start (engine : Engine) : Language → Except Error Backend
  | .math => .ok { language := .math }
  | language =>
      match engine.rejection? language with
      | none => .ok { language }
      | some reason => .error (.parserUnavailable language reason)

def ask (b : Backend) (request : Request) : Backend := { b with asked := request :: b.asked }

/-- The arithmetic parser starts afresh whatever the change was. -/
def answer (engine : Engine) (b : Backend) (request : Request) : Except Error Arena :=
  match b.language with
  | .math => .ok (Arith.arena request.text)
  | language =>
      match engine.parse? language (request :: b.asked) with
      | some arena => .ok arena
      | none => .error (.parseFailed language "parsing failed")

end Backend

end ParseTree
