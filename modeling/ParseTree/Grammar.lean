import ParseTree.Language

/-!
# Vocabularies

What a query may mention in a language: the kinds of named nodes, the texts of
anonymous nodes and the field names.
-/

namespace ParseTree

structure Vocabulary where
  named : List String
  anonymous : List String
  fields : List String
  deriving DecidableEq, Repr

namespace Vocabulary

def hasKind (v : Vocabulary) (kind : String) (named : Bool) : Bool :=
  if named then v.named.contains kind else v.anonymous.contains kind

def hasField (v : Vocabulary) (field : String) : Bool := v.fields.contains field

/-- Errors can be asked for in every language. -/
def withErrors (v : Vocabulary) : Vocabulary := { v with named := "ERROR" :: v.named }

def math : Vocabulary where
  named := ["expression", "sum", "difference", "product", "quotient",
    "parenthesized_expression", "number", "variable", "ERROR"]
  anonymous := ["+", "-", "*", "/", "(", ")"]
  fields := ["left", "right"]

end Vocabulary

structure Grammar where
  language : Language
  vocabulary : Vocabulary
  deriving DecidableEq, Repr

def Grammar.math : Grammar := ⟨.math, .math⟩

end ParseTree
