import ParseTree.Language
import ParseTree.Text.Document

/-!
# Refusals

Everything that an operation on documents, trees and queries can refuse, and
the wording of each refusal.
-/

namespace ParseTree

inductive Error where
  | range (cause : RangeError)
  | invalidQuery (language : Language) (offset : Nat) (message : String)
  | duplicateCapture (name : String)
  | languageMismatch (query tree : Language)
  | captureNotFound (name : String)
  | matchNotFound (index length : Nat)
  | parserUnavailable (language : Language) (message : String)
  | parseFailed (language : Language) (message : String)
  deriving DecidableEq, Repr

def Error.message : Error → String
  | .range cause => cause.message
  | .invalidQuery language offset message =>
      "invalid query for " ++ language.name ++ " at offset " ++ toString offset ++ ": " ++ message
  | .duplicateCapture name =>
      "capture @" ++ name ++ " is declared more than once in the same pattern"
  | .languageMismatch query tree =>
      "query for " ++ query.name ++ " cannot run on a " ++ tree.name ++ " tree"
  | .captureNotFound name => "no capture named @" ++ name ++ " in this match"
  | .matchNotFound index length =>
      "no match at index " ++ toString index ++ " (" ++ toString length ++ " matches)"
  | .parserUnavailable language message =>
      "failed to initialise parser for " ++ language.name ++ ": " ++ message
  | .parseFailed language message =>
      "failed to parse " ++ language.name ++ ": " ++ message

end ParseTree
