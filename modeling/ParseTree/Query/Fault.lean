import ParseTree.Error

/-!
# Faults in queries

Why a query is refused, and in which words.
-/

namespace ParseTree.Query

inductive Fault where
  | noPatterns
  | fieldAtTopLevel
  | optionalAtTopLevel
  | undeclaredCapture (name : String)
  | unknownField (name : String)
  | unsupportedQuantifier (symbol : String)
  | emptyCaptureName
  | endOfQuery
  | predicateFirst
  | unknownAnonymous (text : String)
  | bareKind (name : String)
  | unterminatedString
  | unexpected (text : String)
  | unexpectedInPredicate (text : String)
  | unclosedParen
  | unclosedBracket
  | unclosedPredicate
  | sequence
  | emptyGroup
  | emptyChoice
  | noKind
  | unknownKind (name : String)
  | unknownPredicate (name : String)
  | predicateArguments (name : String)
  deriving DecidableEq, Repr

def Fault.message : Fault → String
  | .noPatterns => "query contains no patterns"
  | .fieldAtTopLevel => "top-level patterns cannot have a field"
  | .optionalAtTopLevel => "top-level patterns cannot be optional"
  | .undeclaredCapture name => "predicate references undeclared capture @" ++ name
  | .unknownField name => "unknown field `" ++ name ++ "`"
  | .unsupportedQuantifier symbol => "quantifier `" ++ symbol ++ "` is not supported"
  | .emptyCaptureName => "expected a capture name after `@`"
  | .endOfQuery => "unexpected end of query"
  | .predicateFirst => "predicates must follow a pattern"
  | .unknownAnonymous text => "unknown anonymous node \"" ++ text ++ "\""
  | .bareKind name => "node patterns must be parenthesised: `(" ++ name ++ ")`"
  | .unterminatedString => "unterminated string"
  | .unexpected text => "unexpected `" ++ text ++ "`"
  | .unexpectedInPredicate text => "unexpected `" ++ text ++ "` in predicate"
  | .unclosedParen => "unclosed `(`"
  | .unclosedBracket => "unclosed `[`"
  | .unclosedPredicate => "unclosed predicate"
  | .sequence => "sequence patterns are not supported"
  | .emptyGroup => "empty group"
  | .emptyChoice => "empty alternation"
  | .noKind => "expected a node kind"
  | .unknownKind name => "unknown node kind `" ++ name ++ "`"
  | .unknownPredicate name => "unknown predicate `#" ++ name ++ "`"
  | .predicateArguments name =>
      "`#" ++ name ++ "` takes a capture followed by a capture or string"

/-- A reader that runs out of budget has come to no verdict on the query. -/
inductive CompileError where
  | fault (offset : Nat) (cause : Fault)
  | duplicateCapture (name : String)
  | exhausted
  deriving DecidableEq, Repr

def CompileError.toError (language : Language) : CompileError → Error
  | .fault offset cause => .invalidQuery language offset cause.message
  | .duplicateCapture name => .duplicateCapture name
  -- no query is answered with this: the budget of `compile` covers its tokens
  | .exhausted => .invalidQuery language 0 "query is too long"

end ParseTree.Query
