import ParseTree.Grammar
import ParseTree.Query.Fault
import ParseTree.Query.Pattern
import ParseTree.Query.Token

/-!
# Compiling queries

A recursive-descent reader of patterns.  An element is read by a function that
is given a reader for the elements inside it; `element` ties the two together
under a budget.  A budget that is used up has an answer of its own.  It never
comes back where the budget exceeds the tokens ahead, since every round of a
loop and every inner element comes behind a consumed token.

A group in parentheses stands for the element inside it.  That element keeps
its captures and its question mark, while its field is the one written before
the group.
-/

namespace ParseTree.Query

namespace Read

structure CaptureRef where
  name : String
  offset : Nat
  deriving DecidableEq, Repr

inductive Argument where
  | text (t : Text)
  | capture (ref : CaptureRef)
  deriving DecidableEq, Repr

structure Condition where
  negated : Bool
  capture : CaptureRef
  operand : Argument
  deriving DecidableEq, Repr

structure State where
  rest : List Token
  names : List String := []
  conditions : List Condition := []
  deriving DecidableEq, Repr

/-- What stays fixed while a query is read: the vocabulary of its language and
the length of its source, which is the offset of its end. -/
structure Context where
  vocabulary : Vocabulary
  length : Nat
  deriving DecidableEq, Repr

abbrev Reader (α : Type) := State → Except CompileError (α × State)

def refuse (offset : Nat) (cause : Fault) : Except CompileError α :=
  .error (.fault offset cause)

namespace Context

def offset (ctx : Context) (s : State) : Nat :=
  match s.rest with
  | [] => ctx.length
  | token :: _ => token.start

end Context

/-- Garbage that begins with a quote is a string without an end. -/
def unexpected (token : Token) (cause : String → Fault) : Except CompileError α :=
  if token.isGarbage && token.text.head? == some '"' then
    refuse token.start .unterminatedString
  else refuse token.start (cause token.name)

/-! ## Predicates -/

def State.atPredicate (s : State) : Bool :=
  match s.rest with
  | ⟨.parenOpen, _, _⟩ :: ⟨.predicate, _, _⟩ :: _ => true
  | _ => false

def arguments (opening : Nat) : List Token → Except CompileError (List Argument × List Token)
  | [] => refuse opening .unclosedPredicate
  | token :: rest =>
      match token.kind with
      | .parenClose => .ok ([], rest)
      | .capture => do
          if token.nameAfterSign = "" then refuse token.start .emptyCaptureName
          let (others, rest) ← arguments opening rest
          .ok (.capture ⟨token.nameAfterSign, token.start⟩ :: others, rest)
      | .string => do
          let (others, rest) ← arguments opening rest
          .ok (.text (unquote token.text) :: others, rest)
      | _ => unexpected token .unexpectedInPredicate

def negation? (name : String) : Option Bool :=
  if name = "eq?" then some false
  else if name = "not-eq?" then some true
  else none

def predicate (s : State) : Except CompileError State :=
  match s.rest with
  | opening :: head :: rest => do
      let some negated := negation? head.nameAfterSign
        | refuse head.start (.unknownPredicate head.nameAfterSign)
      match ← arguments opening.start rest with
      | ([.capture capture, operand], rest) =>
          .ok { s with rest, conditions := s.conditions ++ [⟨negated, capture, operand⟩] }
      | _ => refuse opening.start (.predicateArguments head.nameAfterSign)
  | _ => .ok s

/-! ## Elements -/

def fieldLead (ctx : Context) : Reader (Option String) := fun s =>
  match s.rest with
  | ⟨.identifier, start, text⟩ :: ⟨.colon, _, _⟩ :: rest =>
      let name := String.ofList text
      if ctx.vocabulary.hasField name then .ok (some name, { s with rest })
      else refuse start (.unknownField name)
  | _ => .ok (none, s)

def questionMark : Reader Bool := fun s =>
  match s.rest with
  | ⟨.question, _, _⟩ :: rest => .ok (true, { s with rest })
  | ⟨.star, start, text⟩ :: _ | ⟨.plus, start, text⟩ :: _ =>
      refuse start (.unsupportedQuantifier (String.ofList text))
  | _ => .ok (false, s)

/-- The captures behind an element.  Each takes the next free slot. -/
def captureMarks (names : List String) :
    List Token → Except CompileError (List Nat × List String × List Token)
  | ⟨.capture, start, text⟩ :: rest => do
      let name := String.ofList (text.drop 1)
      if name = "" then refuse start .emptyCaptureName
      if names.contains name then .error (.duplicateCapture name)
      let (slots, names', rest) ← captureMarks (names ++ [name]) rest
      .ok (names.length :: slots, names', rest)
  | rest => .ok ([], names, rest)

def missingKind (ctx : Context) : Reader (Option String) := fun s =>
  match s.rest with
  | ⟨.string, start, text⟩ :: rest =>
      let kind := String.ofList (unquote text)
      if ctx.vocabulary.hasKind kind false then .ok (some kind, { s with rest })
      else refuse start (.unknownKind kind)
  | ⟨.identifier, start, text⟩ :: rest =>
      let kind := String.ofList text
      if ctx.vocabulary.hasKind kind true then .ok (some kind, { s with rest })
      else refuse start (.unknownKind kind)
  | _ => .ok (none, s)

def kindTest (ctx : Context) : Reader KindTest := fun s =>
  match s.rest with
  | ⟨.identifier, start, text⟩ :: rest =>
      let name := String.ofList text
      let s := { s with rest }
      if name = "_" then .ok (.anyNamed, s)
      else if name = "ERROR" then .ok (.error, s)
      else if name = "MISSING" then do
        let (kind, s) ← missingKind ctx s
        .ok (.missing kind, s)
      else if ctx.vocabulary.hasKind name true then .ok (.named name, s)
      else refuse start (.unknownKind name)
  | _ => refuse (ctx.offset s) .noKind

def absentField (ctx : Context) : Reader String := fun s =>
  let (name, s') : String × State :=
    match s.rest with
    | ⟨.identifier, _, text⟩ :: rest => (String.ofList text, { s with rest })
    | _ => ("", s)
  if ctx.vocabulary.hasField name then .ok (name, s')
  else refuse (ctx.offset s) (.unknownField name)

def nodeItems (ctx : Context) (inner : Reader Element) (opening : Nat) :
    Nat → Reader (List Element × List String)
  | 0, _ => .error .exhausted
  | budget + 1, s =>
      match s.rest with
      | [] => refuse opening .unclosedParen
      | token :: rest =>
          if token.kind = .parenClose then .ok (([], []), { s with rest })
          else if token.kind = .bang then do
            let (field, s) ← absentField ctx { s with rest }
            let ((children, absent), s) ← nodeItems ctx inner opening budget s
            .ok ((children, field :: absent), s)
          else if s.atPredicate then do
            let s ← predicate s
            nodeItems ctx inner opening budget s
          else do
            let (child, s) ← inner s
            let ((children, absent), s) ← nodeItems ctx inner opening budget s
            .ok ((child :: children, absent), s)

def groupItems (ctx : Context) (inner : Reader Element) (opening : Nat) :
    Nat → Option Element → Reader Element
  | 0, _, _ => .error .exhausted
  | budget + 1, found, s =>
      match s.rest with
      | [] => refuse opening .unclosedParen
      | token :: rest =>
          if token.kind = .parenClose then
            match found with
            | some element => .ok (element, { s with rest })
            | none => refuse opening .emptyGroup
          else if s.atPredicate then do
            let s ← predicate s
            groupItems ctx inner opening budget found s
          else do
            let (element, s) ← inner s
            if found.isSome then refuse token.start .sequence
            groupItems ctx inner opening budget (some element) s

def branches (inner : Reader Element) (opening : Nat) : Nat → Reader (List Element)
  | 0, _ => .error .exhausted
  | budget + 1, s =>
      match s.rest with
      | [] => refuse opening .unclosedBracket
      | token :: rest =>
          if token.kind = .bracketClose then .ok ([], { s with rest })
          else do
            let (branch, s) ← inner s
            let (others, s) ← branches inner opening budget s
            .ok (branch :: others, s)

def opensGroup (rest : List Token) : Bool :=
  match rest with
  | ⟨.parenOpen, _, _⟩ :: _ | ⟨.bracketOpen, _, _⟩ :: _ | ⟨.string, _, _⟩ :: _ => true
  | _ => false

def atom (ctx : Context) (inner : Reader Element) (budget : Nat) : Reader Element := fun s =>
  match s.rest with
  | [] => refuse ctx.length .endOfQuery
  | token :: rest =>
      let after := { s with rest }
      match token.kind with
      | .parenOpen =>
          if opensGroup rest then groupItems ctx inner token.start budget none after
          else if s.atPredicate then refuse token.start .predicateFirst
          else do
            let (test, s) ← kindTest ctx after
            let ((children, absent), s) ← nodeItems ctx inner token.start budget s
            .ok (.node test children absent {}, s)
      | .bracketOpen => do
          let (elements, s) ← branches inner token.start budget after
          if elements.isEmpty then refuse token.start .emptyChoice
          .ok (.choice elements {}, s)
      | .string =>
          let text := String.ofList (unquote token.text)
          if ctx.vocabulary.hasKind text false then .ok (.node (.anonymous text) [] [] {}, after)
          else refuse token.start (.unknownAnonymous text)
      | .identifier =>
          if token.name = "_" then .ok (.node .any [] [] {}, after)
          else refuse token.start (.bareKind token.name)
      | _ => unexpected token .unexpected

def elementWith (ctx : Context) (inner : Reader Element) (budget : Nat) : Reader Element :=
  fun s => do
    let (field, s) ← fieldLead ctx s
    let (body, s) ← atom ctx inner budget s
    let (optional, s) ← questionMark s
    let (slots, names, rest) ← captureMarks s.names s.rest
    let mark : Mark :=
      { field
        optional := body.mark.optional || optional
        captures := body.mark.captures ++ slots }
    .ok (body.withMark mark, { s with rest, names })

def element (ctx : Context) : Nat → Reader Element
  | 0, _ => .error .exhausted
  | budget + 1, s => elementWith ctx (element ctx budget) budget s

/-! ## Patterns -/

def resolve (names : List String) (ref : CaptureRef) : Except CompileError Nat :=
  match names.idxOf? ref.name with
  | some slot => .ok slot
  | none => refuse ref.offset (.undeclaredCapture ref.name)

/-- The operand is looked up before the capture it is compared with. -/
def Condition.resolve (names : List String) (c : Condition) : Except CompileError Predicate := do
  let operand ←
    match c.operand with
    | .text t => .ok (.text t)
    | .capture ref => .capture <$> Read.resolve names ref
  let capture ← Read.resolve names c.capture
  .ok ⟨c.negated, capture, operand⟩

def pattern (ctx : Context) (tokens : List Token) : Except CompileError (Pattern × List Token) := do
  let start := ctx.offset { rest := tokens }
  let (root, s) ← element ctx (tokens.length + 1) { rest := tokens }
  if root.mark.field.isSome then refuse start .fieldAtTopLevel
  if root.mark.optional then refuse start .optionalAtTopLevel
  let predicates ← s.conditions.mapM (Condition.resolve s.names)
  .ok (⟨root, s.names, predicates, start⟩, s.rest)

def patterns (ctx : Context) : Nat → List Token → Except CompileError (List Pattern)
  | _, [] => .ok []
  | 0, _ => .error .exhausted
  | budget + 1, tokens => do
      let (first, rest) ← pattern ctx tokens
      let others ← patterns ctx budget rest
      .ok (first :: others)

end Read

def compile (vocabulary : Vocabulary) (source : Text) : Except CompileError (List Pattern) := do
  let tokens := Token.significant source
  let found ← Read.patterns ⟨vocabulary, source.width⟩ tokens.length tokens
  if found.isEmpty then .error (.fault 0 .noPatterns)
  .ok found

end ParseTree.Query
