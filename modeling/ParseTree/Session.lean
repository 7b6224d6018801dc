import ParseTree.Parsed

/-!
# Sessions

A session holds a parser and the document parsed last.  Its steps parse a new
text, parse it in view of the last one, or edit the last one in place.  A text
that is parsed in view of the last document takes that document over, so the
document is gone if this fails.
-/

namespace ParseTree

structure Parser where
  language : Language := .math
  settings : ParserSettings := {}
  deriving DecidableEq, Repr, Inhabited

namespace Parser

def load (engine : Engine) (p : Parser) (backend : Backend) (request : Request) :
    Except Error Parsed :=
  match backend.answer engine request with
  | .ok arena =>
      .ok
        { document := ⟨request.text⟩
          arena
          backend := backend.ask request
          settings := p.settings }
  | .error e => .error e

def parse (engine : Engine) (p : Parser) (text : Text) : Except Error Parsed :=
  match Backend.start engine p.language with
  | .ok backend => p.load engine backend ⟨text, none⟩
  | .error e => .error e

/-- Parses in view of an earlier document.  A document in another language is
of no use and is dropped. -/
def reparse (engine : Engine) (p : Parser) (previous : Parsed) (text : Text) :
    Except Error Parsed :=
  if previous.language = p.language then
    let change := Change.between previous.text text
    p.load engine previous.backend ⟨text, p.settings.hint change⟩
  else p.parse engine text

def parseWith (engine : Engine) (p : Parser) : Option Parsed → Text → Except Error Parsed
  | some previous, text => p.reparse engine previous text
  | none, text => p.parse engine text

end Parser

structure Session where
  parser : Parser := {}
  parsed : Option Parsed := none

inductive Step where
  | parse (text : Text)
  | parseWith (text : Text)
  | reparse (text : Text)
  | edit (range : ByteRange) (replacement : Text)
  | delete (range : ByteRange)
  | useLanguage (language : Language)
  | useSettings (settings : ParserSettings)
  deriving DecidableEq, Repr

inductive StepError where
  | nothingParsed
  | refused (cause : Error)
  deriving DecidableEq, Repr

namespace Session

def hold (s : Session) (left : Option Parsed) :
    Except Error Parsed → Except StepError Unit × Session
  | .ok parsed => (.ok (), { s with parsed := some parsed })
  | .error cause => (.error (.refused cause), { s with parsed := left })

def update (s : Session) (change : Parsed → Except Error Unit × Parsed) :
    Except StepError Unit × Session :=
  match s.parsed with
  | none => (.error .nothingParsed, s)
  | some parsed =>
      let (answer, parsed) := change parsed
      (answer.mapError .refused, { s with parsed := some parsed })

def step (engine : Engine) (s : Session) : Step → Except StepError Unit × Session
  | .parse text => s.hold s.parsed (s.parser.parse engine text)
  | .parseWith text => s.hold none (s.parser.parseWith engine s.parsed text)
  | .reparse text =>
      match s.parsed with
      | none => (.error .nothingParsed, s)
      | some previous => s.hold none (s.parser.reparse engine previous text)
  | .edit range replacement => s.update fun parsed => parsed.edit engine range replacement
  | .delete range => s.update fun parsed => parsed.delete engine range
  | .useLanguage language => (.ok (), { s with parser := { s.parser with language } })
  | .useSettings settings => (.ok (), { s with parser := { s.parser with settings } })

def after (engine : Engine) (s : Session) (step : Step) : Session := (s.step engine step).2

def run (engine : Engine) (s : Session) (steps : List Step) : Session :=
  steps.foldl (after engine) s

end Session

end ParseTree
