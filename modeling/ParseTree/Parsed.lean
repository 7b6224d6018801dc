import ParseTree.Arena.Describe
import ParseTree.Arena.Sexp
import ParseTree.Engine
import ParseTree.Query.Run

/-!
# Parsed documents

A document together with the arena that was built from it.  An edit changes the
text and builds the arena anew.  If the backend makes nothing of the new text, the
part that was removed is put back and the arena stays.
-/

namespace ParseTree

structure Parsed where
  document : Document
  arena : Arena
  backend : Backend
  settings : ParserSettings

structure Diagnostic where
  range : ByteRange
  line : Nat
  column : Nat
  context : Text
  message : String
  deriving DecidableEq, Repr

namespace Diagnostic

def contextLimit : Nat := 50

/-- A text beyond the limit is cut three characters short of it, for the dots. -/
def contextOf (text : Text) : Text :=
  if text.width > contextLimit then text.take (contextLimit - 3) ++ ['.', '.', '.'] else text

def ofNode (a : Arena) (source : Text) (id : Nat) : Diagnostic :=
  let label := a.label id
  let (line, column) := (a.entry id).start.oneBased
  { range := label.range
    line
    column
    context := contextOf (a.textOf source id)
    message := if label.missing then "missing " ++ label.kind else "syntax error" }

end Diagnostic

def ParserSettings.hint (settings : ParserSettings) (change : Change) : Option Change :=
  if settings.incremental then some change else none

namespace Parsed

def language (p : Parsed) : Language := p.backend.language

def text (p : Parsed) : Text := p.document.text

/-- The document in which `removed` has taken its place again.  It is left alone if the
change does not fit it. -/
def restore (d : Document) (change : Change) (removed : Text) : Document :=
  match d.replace ⟨change.start, change.newEnd⟩ removed with
  | .ok (restored, _) => restored
  | .error _ => d

/-- The answer, and what there is afterwards.  A range that is refused is refused before
anything is changed. -/
def edit (engine : Engine) (p : Parsed) (range : ByteRange) (replacement : Text) :
    Except Error Unit × Parsed :=
  let spliced := do
    let removed ← p.document.slice range
    let (document, change) ← p.document.replace range replacement
    .ok (removed, document, change)
  match spliced with
  | .error cause => (.error (.range cause), p)
  | .ok (removed, document, change) =>
      let request := ⟨document.text, p.settings.hint change⟩
      let backend := p.backend.ask request
      match p.backend.answer engine request with
      | .ok arena => (.ok (), { p with document, arena, backend })
      | .error e => (.error e, { p with document := restore document change removed, backend })

def delete (engine : Engine) (p : Parsed) (range : ByteRange) : Except Error Unit × Parsed :=
  p.edit engine range []

def diagnostics (p : Parsed) : List Diagnostic :=
  (p.arena.faults 0).map (Diagnostic.ofNode p.arena p.text)

def matches? (p : Parsed) (q : Query) (settings : QuerySettings) :
    Except Error (List Query.Match) :=
  if p.language = q.language then .ok (q.matchesAt p.arena p.text 0 settings)
  else .error (.languageMismatch q.language p.language)

def describe (p : Parsed) : String :=
  Quoted.openRecord "SyntaxTree"
    [("language", p.language.title),
     ("document_len", toString p.document.length),
     ("nodes", toString p.arena.size),
     ("config",
       Quoted.record "ParserConfig" [("incremental", toString p.settings.incremental)])]

end Parsed

end ParseTree
