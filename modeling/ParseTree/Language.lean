import ParseTree.Text.Blank

/-!
# Languages

The languages that a document can be in, with the names and file extensions by
which they are chosen.
-/

namespace ParseTree

inductive Language where
  | math
  | rust
  | python
  | typescript
  deriving DecidableEq, Repr, Inhabited

structure UnknownLanguage where
  name : String
  deriving DecidableEq, Repr

def UnknownLanguage.message (e : UnknownLanguage) : String :=
  "unsupported language: '" ++ e.name ++ "'"

namespace Language

def all : List Language := [.math, .rust, .python, .typescript]

def name : Language → String
  | .math => "math"
  | .rust => "rust"
  | .python => "python"
  | .typescript => "typescript"

def title : Language → String
  | .math => "Math"
  | .rust => "Rust"
  | .python => "Python"
  | .typescript => "TypeScript"

/-- Names are read without regard to surrounding blanks and letter case, and
most have a short form. -/
def ofName (text : String) : Except UnknownLanguage Language :=
  match String.ofList (Text.lower (Text.trim text.toList)) with
  | "math" => .ok .math
  | "rust" | "rs" => .ok .rust
  | "python" | "py" => .ok .python
  | "typescript" | "ts" => .ok .typescript
  | other => .error ⟨other⟩

def ofExtension? (extension : String) : Option Language :=
  match String.ofList (Text.lower extension.toList) with
  | "math" => some .math
  | "rs" => some .rust
  | "py" | "pyi" => some .python
  | "ts" | "tsx" | "mts" | "cts" => some .typescript
  | _ => none

end Language

namespace FilePath

/-- The last component of a path, after empty and `.` components are dropped.
A path that ends in `..` names no file. -/
def fileName? (path : Text) : Option Text :=
  match ((path.splitOn '/').filter fun part => part ≠ [] ∧ part ≠ ['.']).getLast? with
  | none => none
  | some name => if name = ['.', '.'] then none else some name

/-- What follows the last dot of the file name.  A dot that opens the name
starts no extension. -/
def extension? (path : Text) : Option Text :=
  match fileName? path with
  | none => none
  | some name =>
      let after := (name.reverse.takeWhile (· ≠ '.')).reverse
      if after.length + 1 < name.length then some after else none

end FilePath

def Language.ofPath? (path : String) : Option Language :=
  match FilePath.extension? path.toList with
  | none => none
  | some extension => ofExtension? (String.ofList extension)

theorem Language.ofName_name (language : Language) :
    ofName language.name = .ok language := by
  cases language <;> rfl

end ParseTree
