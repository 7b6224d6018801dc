import ParseTree.Text.Change

/-!
# Documents

A document is a text that changes by accepted replacements only.  A range is
accepted when it lies inside the text and cuts no character in two; a refused
replacement leaves the document as it was.
-/

namespace ParseTree

inductive RangeError where
  | outOfBounds (start stop length : Nat)
  | splitsCharacter (offset : Nat)
  deriving DecidableEq, Repr

def RangeError.message : RangeError → String
  | .outOfBounds start stop length =>
      "range " ++ toString start ++ ".." ++ toString stop ++
        " is out of bounds for document of length " ++ toString length
  | .splitsCharacter offset =>
      "byte offset " ++ toString offset ++ " is not on a UTF-8 character boundary"

structure Document where
  text : Text := []
  deriving DecidableEq, Repr, Inhabited

namespace Document

def length (d : Document) : Nat := d.text.width

def isEmpty (d : Document) : Bool := d.text.isEmpty

/-- Bounds are checked before boundaries, and the start before the end. -/
def check (d : Document) (range : ByteRange) : Except RangeError Unit :=
  if range.start > range.stop ∨ range.stop > d.length then
    .error (.outOfBounds range.start range.stop d.length)
  else if !d.text.isBoundary range.start then
    .error (.splitsCharacter range.start)
  else if !d.text.isBoundary range.stop then
    .error (.splitsCharacter range.stop)
  else .ok ()

def slice (d : Document) (range : ByteRange) : Except RangeError Text := do
  d.check range
  match d.text.slice? range with
  | some text => .ok text
  | none => .error (.outOfBounds range.start range.stop d.length)

def replace (d : Document) (range : ByteRange) (replacement : Text) :
    Except RangeError (Document × Change) := do
  d.check range
  match d.text.splice? range replacement with
  | some text => .ok (⟨text⟩, Change.record d.text range replacement)
  | none => .error (.outOfBounds range.start range.stop d.length)

def delete (d : Document) (range : ByteRange) : Except RangeError (Document × Change) :=
  d.replace range []

end Document

end ParseTree
