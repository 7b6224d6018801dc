import ParseTree.Text.Position

/-!
# Changes of a text

A `Change` records one replacement: the offsets and positions of its start, of
its end in the old text and of its end in the new text.  `Change.between` finds
the smallest single replacement that leads from one text to another.
-/

namespace ParseTree

structure Change where
  start : Nat
  oldEnd : Nat
  newEnd : Nat
  startPosition : Position
  oldEndPosition : Position
  newEndPosition : Position
  deriving DecidableEq, Repr

namespace Text

def agreeing (pairs : List (UInt8 × UInt8)) : Nat :=
  (pairs.takeWhile fun pair => pair.1 = pair.2).length

/-- Steps down to the first offset that is allowed.  Zero always is. -/
def roundDown (allowed : Nat → Bool) : Nat → Nat
  | 0 => 0
  | offset + 1 => if allowed (offset + 1) then offset + 1 else roundDown allowed offset

end Text

namespace Change

def record (text : Text) (range : ByteRange) (replacement : Text) : Change :=
  let lines := LineIndex.ofText text
  let startPosition := lines.position range.start
  { start := range.start
    oldEnd := range.stop
    newEnd := addWord range.start replacement.width
    startPosition
    oldEndPosition := lines.position range.stop
    newEndPosition := startPosition.advance replacement }

/-- Keeps the bytes that agree in front, and then those that agree behind as far as both
texts have bytes left.  Either end steps back until it cuts no character of the two texts. -/
def between (old new : Text) : Change :=
  let pairs := old.bytes.zip new.bytes
  let head := Text.roundDown (fun n => old.isBoundary n && new.isBoundary n)
    (Text.agreeing pairs)
  let most := min old.width new.width - head
  let pairs := old.bytes.reverse.zip new.bytes.reverse
  let tail := Text.roundDown
    (fun n => old.isBoundary (old.width - n) && new.isBoundary (new.width - n))
    (Text.agreeing (pairs.take most))
  let inserted := (new.slice? ⟨head, new.width - tail⟩).getD []
  record old ⟨head, old.width - tail⟩ inserted

def deletedWidth (change : Change) : Nat := change.oldEnd - change.start

def insertedWidth (change : Change) : Nat := change.newEnd - change.start

end Change

end ParseTree
