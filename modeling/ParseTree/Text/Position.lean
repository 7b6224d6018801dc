import ParseTree.Text.Basic

/-!
# Rows and columns

A position is a row and a byte column, both counted from zero.  `LineIndex`
finds the position of an offset from the starts of the lines; `advance` finds
the position that lies beyond a piece of text without looking at what precedes
it.  Sums stop at the largest 64-bit word.
-/

namespace ParseTree

/-- The largest offset, row or column: 64 bits, all set. -/
def wordLimit : Nat := 0xffffffffffffffff

def addWord (a b : Nat) : Nat := min (a + b) wordLimit

structure Position where
  row : Nat := 0
  column : Nat := 0
  deriving DecidableEq, Repr, Inhabited

namespace Position

def compare (p q : Position) : Ordering :=
  (Ord.compare p.row q.row).then (Ord.compare p.column q.column)

def display (p : Position) : String := toString p.row ++ ":" ++ toString p.column

/-- The largest line or column number that is shown to a reader: 32 bits. -/
def shownLimit : Nat := 0xffffffff

def oneBased (p : Position) : Nat × Nat :=
  (min (addWord p.row 1) shownLimit, min (addWord p.column 1) shownLimit)

def advance (p : Position) (text : Text) : Position :=
  if '\n' ∈ text then
    ⟨addWord p.row (text.count '\n'),
      Text.width (text.reverse.takeWhile (· ≠ '\n'))⟩
  else ⟨p.row, addWord p.column text.width⟩

end Position

/-- The offsets at which the lines behind the first one start, in increasing
order. -/
structure LineIndex where
  starts : List Nat
  deriving DecidableEq, Repr

namespace LineIndex

def startsFrom : Nat → Text → List Nat
  | _, [] => []
  | offset, c :: text =>
      if c = '\n' then (offset + c.utf8Size) :: startsFrom (offset + c.utf8Size) text
      else startsFrom (offset + c.utf8Size) text

def ofText (text : Text) : LineIndex := ⟨startsFrom 0 text⟩

/-- The position of `offset` from line `row` on, which starts at `start`; the
lines behind it start at `later`. -/
def locate (offset : Nat) : Nat → Nat → List Nat → Position
  | row, start, [] => ⟨row, offset - start⟩
  | row, start, next :: later =>
      if next ≤ offset then locate offset (row + 1) next later else ⟨row, offset - start⟩

/-- The last line that starts at or before `offset`, and the distance from its
start.  An offset past the end belongs to the last line. -/
def position (lines : LineIndex) (offset : Nat) : Position := locate offset 0 0 lines.starts

end LineIndex

def Text.positionAt (text : Text) (offset : Nat) : Position :=
  (LineIndex.ofText text).position offset

end ParseTree
