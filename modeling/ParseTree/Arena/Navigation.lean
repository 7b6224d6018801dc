import ParseTree.Arena.Basic
import ParseTree.Text.Ruler

/-!
# Moving between the nodes of an arena

Parents, children, siblings and paths.  Siblings are found by a node's place
among the children of its parent.
-/

namespace ParseTree.Arena

def range (a : Arena) (id : Nat) : ByteRange := (a.label id).range

/-- The text that a node covers; nothing if its range cuts a character. -/
def textOf (a : Arena) (source : Text) (id : Nat) : Text :=
  (source.slice? (a.range id)).getD []

def measuredText (a : Arena) (ruler : Ruler) (id : Nat) : Text :=
  (ruler.slice? (a.range id)).getD []

theorem measuredText_ofText (a : Arena) (source : Text) :
    a.measuredText (Ruler.ofText source) = a.textOf source := by
  funext id
  rw [measuredText, textOf, Ruler.slice?_ofText]

def parent? (a : Arena) (id : Nat) : Option Nat :=
  (a.entry id).parent.filter (· < a.size)

def child? (a : Arena) (id index : Nat) : Option Nat := (a.children id)[index]?

def namedChildren (a : Arena) (id : Nat) : List Nat :=
  (a.children id).filter fun child => (a.label child).named

def childrenByField (a : Arena) (id : Nat) (field : String) : List Nat :=
  (a.children id).filter fun child => (a.label child).field = some field

def place? (a : Arena) (id : Nat) : Option (Nat × Nat) :=
  match a.parent? id with
  | none => none
  | some parent => ((a.children parent).idxOf? id).map fun index => (parent, index)

def nextSibling? (a : Arena) (id : Nat) : Option Nat :=
  match a.place? id with
  | none => none
  | some (parent, index) => a.child? parent (index + 1)

def previousSibling? (a : Arena) (id : Nat) : Option Nat :=
  match a.place? id with
  | none | some (_, 0) => none
  | some (parent, index + 1) => a.child? parent index

def follow? (a : Arena) (id : Nat) : List Nat → Option Nat
  | [] => some id
  | index :: path =>
      match a.child? id index with
      | none => none
      | some child => a.follow? child path

def isFaulty (a : Arena) (id : Nat) : Bool := (a.label id).error || (a.label id).missing

def faults (a : Arena) (id : Nat) : List Nat := (a.descendants id).filter a.isFaulty

def hasFault (a : Arena) (id : Nat) : Bool := (a.descendants id).any a.isFaulty

def tallyName (a : Arena) (id : Nat) : String :=
  if (a.label id).missing then "MISSING " ++ (a.label id).kind else (a.label id).kind

def tally (a : Arena) (id : Nat) : List (String × Nat) :=
  let names := (a.descendants id).map a.tallyName
  names.eraseDups.map fun name => (name, names.count name)

end ParseTree.Arena
