import ParseTree.Rose
import ParseTree.Text.Basic

/-!
# Labelled trees

What a parser says about each node, and the trees it builds from that.  A node
is `missing` when the parser supplied it where the text has nothing, and an
`error` when it stands for text that fits nowhere.
-/

namespace ParseTree

structure Label where
  kind : String
  named : Bool := true
  error : Bool := false
  missing : Bool := false
  field : Option String := none
  range : ByteRange
  deriving DecidableEq, Repr

abbrev Tree := Rose Label

namespace Tree

def range (t : Tree) : ByteRange := t.value.range

def leaf (label : Label) : Tree := .node label []

def missing (kind : String) (named : Bool) (offset : Nat) : Tree :=
  leaf { kind, named, missing := true, range := ⟨offset, offset⟩ }

def spanOf (trees : List Tree) : ByteRange :=
  match trees with
  | [] => ⟨0, 0⟩
  | first :: rest => ⟨first.range.start, (rest.map (·.range.stop)).foldl max first.range.stop⟩

def branch (kind : String) (children : List Tree) : Tree :=
  .node { kind, range := spanOf children } children

def withField (field : String) : Tree → Tree
  | .node label children => .node { label with field := some field } children

end Tree

end ParseTree
