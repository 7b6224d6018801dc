import ParseTree.Arena.Basic

/-!
# From trees to arenas

A tree is pushed parent first and children from left to right, so the number
of a node in the arena is its place in pre-order.
-/

namespace ParseTree

namespace Builder

mutual

def addTree (parent : Option Nat) : Tree → Builder → Builder
  | .node label children, b => addForest (some b.size) children (b.push parent label)

def addForest (parent : Option Nat) : List Tree → Builder → Builder
  | [], b => b
  | t :: ts, b => addForest parent ts (addTree parent t b)

end

end Builder

def Arena.ofTree (text : Text) (t : Tree) : Arena :=
  (Builder.addTree none t (Builder.ofText text)).finish

end ParseTree
