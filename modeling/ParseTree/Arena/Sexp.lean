import ParseTree.Arena.Basic

/-!
# S-expressions

The parenthesised form of a subtree.  It shows named and missing nodes, each
behind its field name, and leaves out the field of the node it starts from.
The writer keeps an explicit stack of steps, each of which writes one piece.
-/

namespace ParseTree.Arena

inductive SexpStep where
  | opening (id : Nat) (nested : Bool)
  | closing
  deriving DecidableEq, Repr

def sexpLead (label : Label) : Text :=
  match label.field with
  | none => [' ']
  | some field => ' ' :: field.toList ++ [':', ' ']

def sexpMissing (label : Label) : Text :=
  if label.named then "(MISSING ".toList ++ label.kind.toList ++ [')']
  else "(MISSING \"".toList ++ label.kind.toList ++ ['"', ')']

def isShown (a : Arena) (id : Nat) : Bool := (a.label id).named || (a.label id).missing

def shownChildren (a : Arena) (id : Nat) : List Nat := (a.children id).filter a.isShown

def sexpRun (a : Arena) : Nat → List SexpStep → Text
  | 0, _ => []
  | _ + 1, [] => []
  | budget + 1, .closing :: stack => ')' :: a.sexpRun budget stack
  | budget + 1, .opening id nested :: stack =>
      let label := a.label id
      let lead := if nested then sexpLead label else []
      if label.missing then lead ++ sexpMissing label ++ a.sexpRun budget stack
      else
        lead ++ '(' :: label.kind.toList ++
          a.sexpRun budget
            ((a.shownChildren id).map (.opening · true) ++ .closing :: stack)

/-- Each node at or below `id` is opened and closed at most once. -/
def sexp (a : Arena) (id : Nat) : Text :=
  a.sexpRun (2 * (a.outline id).size) [.opening id false]

end ParseTree.Arena
