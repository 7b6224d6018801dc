import ParseTree.Tree

/-!
# Patterns

What a query asks of a tree.  An element asks something of one node: either a
test of its kind with further elements for some of its children, in order, or
a choice between elements.  Captures name nodes by slots; predicates compare
the texts of captured nodes.
-/

namespace ParseTree.Query

inductive KindTest where
  | named (kind : String)
  | anyNamed
  | any
  | anonymous (kind : String)
  | error
  | missing (kind : Option String)
  deriving DecidableEq, Repr

def KindTest.accepts (test : KindTest) (label : Label) : Bool :=
  match test with
  | .named kind => label.named && label.kind == kind
  | .anyNamed => label.named
  | .any => true
  | .anonymous kind => !label.named && label.kind == kind
  | .error => label.error
  | .missing none => label.missing
  | .missing (some kind) => label.missing && label.kind == kind

/-- What is written around an element: the field before it, and the question
mark and captures behind it. -/
structure Mark where
  field : Option String := none
  optional : Bool := false
  captures : List Nat := []
  deriving DecidableEq, Repr

/-- A node element lists the elements for children, and the fields under which
the node may have no child. -/
inductive Element where
  | node (test : KindTest) (children : List Element) (absent : List String) (mark : Mark)
  | choice (branches : List Element) (mark : Mark)
  deriving Repr

namespace Element

def mark : Element → Mark
  | .node _ _ _ mark => mark
  | .choice _ mark => mark

def withMark (mark : Mark) : Element → Element
  | .node test children absent _ => .node test children absent mark
  | .choice branches _ => .choice branches mark

end Element

inductive Operand where
  | text (t : Text)
  | capture (slot : Nat)
  deriving DecidableEq, Repr

structure Predicate where
  negated : Bool
  capture : Nat
  operand : Operand
  deriving DecidableEq, Repr

structure Pattern where
  root : Element
  captureNames : List String
  predicates : List Predicate
  start : Nat
  deriving Repr

end ParseTree.Query
