import ParseTree.Arena.Navigation
import ParseTree.Text.Quoted

/-!
# Descriptions of arenas and nodes
-/

namespace ParseTree

def Position.describe (p : Position) : String :=
  Quoted.record "Position" [("row", toString p.row), ("column", toString p.column)]

namespace Arena

def describeId (id : Nat) : String := "NodeId(" ++ toString id ++ ")"

end Arena

def Entry.describe (e : Entry) : String :=
  Quoted.record "NodeData"
    [("kind", Quoted.string e.label.kind),
     ("named", toString e.label.named),
     ("error", toString e.label.error),
     ("missing", toString e.label.missing),
     ("field", Quoted.option (e.label.field.map Quoted.string)),
     ("byte_range", Quoted.range e.label.range),
     ("start", e.start.describe),
     ("end", e.stop.describe),
     ("parent", Quoted.option (e.parent.map Arena.describeId)),
     ("children", Quoted.list (e.children.map Arena.describeId))]

namespace Arena

def describe (a : Arena) : String :=
  Quoted.record "SyntaxArena"
    [("root", a.root.describe),
     ("rest", Quoted.list (a.rest.toList.map Entry.describe))]

def describeNode (a : Arena) (source : Text) (id : Nat) : String :=
  Quoted.record "Node"
    [("kind", Quoted.string (a.label id).kind),
     ("byte_range", Quoted.range (a.range id)),
     ("text", Quoted.text (a.textOf source id))]

end Arena

end ParseTree
