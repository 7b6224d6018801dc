import ParseTree.Text.Blank
import ParseTree.Text.Position

/-!
# Settings

The settings of parsers, queries and visits, and how they are read from a
structured value.  Settings are read from a record, by name and with unknown
names ignored, or from a list, by place; what is absent takes its default.
-/

namespace ParseTree

/-- A structured value.  `natural` holds the numbers that fit a 64-bit word;
every other number is a `quantity`. -/
inductive Value where
  | null
  | bool (b : Bool)
  | natural (n : Nat)
  | quantity
  | text (s : String)
  | list (items : List Value)
  | record (fields : List (String × Value))
  deriving Inhabited

namespace Value

def toBool? : Value → Option Bool
  | .bool b => some b
  | _ => none

def toNat? : Value → Option Nat
  | .natural n => if n ≤ wordLimit then some n else none
  | _ => none

def optional (read : Value → Option α) : Value → Option (Option α)
  | .null => some none
  | value => (read value).map some

def setting (read : Value → Option α) (default : α) : Option Value → Option α
  | none => some default
  | some value => read value

/-- The named settings of a record, or those of a list in the order of
`names`.  A list that is longer than `names` is refused. -/
def settings (names : List String) : Value → Option (List (Option Value))
  | .record fields => some (names.map fun name => fields.lookup name)
  | .list items =>
      if items.length ≤ names.length then
        some ((List.range names.length).map fun i => items[i]?)
      else none
  | _ => none

def toRange? : Value → Option ByteRange
  | .record fields =>
      if fields.all fun (name, _) => name == "start" || name == "end" then
        match (fields.lookup "start").bind toNat?, (fields.lookup "end").bind toNat? with
        | some start, some stop => some ⟨start, stop⟩
        | _, _ => none
      else none
  | .list [start, stop] =>
      match start.toNat?, stop.toNat? with
      | some start, some stop => some ⟨start, stop⟩
      | _, _ => none
  | _ => none

end Value

structure ParserSettings where
  incremental : Bool := true
  deriving DecidableEq, Repr, Inhabited

def ParserSettings.ofValue? (value : Value) : Option ParserSettings :=
  match value.settings ["incremental"] with
  | some [incremental] => (Value.setting Value.toBool? true incremental).map fun b => ⟨b⟩
  | _ => none

structure QuerySettings where
  byteRange : Option ByteRange := none
  matchLimit : Option Nat := none
  deriving DecidableEq, Repr, Inhabited

namespace QuerySettings

def ofValue? (value : Value) : Option QuerySettings :=
  match value.settings ["byte_range", "match_limit"] with
  | some [byteRange, matchLimit] =>
      match Value.setting (Value.optional Value.toRange?) none byteRange,
          Value.setting (Value.optional Value.toNat?) none matchLimit with
      | some byteRange, some matchLimit => some ⟨byteRange, matchLimit⟩
      | _, _ => none
  | _ => none

/-- A node is covered when it shares a byte with the byte range; a node of no
width when it lies on the range or at one of its ends. -/
def covers (s : QuerySettings) (node : ByteRange) : Bool :=
  match s.byteRange with
  | none => true
  | some range =>
      if node.start = node.stop then range.start ≤ node.start && node.start ≤ range.stop
      else node.start < range.stop && range.start < node.stop

end QuerySettings

inductive Dispatch where
  | independent
  | wrapSupersedes
  deriving DecidableEq, Repr, Inhabited

namespace Dispatch

def name : Dispatch → String
  | .independent => "independent"
  | .wrapSupersedes => "wrap_supersedes"

def title : Dispatch → String
  | .independent => "Independent"
  | .wrapSupersedes => "WrapSupersedes"

def ofExactName? : String → Option Dispatch
  | "independent" => some .independent
  | "wrap_supersedes" => some .wrapSupersedes
  | _ => none

def ofName? (text : String) : Option Dispatch :=
  ofExactName? (String.ofList (Text.lower text.toList))

/-- A mode is its name, or a record whose only field is its name with no value. -/
def ofValue? : Value → Option Dispatch
  | .text name => ofExactName? name
  | .record [(name, .null)] => ofExactName? name
  | _ => none

def unknownMessage : String := "Matching variant not found"

end Dispatch

structure VisitSettings where
  dispatch : Dispatch := .independent
  deriving DecidableEq, Repr, Inhabited

def VisitSettings.ofValue? (value : Value) : Option VisitSettings :=
  match value.settings ["dispatch"] with
  | some [dispatch] => (Value.setting Dispatch.ofValue? .independent dispatch).map fun d => ⟨d⟩
  | _ => none

end ParseTree
