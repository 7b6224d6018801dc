import ParseTree.Text.Basic

/-!
# Descriptions of values

The written form of strings, lists, options and records in the descriptions
that nodes, arenas and visitors give of themselves.
-/

namespace ParseTree.Quoted

def escape (c : Char) : String :=
  match c with
  | '"' => "\\\""
  | '\\' => "\\\\"
  | '\n' => "\\n"
  | '\r' => "\\r"
  | '\t' => "\\t"
  | '\x00' => "\\0"
  | c =>
      if c.toNat < 0x20 || c.toNat == 0x7f then
        "\\u\x7b" ++ String.ofList (Nat.toDigits 16 c.toNat) ++ "\x7d"
      else c.toString

def text (t : Text) : String := "\"" ++ String.join (t.map escape) ++ "\""

def string (s : String) : String := text s.toList

def list (items : List String) : String := "[" ++ ", ".intercalate items ++ "]"

def option : Option String → String
  | none => "None"
  | some item => "Some(" ++ item ++ ")"

def range (r : ByteRange) : String := toString r.start ++ ".." ++ toString r.stop

def field : String × String → String
  | (name, value) => name ++ ": " ++ value

def record (name : String) (fields : List (String × String)) : String :=
  name ++ " \x7b " ++ ", ".intercalate (fields.map field) ++ " \x7d"

def openRecord (name : String) (fields : List (String × String)) : String :=
  name ++ " \x7b " ++ ", ".intercalate (fields.map field ++ [".."]) ++ " \x7d"

end ParseTree.Quoted
