import ParseTree.Arena.Lowering
import ParseTree.Arith.Token

/-!
# Arithmetic expressions

A parser that gives every text a tree.  Operators are parsed by binding power
and associate to the left.  Where an operand or a closing parenthesis is
absent a missing node stands in for it; unknown text and parentheses beyond
`maxNesting` become error leaves; what follows a complete expression is
gathered under one error node.

Every recursive call comes after a token has been consumed, so the number of
remaining tokens bounds the recursion.
-/

namespace ParseTree.Arith

def maxNesting : Nat := 256

structure Cursor where
  rest : List Token
  /-- The end of the token consumed last. -/
  lastEnd : Nat := 0
  depth : Nat := 0
  deriving DecidableEq, Repr

namespace Cursor

def consume (c : Cursor) (token : Token) (rest : List Token) : Cursor :=
  { c with rest, lastEnd := token.range.stop }

def exhaust (c : Cursor) : Cursor :=
  { c with rest := [], lastEnd := (c.rest.map (·.range.stop)).getLastD c.lastEnd }

def missingNumber (c : Cursor) : Tree := .missing "number" true c.lastEnd

end Cursor

def errorLeaf (range : ByteRange) : Tree :=
  .leaf { kind := "ERROR", error := true, range }

def anonymousLeaf (kind : String) (range : ByteRange) : Tree :=
  .leaf { kind, named := false, range }

def binary (op : Operator) (left : Tree) (range : ByteRange) (right : Tree) : Tree :=
  .branch op.kind
    [left.withField "left", anonymousLeaf op.symbol range, right.withField "right"]

def closing (innerEnd : Nat) (c : Cursor) : Tree × Cursor :=
  match c.rest with
  | ⟨.closeParen, range⟩ :: rest =>
      (anonymousLeaf ")" range, c.consume ⟨.closeParen, range⟩ rest)
  | _ => (.missing ")" false innerEnd, c)

def parenthesized (inner : Cursor → Tree × Cursor) (opening : ByteRange) (c : Cursor) :
    Tree × Cursor :=
  let (body, c) := inner { c with depth := c.depth + 1 }
  let c := { c with depth := c.depth - 1 }
  let (close, c) := closing body.range.stop c
  (.branch "parenthesized_expression" [anonymousLeaf "(" opening, body, close], c)

def operand (inner : Cursor → Tree × Cursor) (c : Cursor) : Tree × Cursor :=
  match c.rest with
  | [] => (c.missingNumber, c)
  | token :: rest =>
      match token.kind with
      | .number => (.leaf { kind := "number", range := token.range }, c.consume token rest)
      | .variable => (.leaf { kind := "variable", range := token.range }, c.consume token rest)
      | .openParen =>
          if maxNesting ≤ c.depth then
            (errorLeaf ⟨token.range.start, c.exhaust.lastEnd⟩, c.exhaust)
          else parenthesized inner token.range (c.consume token rest)
      | .unknown => (errorLeaf token.range, c.consume token rest)
      | .operator _ | .closeParen => (c.missingNumber, c)

def climb (right : Nat → Cursor → Tree × Cursor) :
    Nat → Nat → Tree → Cursor → Tree × Cursor
  | 0, _, left, c => (left, c)
  | budget + 1, minPower, left, c =>
      match c.rest with
      | ⟨.operator op, range⟩ :: rest =>
          if op.power < minPower then (left, c)
          else
            let (operand, after) := right (op.power + 1) (c.consume ⟨.operator op, range⟩ rest)
            climb right budget minPower (binary op left range operand) after
      | _ => (left, c)

/-- An expression whose operators bind at least as tightly as `minPower`.  The
first argument bounds the depth of the recursion; as many as there are tokens
suffices. -/
def expression : Nat → Nat → Cursor → Tree × Cursor
  | 0, _, c => (c.missingNumber, c)
  | budget + 1, minPower, c =>
      let (left, c) := operand (expression budget 1) c
      climb (expression budget) (budget + 1) minPower left c

def leftovers : Nat → Cursor → List Tree × Cursor
  | 0, c => ([], c)
  | budget + 1, c =>
      match c.rest with
      | [] => ([], c)
      | ⟨.closeParen, range⟩ :: rest =>
          let (trees, c) := leftovers budget (c.consume ⟨.closeParen, range⟩ rest)
          (anonymousLeaf ")" range :: trees, c)
      | _ =>
          let (tree, c) := expression (budget + 1) 1 c
          let (trees, c) := leftovers budget c
          (tree :: trees, c)

def errorBranch (children : List Tree) : Tree :=
  .node { kind := "ERROR", error := true, range := Tree.spanOf children } children

def parseTokens (tokens : List Token) (length : Nat) : Tree :=
  let budget := tokens.length
  let (first, c) := expression budget 1 { rest := tokens }
  let (others, _) := leftovers budget c
  .node { kind := "expression", range := ⟨0, length⟩ }
    (if others.isEmpty then [first] else [first, errorBranch others])

def parse (text : Text) : Tree := parseTokens (Token.tokenize text) text.width

def arena (text : Text) : Arena := .ofTree text (parse text)

end ParseTree.Arith
