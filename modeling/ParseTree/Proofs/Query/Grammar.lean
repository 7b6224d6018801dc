import ParseTree.Grammar
import ParseTree.Query.Token

/-!
# The language of queries

Which sequences of tokens are queries, as rules that build them from their parts.
The rules know nothing of a vocabulary: along with the tokens they list the names
that a query mentions, in the order in which they are written, and `Checks` says
what must hold of these names.

Two choices of a reader show in the rules.  A parenthesis opens a group only in
front of another bracket or a string, and a name or string directly behind
`MISSING` is always the kind that is missing.
-/

namespace ParseTree.Query

inductive Mention where
  | kind (name : String)
  | text (name : String)
  | field (name : String)
  /-- A capture behind an element. -/
  | capture (name : String)
  /-- A capture inside a predicate. -/
  | compared (name : String)
  deriving DecidableEq, Repr

namespace Mention

def isKnown (v : Vocabulary) : Mention → Bool
  | .kind name => v.hasKind name true
  | .text name => v.hasKind name false
  | .field name => v.hasField name
  | .capture name | .compared name => name ≠ ""

def capture? : Mention → Option String
  | .capture name => some name
  | .kind _ | .text _ | .field _ | .compared _ => none

def compared? : Mention → Option String
  | .compared name => some name
  | .kind _ | .text _ | .field _ | .capture _ => none

end Mention

def declared (mentions : List Mention) : List String := mentions.filterMap Mention.capture?

def compared (mentions : List Mention) : List String := mentions.filterMap Mention.compared?

structure Checks (v : Vocabulary) (mentions : List Mention) : Prop where
  known : ∀ m ∈ mentions, m.isKnown v = true
  distinct : (declared mentions).Nodup
  resolved : ∀ name ∈ compared mentions, name ∈ declared mentions

namespace Token

def literal (t : Token) : String := String.ofList (unquote t.text)

def captureMention (t : Token) : Mention := .capture t.nameAfterSign

def comparedMention (t : Token) : Mention := .compared t.nameAfterSign

@[simp] theorem isKnown_captureMention (v : Vocabulary) (t : Token) :
    t.captureMention.isKnown v = true ↔ t.nameAfterSign ≠ "" := by
  simp [captureMention, Mention.isKnown]

@[simp] theorem isKnown_comparedMention (v : Vocabulary) (t : Token) :
    t.comparedMention.isKnown v = true ↔ t.nameAfterSign ≠ "" := by
  simp [comparedMention, Mention.isKnown]

end Token

inductive IsPredicate : List Token → List Mention → Prop
  | withCapture {opening head capture operand closing : Token} :
      opening.kind = .parenOpen → head.kind = .predicate →
      head.nameAfterSign ∈ ["eq?", "not-eq?"] → capture.kind = .capture →
      operand.kind = .capture → closing.kind = .parenClose →
      IsPredicate [opening, head, capture, operand, closing]
        [capture.comparedMention, operand.comparedMention]
  | withText {opening head capture operand closing : Token} :
      opening.kind = .parenOpen → head.kind = .predicate →
      head.nameAfterSign ∈ ["eq?", "not-eq?"] → capture.kind = .capture →
      operand.kind = .string → closing.kind = .parenClose →
      IsPredicate [opening, head, capture, operand, closing] [capture.comparedMention]

inductive IsPredicates : List Token → List Mention → Prop
  | nil : IsPredicates [] []
  | cons {ts us : List Token} {ms ns : List Mention} :
      IsPredicate ts ms → IsPredicates us ns → IsPredicates (ts ++ us) (ms ++ ns)

inductive IsKind (following : List Token) : List Token → List Mention → Prop
  | word {t : Token} : t.kind = .identifier → t.name ∈ ["_", "ERROR"] →
      IsKind following [t] []
  | named {t : Token} : t.kind = .identifier → t.name ∉ ["_", "ERROR", "MISSING"] →
      IsKind following [t] [.kind t.name]
  | missing {t : Token} : t.kind = .identifier → t.name = "MISSING" →
      (∀ u ∈ following.head?, u.kind ≠ .identifier ∧ u.kind ≠ .string) →
      IsKind following [t] []
  | missingNamed {t u : Token} : t.kind = .identifier → t.name = "MISSING" →
      u.kind = .identifier → IsKind following [t, u] [.kind u.name]
  | missingText {t u : Token} : t.kind = .identifier → t.name = "MISSING" →
      u.kind = .string → IsKind following [t, u] [.text u.literal]

def StartsGroup (tokens : List Token) : Prop :=
  ∃ t ∈ tokens.head?, t.kind = .parenOpen ∨ t.kind = .bracketOpen ∨ t.kind = .string

mutual

/-- An element; the last argument says whether it is optional. -/
inductive IsElement : List Token → List Mention → Bool → Prop
  | plain {ts : List Token} {ms : List Mention} {optional : Bool} :
      IsMarked ts ms optional → IsElement ts ms optional
  | field {name colon : Token} {ts : List Token} {ms : List Mention} {optional : Bool} :
      name.kind = .identifier → colon.kind = .colon → IsMarked ts ms optional →
      IsElement (name :: colon :: ts) (.field name.name :: ms) optional

inductive IsMarked : List Token → List Mention → Bool → Prop
  | plain {body captures : List Token} {ms : List Mention} {optional : Bool} :
      IsAtom body ms optional → (∀ t ∈ captures, t.kind = .capture) →
      IsMarked (body ++ captures) (ms ++ captures.map Token.captureMention) optional
  | optional {body captures : List Token} {question : Token} {ms : List Mention} {inner : Bool} :
      IsAtom body ms inner → question.kind = .question →
      (∀ t ∈ captures, t.kind = .capture) →
      IsMarked (body ++ question :: captures) (ms ++ captures.map Token.captureMention) true

/-- A group is optional if the element inside it is. -/
inductive IsAtom : List Token → List Mention → Bool → Prop
  | wildcard {t : Token} : t.kind = .identifier → t.name = "_" → IsAtom [t] [] false
  | string {t : Token} : t.kind = .string → IsAtom [t] [.text t.literal] false
  | choice {opening closing : Token} {ts : List Token} {ms : List Mention} :
      opening.kind = .bracketOpen → IsBranches ts ms → ts ≠ [] →
      closing.kind = .bracketClose → IsAtom (opening :: (ts ++ [closing])) ms false
  | node {opening closing : Token} {kind items : List Token} {ks ms : List Mention} :
      opening.kind = .parenOpen → IsKind (items ++ [closing]) kind ks → IsItems items ms →
      closing.kind = .parenClose →
      IsAtom (opening :: (kind ++ (items ++ [closing]))) (ks ++ ms) false
  | group {opening closing : Token} {before body after : List Token}
      {bs ms as : List Mention} {optional : Bool} :
      opening.kind = .parenOpen → IsPredicates before bs → IsElement body ms optional →
      IsPredicates after as → closing.kind = .parenClose → StartsGroup (before ++ body) →
      IsAtom (opening :: (before ++ (body ++ (after ++ [closing])))) (bs ++ (ms ++ as)) optional

inductive IsItems : List Token → List Mention → Prop
  | nil : IsItems [] []
  | child {ts us : List Token} {ms ns : List Mention} {optional : Bool} :
      IsElement ts ms optional → IsItems us ns → IsItems (ts ++ us) (ms ++ ns)
  | absent {bang name : Token} {us : List Token} {ns : List Mention} :
      bang.kind = .bang → name.kind = .identifier → IsItems us ns →
      IsItems (bang :: name :: us) (.field name.name :: ns)
  | predicate {ts us : List Token} {ms ns : List Mention} :
      IsPredicate ts ms → IsItems us ns → IsItems (ts ++ us) (ms ++ ns)

inductive IsBranches : List Token → List Mention → Prop
  | nil : IsBranches [] []
  | cons {ts us : List Token} {ms ns : List Mention} {optional : Bool} :
      IsElement ts ms optional → IsBranches us ns → IsBranches (ts ++ us) (ms ++ ns)

end

def IsPattern (v : Vocabulary) (tokens : List Token) : Prop :=
  ∃ mentions, IsMarked tokens mentions false ∧ Checks v mentions

def IsQuery (v : Vocabulary) (tokens : List Token) : Prop :=
  ∃ patterns : List (List Token), patterns ≠ [] ∧ tokens = patterns.flatten ∧
    ∀ p ∈ patterns, IsPattern v p

/-! ## First tokens -/

def Starts (tokens : List Token) : Prop :=
  ∃ t rest, tokens = t :: rest ∧
    (t.kind = .identifier ∨ t.kind = .parenOpen ∨ t.kind = .bracketOpen ∨ t.kind = .string)

def Ends (tokens : List Token) : Prop :=
  ∀ t ∈ tokens.head?, t.kind ≠ .colon ∧ t.kind ≠ .question ∧ t.kind ≠ .star ∧
    t.kind ≠ .plus ∧ t.kind ≠ .capture

theorem Starts.append {tokens : List Token} (h : Starts tokens) (rest : List Token) :
    Starts (tokens ++ rest) := by
  obtain ⟨t, more, rfl, kind⟩ := h
  exact ⟨t, more ++ rest, rfl, kind⟩

theorem Starts.ends {tokens : List Token} (h : Starts tokens) : Ends tokens := by
  obtain ⟨t, rest, rfl, kind⟩ := h
  intro u mem
  obtain rfl : t = u := Option.some.inj mem
  rcases kind with kind | kind | kind | kind <;> simp [kind]

theorem Starts.length_pos {ts : List Token} (h : Starts ts) : 0 < ts.length := by
  obtain ⟨t, rest, rfl, -⟩ := h
  exact Nat.zero_lt_succ _

theorem ends_cons {t : Token} {rest : List Token}
    (kind : t.kind = .parenClose ∨ t.kind = .bracketClose ∨ t.kind = .bang) :
    Ends (t :: rest) := by
  intro u mem
  obtain rfl : t = u := Option.some.inj mem
  rcases kind with kind | kind | kind <;> simp [kind]

theorem IsPredicate.starts {ts : List Token} {ms : List Mention} (h : IsPredicate ts ms) :
    Starts ts := by
  cases h with
  | withCapture kind => exact ⟨_, _, rfl, .inr (.inl kind)⟩
  | withText kind => exact ⟨_, _, rfl, .inr (.inl kind)⟩

theorem IsAtom.starts {ts : List Token} {ms : List Mention} {optional : Bool}
    (h : IsAtom ts ms optional) : Starts ts := by
  cases h with
  | wildcard kind => exact ⟨_, _, rfl, .inl kind⟩
  | string kind => exact ⟨_, _, rfl, .inr (.inr (.inr kind))⟩
  | choice kind => exact ⟨_, _, rfl, .inr (.inr (.inl kind))⟩
  | node kind => exact ⟨_, _, rfl, .inr (.inl kind)⟩
  | group kind => exact ⟨_, _, rfl, .inr (.inl kind)⟩

theorem IsMarked.starts {ts : List Token} {ms : List Mention} {optional : Bool}
    (h : IsMarked ts ms optional) : Starts ts := by
  cases h with
  | plain atom => exact atom.starts.append _
  | optional atom => exact atom.starts.append _

theorem IsElement.starts {ts : List Token} {ms : List Mention} {optional : Bool}
    (h : IsElement ts ms optional) : Starts ts := by
  cases h with
  | plain marked => exact marked.starts
  | field kind => exact ⟨_, _, rfl, .inl kind⟩

theorem IsPattern.starts {v : Vocabulary} {tokens : List Token} (h : IsPattern v tokens) :
    Starts tokens := by
  obtain ⟨_, marked, -⟩ := h
  exact marked.starts

end ParseTree.Query
