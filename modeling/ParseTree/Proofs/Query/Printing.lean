import ParseTree.Proofs.Query.WellFormed
import ParseTree.Proofs.Query.Words

/-!
# Patterns in words

How a pattern is written.  An element stands between its field and its question mark
and captures; the predicates of a pattern come first inside one group around it.
`Pattern.Printable` is what a pattern needs to be written at all: a bare `MISSING`
would take a following name for its kind, and a wildcard or a string has no room for
children.
-/

namespace ParseTree

/-- Kinds and fields are names, and none of the kinds is a word of the query language. -/
structure Vocabulary.Writable (v : Vocabulary) : Prop where
  kinds : ∀ kind ∈ v.named, (Query.Word.name kind).isWritable = true
  fields : ∀ field ∈ v.fields, (Query.Word.name field).isWritable = true
  unreserved : "_" ∉ v.named ∧ "MISSING" ∉ v.named

theorem Vocabulary.Writable.unnamed {v : Vocabulary} (h : v.Writable) :
    v.hasField "" = false := by
  refine Bool.eq_false_iff.2 fun known => ?_
  have isName := h.fields "" (List.contains_iff_mem.1 known)
  exact absurd isName (by decide)

namespace Query

namespace KindTest

/-- What stands behind the parenthesis.  A missing kind is written as a name if the
vocabulary has a named kind of this name. -/
def words (v : Vocabulary) : KindTest → List Word
  | .named kind => [.name kind]
  | .anyNamed => [.name "_"]
  | .error => [.name "ERROR"]
  | .missing none => [.name "MISSING"]
  | .missing (some kind) =>
      [.name "MISSING", if v.hasKind kind true then .name kind else .string kind.toList]
  | .any | .anonymous _ => []

def atomWords (v : Vocabulary) (items : List Word) : KindTest → List Word
  | .any => [.name "_"]
  | .anonymous kind => [.string kind.toList]
  | test => .parenOpen :: (test.words v ++ (items ++ [.parenClose]))

end KindTest

namespace Mark

def lead (mark : Mark) : List Word :=
  match mark.field with
  | none => []
  | some field => [.name field, .colon]

def trail (names : List String) (mark : Mark) : List Word :=
  (if mark.optional then [.question] else []) ++
    mark.captures.map fun slot => .capture (names.getD slot "")

def around (names : List String) (mark : Mark) (atom : List Word) : List Word :=
  mark.lead ++ (atom ++ mark.trail names)

end Mark

def absentWords (fields : List String) : List Word :=
  fields.flatMap fun field => [.bang, .name field]

mutual

def Element.words (v : Vocabulary) (names : List String) : Element → List Word
  | .node test children absent mark =>
      mark.around names (test.atomWords v (wordsAll v names children ++ absentWords absent))
  | .choice branches mark =>
      mark.around names (.bracketOpen :: (wordsAll v names branches ++ [.bracketClose]))

def wordsAll (v : Vocabulary) (names : List String) : List Element → List Word
  | [] => []
  | e :: es => e.words v names ++ wordsAll v names es

end

def Operand.word (names : List String) : Operand → Word
  | .text t => .string t
  | .capture slot => .capture (names.getD slot "")

def Predicate.words (names : List String) (p : Predicate) : List Word :=
  [.parenOpen, .predicate (if p.negated then "not-eq?" else "eq?"),
    .capture (names.getD p.capture ""), p.operand.word names, .parenClose]

def Pattern.words (v : Vocabulary) (p : Pattern) : List Word :=
  if p.predicates.isEmpty then p.root.words v p.captureNames
  else
    .parenOpen :: (p.predicates.flatMap (Predicate.words p.captureNames) ++
      (p.root.words v p.captureNames ++ [.parenClose]))

/-- The demands on one element, apart from those inside it.  The kind `ERROR` has a
test of its own. -/
def Element.isPrintable : Element → Bool
  | .node (.named kind) _ _ _ => kind ≠ "ERROR"
  | .node .any children absent _ | .node (.anonymous _) children absent _ =>
      children.isEmpty && absent.isEmpty
  | .node (.missing none) children _ _ => children.isEmpty
  | .node .. | .choice .. => true

structure Pattern.Printable (v : Vocabulary) (p : Pattern) : Prop extends p.WellFormed v where
  printable : ∀ e ∈ p.root.preorder, e.isPrintable = true
  written : ∀ name ∈ p.captureNames, name.toList.all isCaptureChar = true

/-! ## The words are writable -/

section Writable

variable {v : Vocabulary} (writable : v.Writable)

include writable

theorem writable_kind {kind : String} (h : v.hasKind kind true = true) :
    (Word.name kind).isWritable = true :=
  writable.kinds kind (List.contains_iff_mem.1 h)

theorem writable_field {field : String} (h : v.hasField field = true) :
    (Word.name field).isWritable = true :=
  writable.fields field (List.contains_iff_mem.1 h)

theorem KindTest.writable_words {test : KindTest} (known : test.isKnown v = true) :
    ∀ w ∈ test.words v, w.isWritable = true := by
  cases test with
  | named kind => exact List.forall_mem_singleton.2 (writable_kind writable known)
  | anyNamed | error => exact List.forall_mem_singleton.2 (by decide)
  | any | anonymous => simp [words]
  | missing kind =>
      cases kind with
      | none => exact List.forall_mem_singleton.2 (by decide)
      | some kind =>
          refine List.forall_mem_cons.2 ⟨by decide, List.forall_mem_singleton.2 ?_⟩
          split
          · rename_i isName
            exact writable_kind writable isName
          · rfl

theorem KindTest.writable_atomWords {test : KindTest} {items : List Word}
    (known : test.isKnown v = true) (inside : ∀ w ∈ items, w.isWritable = true) :
    ∀ w ∈ test.atomWords v items, w.isWritable = true := by
  have kind := KindTest.writable_words writable known
  unfold atomWords
  split
  · exact List.forall_mem_singleton.2 (by decide)
  · exact List.forall_mem_singleton.2 rfl
  · refine List.forall_mem_cons.2 ⟨rfl, List.forall_mem_append.2 ⟨kind, ?_⟩⟩
    exact List.forall_mem_append.2 ⟨inside, List.forall_mem_singleton.2 rfl⟩

theorem writable_absentWords {fields : List String} (known : fields.all v.hasField = true) :
    ∀ w ∈ absentWords fields, w.isWritable = true := by
  intro w mem
  obtain ⟨field, used, here⟩ := List.mem_flatMap.1 mem
  have isName := writable_field writable (List.all_eq_true.1 known field used)
  simp only [List.mem_cons, List.not_mem_nil, or_false] at here
  rcases here with rfl | rfl
  · rfl
  · exact isName

variable {names : List String} (written : ∀ name ∈ names, name.toList.all isCaptureChar = true)

include written

omit writable in
theorem writable_capture (slot : Nat) : (Word.capture (names.getD slot "")).isWritable = true := by
  rw [List.getD_eq_getElem?_getD]
  cases found : names[slot]? with
  | none => rfl
  | some name => exact written name (List.mem_of_getElem? found)

theorem Mark.writable_around {mark : Mark} {atom : List Word} (known : mark.isKnown v = true)
    (inside : ∀ w ∈ atom, w.isWritable = true) :
    ∀ w ∈ mark.around names atom, w.isWritable = true := by
  refine List.forall_mem_append.2 ⟨?_, List.forall_mem_append.2 ⟨inside, ?_⟩⟩
  · unfold lead
    split
    · simp
    · rename_i field here
      rw [Mark.isKnown, here] at known
      exact List.forall_mem_cons.2
        ⟨writable_field writable known, List.forall_mem_singleton.2 rfl⟩
  · refine List.forall_mem_append.2 ⟨by split <;> simp [Word.isWritable], ?_⟩
    intro w mem
    obtain ⟨slot, -, rfl⟩ := List.mem_map.1 mem
    exact writable_capture written slot

omit writable in
theorem Predicate.writable_words (p : Predicate) :
    ∀ w ∈ p.words names, w.isWritable = true := by
  have name : (Word.predicate (if p.negated then "not-eq?" else "eq?")).isWritable = true := by
    split <;> decide
  have operand : (p.operand.word names).isWritable = true := by
    cases p.operand with
    | text t => rfl
    | capture slot => exact writable_capture written slot
  have capture := writable_capture written p.capture
  refine List.forall_mem_cons.2 ⟨rfl, List.forall_mem_cons.2 ⟨name, List.forall_mem_cons.2 ?_⟩⟩
  refine ⟨capture, List.forall_mem_cons.2 ⟨operand, List.forall_mem_singleton.2 rfl⟩⟩

end Writable

mutual

theorem Element.writable_words {v : Vocabulary} (writable : v.Writable) {names : List String}
    (written : ∀ name ∈ names, name.toList.all isCaptureChar = true) :
    ∀ e : Element, (∀ x ∈ e.preorder, x.isProper v = true) →
    ∀ w ∈ e.words v names, w.isWritable = true
  | .node test children absent mark, proper => by
      obtain ⟨own, inside⟩ := List.forall_mem_cons.1 proper
      simp only [Element.isProper, Bool.and_eq_true] at own
      obtain ⟨⟨kind, fields⟩, known⟩ := own
      rw [Element.words]
      apply Mark.writable_around writable written known
      apply KindTest.writable_atomWords writable kind
      exact List.forall_mem_append.2
        ⟨writable_wordsAll writable written children inside, writable_absentWords writable fields⟩
  | .choice branches mark, proper => by
      obtain ⟨own, inside⟩ := List.forall_mem_cons.1 proper
      simp only [Element.isProper, Bool.and_eq_true] at own
      rw [Element.words]
      apply Mark.writable_around writable written own.2
      refine List.forall_mem_cons.2 ⟨rfl, List.forall_mem_append.2 ⟨?_, ?_⟩⟩
      · exact writable_wordsAll writable written branches inside
      · exact List.forall_mem_singleton.2 rfl

theorem writable_wordsAll {v : Vocabulary} (writable : v.Writable) {names : List String}
    (written : ∀ name ∈ names, name.toList.all isCaptureChar = true) :
    ∀ es : List Element, (∀ x ∈ preorderAll es, x.isProper v = true) →
    ∀ w ∈ wordsAll v names es, w.isWritable = true
  | [], _ => by simp [wordsAll]
  | e :: es, proper => by
      obtain ⟨first, others⟩ := List.forall_mem_append.1 proper
      rw [wordsAll]
      exact List.forall_mem_append.2 ⟨e.writable_words writable written first,
        writable_wordsAll writable written es others⟩

end

theorem Pattern.Printable.writable_words {v : Vocabulary} (writable : v.Writable) {p : Pattern}
    (h : p.Printable v) : ∀ w ∈ p.words v, w.isWritable = true := by
  have root := p.root.writable_words writable h.written h.proper
  unfold Pattern.words
  split
  · exact root
  · refine List.forall_mem_cons.2 ⟨rfl, List.forall_mem_append.2 ⟨?_, ?_⟩⟩
    · intro w mem
      obtain ⟨predicate, -, here⟩ := List.mem_flatMap.1 mem
      exact predicate.writable_words h.written w here
    · exact List.forall_mem_append.2 ⟨root, List.forall_mem_singleton.2 rfl⟩

end Query

end ParseTree
