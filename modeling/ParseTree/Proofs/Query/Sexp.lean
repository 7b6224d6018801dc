import ParseTree.Proofs.Arena.Sexp
import ParseTree.Proofs.Arith.Vocabulary
import ParseTree.Proofs.Query.Matching
import ParseTree.Proofs.Query.RoundTrip

/-!
# S-expressions as queries

The S-expression of a node, read as a query, asks for the nodes that it shows, with
their kinds and fields.  It is one way to print that pattern, and the pattern lies over
the node it was made from, each element over the node it asks for.
-/

namespace ParseTree

open Query

def Label.test (label : Label) : KindTest :=
  if label.missing then .missing (some label.kind)
  else if label.kind = "ERROR" then .error
  else .named label.kind

namespace Tree

mutual

def element : Tree → Mark → Element
  | .node label children, mark =>
      .node label.test (if label.missing then [] else elements children) [] mark

def elements : List Tree → List Element
  | [] => []
  | t :: ts =>
      if t.value.isShown then element t { field := t.value.field } :: elements ts
      else elements ts

end

def pattern (t : Tree) : Pattern :=
  { root := t.element {}
    captureNames := []
    predicates := []
    start := 0 }

end Tree

namespace Label

theorem test_missing {label : Label} (missing : label.missing = true) :
    label.test = .missing (some label.kind) := if_pos missing

theorem test_present {label : Label} (present : label.missing = false) :
    label.test = if label.kind = "ERROR" then .error else .named label.kind :=
  if_neg (by simp [present])

theorem accepts_test {v : Vocabulary} {label : Label} (known : label.isKnown v = true)
    (shown : label.isShown = true) : label.test.accepts label = true := by
  cases missing : label.missing with
  | true => simp [test_missing missing, KindTest.accepts, missing]
  | false =>
      have named := named_of_isShown shown missing
      rw [test_present missing]
      split
      · rename_i isError
        simp only [isKnown, isError, Bool.and_eq_true] at known
        exact known.2
      · simp [KindTest.accepts, named]

/-! ## The pattern is printable -/

theorem isKnown_test {v : Vocabulary} {label : Label} (known : label.isKnown v = true)
    (shown : label.isShown = true) : label.test.isKnown v = true := by
  simp only [isKnown, Bool.and_eq_true] at known
  obtain ⟨⟨kind, -⟩, -⟩ := known
  cases missing : label.missing with
  | true =>
      rw [test_missing missing]
      cases named : label.named <;> simp [KindTest.isKnown, named ▸ kind]
  | false =>
      rw [named_of_isShown shown missing] at kind
      rw [test_present missing]
      split
      · rfl
      · exact kind

theorem isPrintable_test (label : Label) (children : List Element) (mark : Mark) :
    (Element.node label.test children [] mark).isPrintable = true := by
  unfold test
  split
  · rfl
  split
  · rfl
  · rename_i noError
    simpa [Element.isPrintable] using noError

end Label

namespace Tree

mutual

theorem proper_element {v : Vocabulary} : ∀ (t : Tree) {mark : Mark}, t.isKnown v = true →
    t.value.isShown = true → mark.isKnown v = true →
    ∀ x ∈ (t.element mark).preorder, x.isProper v = true ∧ x.isPrintable = true
  | .node label children, mark, known, shown, field => by
      rw [isKnown_node, Bool.and_eq_true] at known
      refine List.forall_mem_cons.2 ⟨⟨?_, label.isPrintable_test _ _⟩, ?_⟩
      · simp [Element.isProper, Label.isKnown_test known.1 shown, field]
      · split
        · simp [preorderAll]
        · exact proper_elements children known.2

theorem proper_elements {v : Vocabulary} : ∀ ts : List Tree, ts.all (isKnown v) = true →
    ∀ x ∈ preorderAll (elements ts), x.isProper v = true ∧ x.isPrintable = true
  | [], _ => by simp [elements, preorderAll]
  | t :: ts, known => by
      obtain ⟨first, others⟩ := Bool.and_eq_true_iff.1 known
      rw [elements]
      split
      · rename_i shown
        have field : Mark.isKnown v { field := t.value.field } = true := by
          obtain ⟨label, children⟩ := t
          simp only [isKnown_node, Label.isKnown, Bool.and_eq_true] at first
          exact first.1.1.2
        exact List.forall_mem_append.2
          ⟨proper_element t first shown field, proper_elements ts others⟩
      · exact proper_elements ts others

end

mutual

theorem slots_element : ∀ (t : Tree) (mark : Mark), (t.element mark).slots = mark.captures
  | .node label children, mark => by
      rw [element, Element.slots]
      split
      · rfl
      · rw [slots_elements children, List.nil_append]

theorem slots_elements : ∀ ts : List Tree, slotsAll (elements ts) = []
  | [] => rfl
  | t :: ts => by
      rw [elements]
      split
      · rw [slotsAll, slots_element t, slots_elements ts]
        rfl
      · exact slots_elements ts

end

theorem printable_pattern {v : Vocabulary} {t : Tree} (known : t.isKnown v = true)
    (shown : t.value.isShown = true) : t.pattern.Printable v := by
  have sound := @proper_element v t {} known shown rfl
  exact
    { named := by simp [pattern]
      distinct := List.nodup_nil
      numbered := t.slots_element {}
      resolved := by simp [pattern]
      noField := by cases t; rfl
      required := by cases t; rfl
      proper := fun x mem => (sound x mem).1
      printable := fun x mem => (sound x mem).2
      written := by simp [pattern] }

end Tree

/-! ## The S-expression prints the pattern -/

/-- A missing node of an anonymous kind is quoted without escapes, and not taken for a
named one. -/
structure Vocabulary.Quotable (v : Vocabulary) : Prop where
  plain : ∀ kind ∈ v.anonymous, ∀ c ∈ kind.toList, c ≠ '"' ∧ c ≠ '\\'
  apart : ∀ kind ∈ v.anonymous, kind ∉ v.named

namespace Query

variable {words : List Word} {text : Text}

theorem Prints.parenOpen (h : Prints words text) : Prints (.parenOpen :: words) ('(' :: text) := by
  have sign : Word.parenOpen.Written ['('] := rfl
  exact h.word sign fun _ _ => rfl

theorem Prints.parenClose (h : Prints words text) :
    Prints (.parenClose :: words) (')' :: text) := by
  have sign : Word.parenClose.Written [')'] := rfl
  exact h.word sign fun _ _ => rfl

theorem Prints.name {n : String} (h : Prints words text)
    (ends : ∀ c ∈ text.head?, c = ' ' ∨ c = ')') :
    Prints (.name n :: words) (n.toList ++ text) := by
  have written : (Word.name n).Written n.toList := rfl
  refine h.word written fun c mem => ?_
  rcases ends c mem with rfl | rfl <;> rfl

theorem Prints.field {n : String} (h : Prints words text) :
    Prints (.name n :: .colon :: words) (n.toList ++ (':' :: ' ' :: text)) := by
  have written : (Word.name n).Written n.toList := rfl
  have sign : Word.colon.Written [':'] := rfl
  have blank : Text.isLayout ' ' = true := by decide
  refine ((h.layout blank).word sign fun _ _ => rfl).word written ?_
  intro c mem
  obtain rfl := Option.some.inj mem
  rfl

end Query

namespace Label

variable {v : Vocabulary} {label : Label} {words : List Word} {text : Text}

theorem atomWords_test (v : Vocabulary) (label : Label) (items : List Word) :
    label.test.atomWords v items =
      .parenOpen :: (label.test.words v ++ (items ++ [.parenClose])) := by
  unfold test
  split
  · rfl
  · split <;> rfl

theorem words_test (v : Vocabulary) (present : label.missing = false) :
    label.test.words v = [.name label.kind] := by
  rw [test_present present]
  split
  · rename_i isError
    rw [isError]
    rfl
  · rfl

theorem prints_sexpKind (quotable : v.Quotable) (known : v.hasKind label.kind label.named = true)
    (printed : Prints words text) (ends : ∀ c ∈ text.head?, c = ' ' ∨ c = ')') :
    Prints ((if v.hasKind label.kind true then .name label.kind else .string label.kind.toList) ::
      words) (label.sexpKind ++ text) := by
  unfold sexpKind
  cases named : label.named with
  | true =>
      rw [named] at known
      rw [if_pos known, if_pos rfl]
      exact printed.name ends
  | false =>
      rw [named] at known
      have listed : label.kind ∈ v.anonymous := List.contains_iff_mem.1 known
      have noName : ¬ v.hasKind label.kind true = true := fun isName =>
        quotable.apart _ listed (List.contains_iff_mem.1 isName)
      rw [if_neg noName, if_neg (by simp)]
      have written : (Word.string label.kind.toList).Written
          ('"' :: (label.kind.toList ++ ['"'])) :=
        ⟨_, quotes_self (quotable.plain _ listed), rfl⟩
      exact printed.word written fun _ _ => rfl

end Label

namespace Tree

theorem head_sexpAll (ts : List Tree) (text : Text) :
    ∀ c ∈ (sexpAll ts ++ ')' :: text).head?, c = ' ' ∨ c = ')' := by
  induction ts with
  | nil =>
      intro c mem
      exact .inr (Option.some.inj mem).symm
  | cons t ts ih =>
      rw [sexpAll]
      split
      · intro c mem
        exact .inl (Option.some.inj mem).symm
      · exact ih

theorem words_node (v : Vocabulary) (label : Label) (children : List Tree) :
    (element (.node label children) {}).words v [] =
      .parenOpen :: (label.test.words v ++
        (wordsAll v [] (if label.missing then [] else elements children) ++ [.parenClose])) := by
  rw [element, Element.words, Label.atomWords_test]
  simp [Mark.around, Mark.lead, Mark.trail, absentWords]

theorem words_element (v : Vocabulary) (t : Tree) (field : Option String) :
    (t.element { field }).words v [] =
      Mark.lead { field } ++ (t.element {}).words v [] := by
  cases t
  rfl

mutual

theorem prints_sexp {v : Vocabulary} (quotable : v.Quotable) : ∀ (t : Tree) {words : List Word}
    {text : Text}, t.isKnown v = true → Prints words text →
    Prints ((t.element {}).words v [] ++ words) (t.sexp ++ text)
  | .node label children, words, text, known, printed => by
      rw [isKnown_node, Bool.and_eq_true, Label.isKnown, Bool.and_eq_true, Bool.and_eq_true] at known
      obtain ⟨⟨⟨kind, -⟩, -⟩, inside⟩ := known
      have closed := printed.parenClose
      rw [words_node, sexp]
      cases missing : label.missing with
      | true =>
          have ends : ∀ c ∈ (')' :: text).head?, c = ' ' ∨ c = ')' :=
            fun c mem => .inr (Option.some.inj mem).symm
          have blank : Text.isLayout ' ' = true := by decide
          have behind := (label.prints_sexpKind quotable kind closed ends).layout blank
          have word := @Prints.name _ _ "MISSING" behind
            fun c mem => .inl (Option.some.inj mem).symm
          rw [Label.test_missing missing]
          simpa [KindTest.words, wordsAll] using word.parenOpen
      | false =>
          have behind := prints_sexpAll quotable children inside closed
          have word := @Prints.name _ _ label.kind behind (head_sexpAll children text)
          rw [Label.words_test v missing]
          simpa using word.parenOpen

theorem prints_sexpAll {v : Vocabulary} (quotable : v.Quotable) : ∀ (ts : List Tree)
    {words : List Word} {text : Text}, ts.all (isKnown v) = true → Prints words text →
    Prints (wordsAll v [] (elements ts) ++ words) (sexpAll ts ++ text)
  | [], words, text, _, printed => printed
  | t :: ts, words, text, known, printed => by
      obtain ⟨first, others⟩ := Bool.and_eq_true_iff.1 known
      have later := prints_sexpAll quotable ts others printed
      rw [elements, sexpAll]
      split
      · have here := prints_sexp quotable t first later
        have blank : Text.isLayout ' ' = true := by decide
        have behind : Prints (Mark.lead { field := t.value.field } ++ ((t.element {}).words v [] ++
            (wordsAll v [] (elements ts) ++ words)))
            (t.value.sexpField ++ (t.sexp ++ (sexpAll ts ++ text))) := by
          unfold Mark.lead Label.sexpField
          cases t.value.field with
          | none => exact here
          | some field => simpa using here.field
        rw [wordsAll, words_element]
        simpa using behind.layout blank
      · exact later

end

end Tree

/-! ## The pattern lies over the node -/

namespace Arena

theorem exists_places {a : Arena} {ids : List Nat}
    (fits : ∀ id ∈ ids, a.isShown id = true →
      ∃ x, ((a.unfold id).element { field := (a.label id).field }).Fits a id x) :
    ∃ places, takenChildren places = ids.filter a.isShown ∧
      ChildrenFit a (Tree.elements (ids.map a.unfold)) places := by
  induction ids with
  | nil => exact ⟨[], rfl, trivial⟩
  | cons id ids ih =>
      obtain ⟨first, others⟩ := List.forall_mem_cons.1 fits
      obtain ⟨places, taken, fit⟩ := ih others
      rw [List.map_cons, Tree.elements, value_unfold]
      by_cases shown : (a.label id).isShown = true
      · have kept : a.isShown id = true := shown
        obtain ⟨x, here⟩ := first kept
        refine ⟨.over id x :: places, ?_, ?_⟩
        · rw [List.filter_cons_of_pos kept, ← taken]
          rfl
        · rw [if_pos shown]
          exact ⟨here, fit⟩
      · have hidden : ¬ a.isShown id = true := shown
        refine ⟨places, ?_, ?_⟩
        · rw [List.filter_cons_of_neg hidden, taken]
        · rwa [if_neg shown]

theorem exists_fits_element {v : Vocabulary} {a : Arena}
    (known : ∀ id < a.size, (a.label id).isKnown v = true) {id : Nat} (inside : id < a.size)
    (shown : a.isShown id = true) {mark : Mark}
    (field : ∀ field ∈ mark.field, (a.label id).field = some field) :
    ∃ x, ((a.unfold id).element mark).Fits a id x := by
  induction id using children_induction (a := a) generalizing mark with
  | step id ih =>
      have accepts := Label.accepts_test (known id inside) shown
      have below : ∀ child ∈ a.children id, a.isShown child = true →
          ∃ x, ((a.unfold child).element { field := (a.label child).field }).Fits a child x := by
        intro child mem isShown
        exact ih child mem (lt_of_mem_children mem).2 isShown fun field mem => mem
      rw [unfold_eq, Tree.element]
      cases missing : (a.label id).missing with
      | true => exact ⟨.node [], field, accepts, by simp, List.nil_sublist _, trivial⟩
      | false =>
          obtain ⟨places, taken, fit⟩ := exists_places below
          refine ⟨.node places, field, accepts, by simp, ?_, fit⟩
          rw [taken]
          exact List.filter_sublist

theorem isKnown_unfold {v : Vocabulary} {a : Arena}
    (known : ∀ id < a.size, (a.label id).isKnown v = true) {id : Nat} (inside : id < a.size) :
    (a.unfold id).isKnown v = true := by
  rw [Tree.isKnown, unfold, Rose.preorder_map, List.all_map, List.all_eq_true]
  intro node below
  exact known node (lt_size_of_mem_descendants inside below)

end Arena

namespace Query

theorem exists_matchAt_of_sexp {v : Vocabulary} (writable : v.Writable) (quotable : v.Quotable)
    {a : Arena} (known : ∀ id < a.size, (a.label id).isKnown v = true) {id : Nat}
    (inside : id < a.size) (shown : a.isShown id = true) (textOf : Nat → Text) :
    ∃ p, compile v (a.sexp id) = .ok [p] ∧ p.captureNames = [] ∧ p.predicates = [] ∧
      ∃ b, p.matchAt a textOf id = some b := by
  have tree := Arena.isKnown_unfold known inside
  have root : (a.unfold id).value.isShown = true := by rwa [Arena.value_unfold]
  have printed := (a.unfold id).prints_sexp quotable tree (.nil .nil)
  rw [List.append_nil, List.append_nil, ← Arena.sexp_eq] at printed
  obtain ⟨start, compiled⟩ :=
    exists_compile_of_prints writable (Tree.printable_pattern tree root) printed
  obtain ⟨x, fits⟩ := @Arena.exists_fits_element v a known id inside shown {} (by simp)
  refine ⟨_, compiled, rfl, rfl, Option.isSome_iff_exists.1 ?_⟩
  exact Pattern.isSome_matchAt_of_embedding compiled List.mem_cons_self fits
    (Pattern.binds_binding compiled List.mem_cons_self id x) (by simp [Tree.pattern])

theorem quotable_math : Vocabulary.math.Quotable :=
  ⟨by simp [Vocabulary.math], by decide⟩

/-- The S-expression of any node of a parsed formula that is named or missing compiles to
one pattern without captures and predicates, which matches at the node. -/
theorem compile_sexp (text : Text) {id : Nat} (inside : id < (Arith.arena text).size)
    (shown : (Arith.arena text).isShown id = true) :
    ∃ p, compile Vocabulary.math ((Arith.arena text).sexp id) = .ok [p] ∧
      p.captureNames = [] ∧ p.predicates = [] ∧
      ∃ b, p.matchAt (Arith.arena text) ((Arith.arena text).textOf text) id = some b :=
  exists_matchAt_of_sexp writable_math quotable_math (fun _ => Arith.isKnown_label text) inside
    shown _

theorem compile_sexp_faults :
    let text := Text.ofString "1 (+"
    let a := Arith.arena text
    let query := Text.ofString "(ERROR (parenthesized_expression " ++
      Text.ofString "(sum left: (MISSING number) right: (MISSING number)) (MISSING \")\")))"
    2 < a.size ∧ a.isShown 2 = true ∧ a.sexp 2 = query ∧
      ∃ p, compile Vocabulary.math query = .ok [p] ∧ p.captureNames = [] ∧
        p.predicates = [] ∧ ∃ b, p.matchAt a (a.textOf text) 2 = some b := by
  intro text a query
  have inside : 2 < a.size := by decide +kernel
  have shown : a.isShown 2 = true := by decide +kernel
  have written : a.sexp 2 = query := by decide +kernel
  exact ⟨inside, shown, written, written ▸ compile_sexp text inside shown⟩

end Query

end ParseTree
