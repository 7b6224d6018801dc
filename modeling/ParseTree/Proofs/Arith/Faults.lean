import Mathlib.Data.List.Chain
import ParseTree.Proofs.Arena.Sexp
import ParseTree.Proofs.Arith.Grammar
import ParseTree.Proofs.Arith.Shape
import ParseTree.Proofs.Arith.Vocabulary

/-!
# Faults in S-expressions

A tree has a fault exactly if its S-expression announces one, by a parenthesis in front
of `ERROR` or `MISSING`.  An S-expression leaves out most anonymous nodes and all that is
below them, so a fault has to be shown itself and to stand below nodes that are shown.
Conversely no other node may look like an announcement, and the vocabulary sees to that.
-/

namespace ParseTree

namespace Text

/-- A parenthesis opens an error or a missing node. -/
def AnnouncesFault (text : Text) : Prop :=
  "(ERROR".toList <:+: text ∨ "(MISSING ".toList <:+: text

theorem AnnouncesFault.of_part {part text : Text} (h : part.AnnouncesFault)
    (within : part <:+: text) : text.AnnouncesFault := by
  rcases h with error | missing
  · exact Or.inl (error.trans within)
  · exact Or.inr (missing.trans within)

/-- No parenthesis stands in front of a letter with which an announcement begins. -/
def OpensPlainly (text : Text) : Prop :=
  text.IsChain fun c next => c = '(' → next ∉ ['E', 'M']

def isPlain : Text → Bool
  | [] => false
  | c :: rest => c ∉ ['E', 'M'] && '(' ∉ c :: rest

variable {front word rest text : Text}

theorem OpensPlainly.append (h : OpensPlainly rest) (closed : '(' ∉ front) :
    OpensPlainly (front ++ rest) := by
  induction front with
  | nil => exact h
  | cons c front ih =>
      rw [List.mem_cons, not_or] at closed
      exact List.isChain_cons.2 ⟨fun _ _ same => absurd same.symm closed.1, ih closed.2⟩

theorem OpensPlainly.opening (h : OpensPlainly rest) (plain : isPlain word = true) :
    OpensPlainly ('(' :: (word ++ rest)) := by
  cases word with
  | nil => cases plain
  | cons c word =>
      simp only [isPlain, Bool.and_eq_true, decide_eq_true_eq] at plain
      exact List.isChain_cons_cons.2 ⟨fun _ => plain.1, h.append plain.2⟩

theorem OpensPlainly.not_announcesFault (h : OpensPlainly text) : ¬ AnnouncesFault text := by
  rintro (⟨before, after, rfl⟩ | ⟨before, after, rfl⟩)
  · have word := h.left_of_append.right_of_append
    simp at word
  · have word := h.left_of_append.right_of_append
    simp at word

end Text

/-- Kinds other than `ERROR` look like no announcement, and fields open nothing. -/
structure Vocabulary.Legible (v : Vocabulary) : Prop where
  kinds : ∀ kind ∈ v.named, kind ≠ "ERROR" → Text.isPlain kind.toList = true
  fields : ∀ field ∈ v.fields, '(' ∉ field.toList

theorem Vocabulary.legible_math : Vocabulary.math.Legible := by
  constructor
  · decide +kernel
  · decide +kernel

namespace Tree

/-! ## Where nothing is announced -/

section Legible

variable {v : Vocabulary}

theorem isPlain_kind (legible : v.Legible) {label : Label} (known : label.isKnown v = true)
    (named : label.named = true) (sound : label.error = false) :
    Text.isPlain label.kind.toList = true := by
  simp only [Label.isKnown, Vocabulary.hasKind, named, sound, if_pos, Bool.or_false,
    Bool.and_eq_true, decide_eq_true_eq, List.contains_iff_mem] at known
  exact legible.kinds label.kind known.1.1 known.2

theorem not_mem_sexpField (legible : v.Legible) {label : Label}
    (known : label.isKnown v = true) : '(' ∉ label.sexpField := by
  simp only [Label.isKnown, Bool.and_eq_true] at known
  unfold Label.sexpField
  cases field : label.field with
  | none => exact List.not_mem_nil
  | some name =>
      have listed : name ∈ v.fields := by
        simpa [field, Vocabulary.hasField] using known.1.2
      simpa using legible.fields name listed

theorem isKnown_value {t : Tree} (known : t.isKnown v = true) : t.value.isKnown v = true := by
  obtain ⟨label, ts⟩ := t
  rw [isKnown_node, Bool.and_eq_true] at known
  exact known.1

theorem missing_of_not_faulty {t : Tree} (sound : t.isFaulty = false) :
    t.value.missing = false := by
  obtain ⟨label, ts⟩ := t
  simp only [isFaulty_node, Bool.or_eq_false_iff] at sound
  exact sound.1.2

mutual

/-- Without a fault only kinds stand behind the parentheses.  What follows is generalised:
it stands for the rest of the S-expression. -/
theorem opensPlainly_sexp (legible : v.Legible) : ∀ {t : Tree} {rest : Text},
    t.isKnown v = true → t.isFaulty = false → t.value.named = true → rest.OpensPlainly →
    (t.sexp ++ rest).OpensPlainly
  | .node label ts, rest, known, sound, named, behind => by
      simp only [isKnown_node, Bool.and_eq_true] at known
      simp only [isFaulty_node, Bool.or_eq_false_iff] at sound
      obtain ⟨⟨noError, present⟩, below⟩ := sound
      have closing : Text.OpensPlainly (')' :: rest) := behind.append (by decide : '(' ∉ [')'])
      have inside := opensPlainly_sexpAll legible known.2 below closing
      rw [sexp, present, if_neg Bool.false_ne_true]
      simpa using inside.opening (isPlain_kind legible known.1 named noError)

theorem opensPlainly_sexpAll (legible : v.Legible) : ∀ {ts : List Tree} {rest : Text},
    ts.all (isKnown v) = true → ts.any isFaulty = false → rest.OpensPlainly →
    (sexpAll ts ++ rest).OpensPlainly
  | [], _, _, _, behind => behind
  | t :: ts, rest, known, sound, behind => by
      simp only [List.all_cons, Bool.and_eq_true] at known
      simp only [List.any_cons, Bool.or_eq_false_iff] at sound
      have others := opensPlainly_sexpAll legible known.2 sound.2 behind
      rw [sexpAll]
      split
      · rename_i shown
        have named := Label.named_of_isShown shown (missing_of_not_faulty sound.1)
        have tree := opensPlainly_sexp legible known.1 sound.1 named others
        have lead : '(' ∉ ' ' :: t.value.sexpField := by
          simpa using not_mem_sexpField legible (isKnown_value known.1)
        simpa using tree.append lead
      · exact others

end

end Legible

/-! ## Where a fault is announced -/

structure Evident (t : Tree) : Prop where
  error : t.value.error = true → t.value.kind = "ERROR" ∧ t.value.named = true
  parts : t.children ≠ [] → t.value.named = true

theorem evident_of_named {t : Tree} (named : t.value.named = true)
    (error : t.value.error = true → t.value.kind = "ERROR") : Evident t :=
  ⟨fun marked => ⟨error marked, named⟩, fun _ => named⟩

theorem Evident.isShown {t : Tree} (h : t.Evident) (faulty : t.isFaulty = true) :
    t.value.isShown = true := by
  obtain ⟨label, ts⟩ := t
  simp only [isFaulty_node, Bool.or_eq_true] at faulty
  rcases faulty with (error | missing) | below
  · have named : label.named = true := (h.error error).2
    simp [Label.isShown, Rose.value, named]
  · simp [Label.isShown, Rose.value, missing]
  · have named : label.named = true := by
      refine h.parts ?_
      intro none
      rw [show ts = [] from none] at below
      cases below
    simp [Label.isShown, Rose.value, named]

mutual

theorem announcesFault_sexp : ∀ {t : Tree}, (∀ u ∈ t.subtrees, Evident u) →
    t.isFaulty = true → t.sexp.AnnouncesFault
  | .node label ts, evident, faulty => by
      obtain ⟨here, below⟩ := Rose.forall_subtrees_node.1 evident
      rw [sexp]
      split
      · exact Or.inr (List.prefix_append _ _).isInfix
      · rename_i present
        simp only [isFaulty_node, Bool.or_eq_true] at faulty
        rcases faulty with (error | missing) | inside
        · have kind : label.kind = "ERROR" := (here.error error).1
          rw [kind]
          exact Or.inl (List.prefix_append _ _).isInfix
        · exact absurd missing present
        · refine (announcesFault_sexpAll below inside).of_part ?_
          exact ⟨'(' :: label.kind.toList, [')'], by simp⟩

theorem announcesFault_sexpAll : ∀ {ts : List Tree},
    (∀ t ∈ ts, ∀ u ∈ t.subtrees, Evident u) → ts.any isFaulty = true →
    (sexpAll ts).AnnouncesFault
  | t :: ts, evident, faulty => by
      obtain ⟨first, others⟩ := List.forall_mem_cons.1 evident
      rw [sexpAll]
      cases here : t.isFaulty with
      | true =>
          have root : Evident t := first t t.self_mem_subtrees
          rw [if_pos (root.isShown here)]
          refine (announcesFault_sexp first here).of_part ?_
          exact ⟨' ' :: t.value.sexpField, sexpAll ts, by simp⟩
      | false =>
          rw [List.any_cons, here, Bool.false_or] at faulty
          exact (announcesFault_sexpAll others faulty).of_part (List.suffix_append _ _).isInfix

end

theorem announcesFault_sexp_iff {v : Vocabulary} (legible : v.Legible) {t : Tree}
    (known : t.isKnown v = true) (named : t.value.named = true)
    (evident : ∀ u ∈ t.subtrees, Evident u) : t.sexp.AnnouncesFault ↔ t.isFaulty = true := by
  constructor
  · intro announced
    by_contra sound
    rw [Bool.not_eq_true] at sound
    have plain := opensPlainly_sexp legible known sound named List.isChain_nil
    rw [List.append_nil] at plain
    exact plain.not_announcesFault announced
  · exact announcesFault_sexp evident

end Tree

namespace Arith

theorem Reads.kind_of_error {p : Nat} {c c' : Cursor} {t : Tree} (h : Reads p c t c')
    (error : t.value.error = true) : t.value.kind = "ERROR" := by
  cases h with
  | absent => cases error
  | leaf _ isLeaf =>
      unfold leaf? at isLeaf
      split at isLeaf
      · cases isLeaf
        cases error
      · cases isLeaf
        cases error
      · cases isLeaf
        rfl
      all_goals cases isLeaf
  | tooDeep => rfl
  | parens => cases error
  | binary => cases error

theorem throughout_evident : Throughout Tree.Evident where
  reads read := Tree.evident_of_named read.value.2.1 read.kind_of_error
  field _ _ h := ⟨by simpa using h.error, by simpa using h.parts⟩
  token _ _ _ := ⟨nofun, fun parts => absurd rfl parts⟩
  absent _ := ⟨nofun, fun parts => absurd rfl parts⟩

theorem evident_parse (text : Text) : ∀ u ∈ (parse text).subtrees, Tree.Evident u :=
  forall_subtrees_parse throughout_evident text
    (fun _ _ => Tree.evident_of_named rfl nofun)
    (fun _ _ => Tree.evident_of_named rfl fun _ => rfl)

theorem announcesFault_sexp_arena (text : Text) :
    ((arena text).sexp 0).AnnouncesFault ↔ (arena text).hasFault 0 = true := by
  have named : (parse text).value.named = true := rfl
  rw [Arena.sexp_eq, unfold_arena, hasFault_arena]
  exact Tree.announcesFault_sexp_iff Vocabulary.legible_math (isKnown_parse text) named
    (evident_parse text)

end Arith

end ParseTree
