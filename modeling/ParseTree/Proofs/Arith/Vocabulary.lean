import ParseTree.Grammar
import ParseTree.Proofs.Arith.Geometry

/-!
# Kinds and fields of formulas

Whatever the expression parser builds, faults included, is in the vocabulary of
formulas.
-/

namespace ParseTree

def Label.isKnown (v : Vocabulary) (label : Label) : Bool :=
  v.hasKind label.kind label.named && label.field.all v.hasField &&
    (label.kind ≠ "ERROR" || label.error)

namespace Tree

def isKnown (v : Vocabulary) (t : Tree) : Bool := t.preorder.all (Label.isKnown v)

variable {v : Vocabulary}

theorem isKnown_node (label : Label) (ts : List Tree) :
    isKnown v (.node label ts) = (label.isKnown v && ts.all (isKnown v)) := by
  rw [isKnown, Rose.preorder_node, List.all_cons, List.all_flatMap]
  rfl

theorem isKnown_withField {field : String} (known : v.hasField field = true) {t : Tree}
    (h : t.isKnown v = true) : (t.withField field).isKnown v = true := by
  obtain ⟨label, ts⟩ := t
  rw [isKnown_node, Label.isKnown] at h
  rw [withField, isKnown_node, Label.isKnown]
  simp only [Bool.and_eq_true] at h ⊢
  obtain ⟨⟨⟨kind, -⟩, error⟩, inside⟩ := h
  exact ⟨⟨⟨kind, known⟩, error⟩, inside⟩

end Tree

namespace Arith

theorem isKnown_leaf? {token : Token} {t : Tree} (h : leaf? token = some t) :
    t.isKnown Vocabulary.math = true := by
  unfold leaf? at h
  split at h
  · cases h
    rfl
  · cases h
    rfl
  · cases h
    rfl
  all_goals cases h

theorem isKnown_closing {innerEnd : Nat} {c c' : Cursor} {close : Tree}
    (h : closing innerEnd c = (close, c')) : close.isKnown Vocabulary.math = true := by
  rcases closing_cases h with ⟨range, rest, -, rfl, -⟩ | ⟨-, rfl, -⟩ <;> rfl

theorem Reads.isKnown {p : Nat} {c c' : Cursor} {t : Tree} (h : Reads p c t c') :
    t.isKnown Vocabulary.math = true := by
  induction h with
  | absent => rfl
  | leaf _ leaf => exact isKnown_leaf? leaf
  | tooDeep => rfl
  | parens _ _ _ _ _ close body =>
      rw [Tree.branch, Tree.isKnown_node, List.all_cons, List.all_cons, List.all_cons, body,
        isKnown_closing close]
      rfl
  | @binary _ _ _ _ left right op range _ _ _ _ _ _ leftKnown rightKnown =>
      have symbol : (anonymousLeaf op.symbol range).isKnown Vocabulary.math = true := by
        cases op <;> rfl
      rw [Arith.binary, Tree.branch, Tree.isKnown_node, List.all_cons, List.all_cons, List.all_cons,
        symbol, Tree.isKnown_withField rfl leftKnown, Tree.isKnown_withField rfl rightKnown]
      cases op <;> rfl

theorem ReadsOthers.isKnown {c c' : Cursor} {ts : List Tree} (h : ReadsOthers c ts c') :
    ts.all (Tree.isKnown Vocabulary.math) = true := by
  induction h with
  | done => rfl
  | close _ _ ih =>
      rw [List.all_cons, ih]
      rfl
  | expression _ read _ _ ih =>
      rw [List.all_cons, read.isKnown, ih]
      rfl

theorem isKnown_parse (text : Text) : (parse text).isKnown Vocabulary.math = true := by
  obtain ⟨first, c₁, others, c₂, read, -, leftover, whole⟩ :=
    reads_parseTokens (Token.tokenize text) text.width
  rw [parse, whole, Tree.isKnown_node]
  split
  · rw [List.all_cons, read.isKnown]
    rfl
  · have error : (errorBranch others).isKnown Vocabulary.math = true := by
      rw [errorBranch, Tree.isKnown_node, leftover.isKnown]
      rfl
    rw [List.all_cons, List.all_cons, read.isKnown, error]
    rfl

theorem isKnown_label (text : Text) {id : Nat} (inside : id < (arena text).size) :
    ((arena text).label id).isKnown Vocabulary.math = true := by
  obtain ⟨whole, numbers⟩ := Arena.unfold_ofTree (sound_parse text).1.within
  have tree : (arena text).unfold 0 = parse text := whole
  have known := isKnown_parse text
  rw [Tree.isKnown, ← tree, Arena.unfold, Rose.preorder_map, List.all_map] at known
  have listed : id ∈ ((arena text).outline 0).preorder := by
    rw [← Arena.descendants, arena, numbers]
    exact List.mem_range.2 inside
  have here := List.all_eq_true.1 known id listed
  rwa [Function.comp_apply] at here

end Arith

end ParseTree
