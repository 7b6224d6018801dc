import ParseTree.Proofs.Arena.Grafting
import ParseTree.Proofs.Arena.Lowering
import ParseTree.Proofs.Arena.Sexp
import ParseTree.Proofs.Arith.Grammar

/-!
# Kinds of tokens decide the tree

The parser looks at the kinds of tokens and takes over their places, without comparing
them.  So along tokens of the same kinds it takes the same turns, whatever it has to
mend on the way, and the two trees differ in places only.  Neither the number of nodes nor
an S-expression shows a place.
-/

namespace ParseTree

theorem Rose.size_map (f : α → β) (t : Rose α) : (t.map f).size = t.size := by
  rw [size, preorder_map, List.length_map, size]

namespace Tree

theorem size_unplaced (t : Tree) : t.unplaced.size = t.size := t.size_map _

@[simp] theorem unplaced_withField (field : String) (t : Tree) :
    (t.withField field).unplaced = t.unplaced.withField field := by
  cases t
  simp [withField, Label.unplaced]

theorem value_unplaced (t : Tree) : t.unplaced.value = t.value.unplaced := by
  cases t
  rw [unplaced_node]
  rfl

mutual

theorem sexp_unplaced : ∀ t : Tree, t.unplaced.sexp = t.sexp
  | .node label ts => by
      rw [unplaced_node, sexp, sexp, sexpAll_unplaced ts]
      rfl

theorem sexpAll_unplaced : ∀ ts : List Tree, sexpAll (ts.map unplaced) = sexpAll ts
  | [] => rfl
  | t :: ts => by
      rw [List.map_cons, sexpAll, sexpAll, sexp_unplaced t, sexpAll_unplaced ts, value_unplaced]
      rfl

end

theorem unplaced_branch (kind : String) {ts us : List Tree}
    (same : ts.map unplaced = us.map unplaced) :
    (branch kind ts).unplaced = (branch kind us).unplaced := by
  rw [branch, branch, unplaced_node, unplaced_node, same]
  rfl

end Tree

namespace Arith

theorem map_unplaced_leaf? {token token' : Token} (same : token'.kind = token.kind) :
    (leaf? token').map Tree.unplaced = (leaf? token).map Tree.unplaced := by
  obtain ⟨kind, range⟩ := token
  obtain ⟨kind', range'⟩ := token'
  obtain rfl : kind' = kind := same
  cases kind' <;> simp [leaf?, errorLeaf, Tree.leaf, Label.unplaced]

structure Cursor.Alike (c d : Cursor) : Prop where
  kinds : c.kinds = d.kinds
  depth : c.depth = d.depth

namespace Cursor.Alike

variable {c d : Cursor} (h : c.Alike d)

include h

theorem symm : d.Alike c := ⟨h.kinds.symm, h.depth.symm⟩

theorem exists_token {token : Token} {rest : List Token} (here : c.rest = token :: rest) :
    ∃ token' rest', d.rest = token' :: rest' ∧ token'.kind = token.kind ∧
      (c.consume token rest).Alike (d.consume token' rest') := by
  have kinds : d.rest.map (·.kind) = token.kind :: rest.map (·.kind) := by
    have same := h.kinds
    rw [Cursor.kinds, here] at same
    exact same.symm
  obtain ⟨token', rest', there, kind, others⟩ := List.map_eq_cons_iff.1 kinds
  exact ⟨token', rest', there, kind, others.symm, h.depth⟩

theorem rest_eq_nil (empty : c.rest = []) : d.rest = [] := by
  have kinds := h.kinds
  rw [Cursor.kinds, empty] at kinds
  exact List.map_eq_nil_iff.1 kinds.symm

theorem length_eq : c.rest.length = d.rest.length := by
  have lengths := congrArg List.length h.kinds
  simpa [Cursor.kinds] using lengths

theorem stops {p : Nat} (stops : c.Stops p) : d.Stops p := by
  intro op range rest here
  obtain ⟨⟨kind, range'⟩, rest', there, same, -⟩ := h.symm.exists_token here
  obtain rfl : kind = .operator op := same
  exact stops op range' rest' there

theorem lacksOperand (lacks : c.LacksOperand) : d.LacksOperand := by
  intro token rest here
  obtain ⟨token', rest', there, kind, -⟩ := h.symm.exists_token here
  obtain ⟨noLeaf, noParen⟩ := lacks token' rest' there
  rw [kind] at noParen
  have leaves := map_unplaced_leaf? kind
  rw [noLeaf] at leaves
  exact ⟨Option.map_eq_none_iff.1 leaves.symm, noParen⟩

theorem exists_leaf {token : Token} {rest : List Token} {t : Tree}
    (here : c.rest = token :: rest) (isLeaf : leaf? token = some t) :
    ∃ token' rest' t', d.rest = token' :: rest' ∧ leaf? token' = some t' ∧
      (c.consume token rest).Alike (d.consume token' rest') ∧ t'.unplaced = t.unplaced := by
  obtain ⟨token', rest', there, kind, behind⟩ := h.exists_token here
  have leaves := map_unplaced_leaf? kind
  rw [isLeaf] at leaves
  obtain ⟨t', isLeaf', same⟩ := Option.map_eq_some_iff.1 leaves
  exact ⟨token', rest', t', there, isLeaf', behind, same⟩

theorem exists_closing {innerEnd innerEnd' : Nat} {close : Tree} {c' : Cursor}
    (closes : closing innerEnd c = (close, c')) :
    ∃ close' d', closing innerEnd' d = (close', d') ∧ c'.Alike d' ∧
      close'.unplaced = close.unplaced := by
  rcases closing_cases closes with ⟨range, rest, here, rfl, rfl⟩ | ⟨other, rfl, rfl⟩
  · obtain ⟨⟨kind, range'⟩, rest', there, same, behind⟩ := h.exists_token here
    obtain rfl : kind = .closeParen := same
    refine ⟨anonymousLeaf ")" range', d.consume ⟨.closeParen, range'⟩ rest', ?_, behind, ?_⟩
    · rw [closing, there]
    · simp [anonymousLeaf, Tree.leaf, Label.unplaced]
  · refine ⟨.missing ")" false innerEnd', d, ?_, h, ?_⟩
    · unfold closing
      split
      · rename_i range rest here
        obtain ⟨token', rest', there, same, -⟩ := h.symm.exists_token here
        exact absurd same (other token' rest' there)
      · rfl
    · simp [Tree.missing, Tree.leaf, Label.unplaced]

end Cursor.Alike

theorem Reads.exists_alike {p : Nat} {c c' : Cursor} {t : Tree} (h : Reads p c t c')
    {d : Cursor} (alike : c.Alike d) :
    ∃ t' d', Reads p d t' d' ∧ c'.Alike d' ∧ t'.unplaced = t.unplaced := by
  induction h generalizing d with
  | absent lacks =>
      refine ⟨_, d, .absent (alike.lacksOperand lacks), alike, ?_⟩
      simp [Cursor.missingNumber, Tree.missing, Tree.leaf, Label.unplaced]
  | leaf here isLeaf =>
      obtain ⟨token', rest', t', there, isLeaf', behind, same⟩ := alike.exists_leaf here isLeaf
      exact ⟨t', _, .leaf there isLeaf', behind, same⟩
  | tooDeep here kind deep =>
      obtain ⟨token', rest', there, same, -⟩ := alike.exists_token here
      refine ⟨_, _, .tooDeep there (same.trans kind) (alike.depth ▸ deep), ⟨rfl, alike.depth⟩, ?_⟩
      simp [errorLeaf, Tree.leaf, Label.unplaced]
  | @parens _ c c₁ c₂ token rest body close here kind shallow _ stops closes ih =>
      obtain ⟨token', rest', there, same, behind⟩ := alike.exists_token here
      have inside : Cursor.Alike { c.consume token rest with depth := c.depth + 1 }
          { d.consume token' rest' with depth := d.depth + 1 } :=
        ⟨behind.kinds, congrArg (· + 1) alike.depth⟩
      obtain ⟨body', d₁, read, alike₁, sameBody⟩ := ih inside
      have left : Cursor.Alike { c₁ with depth := c₁.depth - 1 }
          { d₁ with depth := d₁.depth - 1 } := ⟨alike₁.kinds, congrArg (· - 1) alike₁.depth⟩
      obtain ⟨close', d₂, closes', alike₂, sameClose⟩ := left.exists_closing closes
      refine ⟨_, d₂, .parens there (same.trans kind) (alike.depth ▸ shallow) read
        (alike₁.stops stops) closes', alike₂, Tree.unplaced_branch _ ?_⟩
      simp [sameBody, sameClose, anonymousLeaf, Tree.leaf, Label.unplaced]
  | @binary _ c c₁ c₂ left right op range rest _ here strong _ stops ihLeft ihRight =>
      obtain ⟨left', d₁, readLeft, alike₁, sameLeft⟩ := ihLeft alike
      obtain ⟨⟨kind, range'⟩, rest', there, same, behind⟩ := alike₁.exists_token here
      obtain rfl : kind = .operator op := same
      obtain ⟨right', d₂, readRight, alike₂, sameRight⟩ := ihRight behind
      refine ⟨_, d₂, .binary readLeft there strong readRight (alike₂.stops stops), alike₂,
        Tree.unplaced_branch _ ?_⟩
      simp [sameLeft, sameRight, anonymousLeaf, Tree.leaf, Label.unplaced]

theorem ReadsOthers.exists_alike {c c' : Cursor} {ts : List Tree} (h : ReadsOthers c ts c')
    {d : Cursor} (alike : c.Alike d) :
    ∃ ts' d', ReadsOthers d ts' d' ∧ ts'.map Tree.unplaced = ts.map Tree.unplaced := by
  induction h generalizing d with
  | done empty => exact ⟨[], d, .done (alike.rest_eq_nil empty), rfl⟩
  | close here _ ih =>
      obtain ⟨⟨kind, range'⟩, rest', there, same, behind⟩ := alike.exists_token here
      obtain rfl : kind = .closeParen := same
      obtain ⟨ts', d', others, sameOthers⟩ := ih behind
      refine ⟨_, d', .close there others, ?_⟩
      simp [sameOthers, anonymousLeaf, Tree.leaf, Label.unplaced]
  | expression less read stops _ ih =>
      obtain ⟨t', d₁, read', alike₁, same⟩ := read.exists_alike alike
      obtain ⟨ts', d₂, others, sameOthers⟩ := ih alike₁
      refine ⟨t' :: ts', d₂, .expression ?_ read' (alike₁.stops stops) others, ?_⟩
      · rw [← alike₁.length_eq, ← alike.length_eq]
        exact less
      · rw [List.map_cons, List.map_cons, same, sameOthers]

theorem unplaced_parseTokens {tokens others : List Token}
    (same : tokens.map (·.kind) = others.map (·.kind)) (length length' : Nat) :
    (parseTokens tokens length).unplaced = (parseTokens others length').unplaced := by
  obtain ⟨first, c₁, ts, c₂, read, stops, leftover, whole⟩ := reads_parseTokens tokens length
  have alike : Cursor.Alike { rest := tokens } { rest := others } := ⟨same, rfl⟩
  obtain ⟨first', d₁, read', alike₁, sameFirst⟩ := read.exists_alike alike
  obtain ⟨ts', d₂, leftover', sameOthers⟩ := leftover.exists_alike alike₁
  have empty : ts'.isEmpty = ts.isEmpty := by
    have lengths := congrArg List.length sameOthers
    rw [List.length_map, List.length_map] at lengths
    rw [Bool.eq_iff_iff, List.isEmpty_iff_length_eq_zero, List.isEmpty_iff_length_eq_zero, lengths]
  have error : (errorBranch ts').unplaced = (errorBranch ts).unplaced := by
    rw [errorBranch, errorBranch, Tree.unplaced_node, Tree.unplaced_node, sameOthers]
    rfl
  rw [whole, parseTokens_eq read' (alike₁.stops stops) leftover', Tree.unplaced_node,
    Tree.unplaced_node, empty]
  split <;> simp [sameFirst, error, Label.unplaced]

theorem size_arena (text : Text) : (arena text).size = (parse text).size := by
  rw [← unfold_arena, Arena.size_unfold, descendants_arena, List.length_range]

theorem sexp_arena (text : Text) : (arena text).sexp 0 = (parse text).sexp := by
  rw [Arena.sexp_eq, unfold_arena]

theorem arena_of_same_kinds {text other : Text}
    (same : (Token.tokenize text).map (·.kind) = (Token.tokenize other).map (·.kind)) :
    (arena text).size = (arena other).size ∧ (arena text).sexp 0 = (arena other).sexp 0 := by
  have trees : (parse text).unplaced = (parse other).unplaced := unplaced_parseTokens same _ _
  rw [size_arena, size_arena, sexp_arena, sexp_arena, ← Tree.size_unplaced (parse text),
    ← Tree.sexp_unplaced (parse text), trees, Tree.size_unplaced, Tree.sexp_unplaced]
  exact ⟨rfl, rfl⟩

end Arith

end ParseTree
