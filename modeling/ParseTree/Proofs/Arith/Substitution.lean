import ParseTree.Proofs.Arith.Binding
import ParseTree.Proofs.Arith.Splicing
import ParseTree.Proofs.Session.Editing

/-!
# Substitution by editing

Where the text of a node is replaced by an expression in parentheses, the tree of the
edited text is the old tree with that expression in the place of the node.

The tokens around a node leave a hole for whatever binds tightly enough and is not
nested too deeply, and parentheses bind more tightly than all operators.  The texts
around the node print the tokens around it, so the edited text has just these tokens
and those of the replacement.
-/

namespace ParseTree

theorem Tree.isFaulty_unplaced (t : Tree) : t.unplaced.isFaulty = t.isFaulty := by
  rw [isFaulty, unplaced, Rose.preorder_map, List.any_map]
  rfl

namespace Arith

section Hole

variable {a : Arena} {n : Nat}

/-- The tokens of the node `id` have a hole where the node `n` stands: whatever binds
there by any power binds with the tokens around it, and makes the tree of `id` with
another in the place of `n`. -/
def Hole (a : Arena) (id n p h : Nat) (tokens : List Token) : Prop :=
  ∃ before middle after, tokens = before ++ middle ++ after ∧
    (∃ q k sub, Binds q k middle sub ∧ sub.range = a.range n) ∧
    ∀ others s, (∀ q, Binds q (h - a.enclosing "parenthesized_expression" id n) others s) →
      ∃ t, Binds p h (before ++ others ++ after) t ∧
        a.graft n (s.setField (a.label n).field).unplaced id =
          (t.setField (a.label id).field).unplaced

theorem hole_self {p h : Nat} {tokens : List Token} {t : Tree} (b : Binds p h tokens t)
    (unfolds : a.unfold n = t.setField (a.label n).field) : Hole a n n p h tokens := by
  refine ⟨[], tokens, [], by simp, ⟨p, h, t, b, ?_⟩, ?_⟩
  · rw [← a.range_unfold, unfolds, Tree.range_setField]
  · intro others s binds
    rw [a.enclosing_self] at binds
    exact ⟨s, by simpa using binds p, a.graft_self n _⟩

theorem not_mem_descendants_of_token {id : Nat} {kind : String} {range : ByteRange}
    (unfolds : a.unfold id = anonymousLeaf kind range) (named : (a.label n).named = true) :
    n ∉ a.descendants id := by
  obtain ⟨label, children⟩ := children_of_unfold unfolds
  have none : a.children id = [] := by simpa using children
  rw [Arena.descendants_eq, none]
  rintro mem
  obtain rfl : n = id := by simpa using mem
  rw [label] at named
  cases named

theorem Hole.of_child {id child p h q k : Nat} {tokens inner : List Token}
    (hole : Hole a child n q k inner) (distinct : (a.descendants id).Nodup)
    (isChild : child ∈ a.children id) (inside : n ∈ a.descendants child)
    (height : h = k + if (a.label id).kind = "parenthesized_expression" then 1 else 0)
    (front back : List Token) (split : tokens = front ++ inner ++ back)
    (builds : ∀ others u scion, Binds q k others u →
      a.graft n scion child = (u.setField (a.label child).field).unplaced →
      ∃ t, Binds p h (front ++ others ++ back) t ∧
        a.graft n scion id = (t.setField (a.label id).field).unplaced) :
    Hole a id n p h tokens := by
  obtain ⟨before, middle, after, rfl, node, fills⟩ := hole
  refine ⟨front ++ before, middle, after ++ back, by simp [split], node, ?_⟩
  intro others s binds
  have room : h - a.enclosing "parenthesized_expression" id n =
      k - a.enclosing "parenthesized_expression" child n := by
    rw [Arena.enclosing_of_child distinct isChild inside]
    omega
  rw [room] at binds
  obtain ⟨u, bound, grafted⟩ := fills others s binds
  obtain ⟨t, bound', grafted'⟩ := builds _ u _ bound grafted
  exact ⟨t, by simpa using bound', grafted'⟩

/-- Tokens that bind have a hole for each of their nodes: the node is the one at the top,
or it stands in a child that binds. -/
theorem Binds.hole {p h : Nat} {tokens : List Token} {t : Tree} (b : Binds p h tokens t) {id : Nat}
    (unfolds : a.unfold id = t.setField (a.label id).field)
    (distinct : (a.descendants id).Nodup) (below : n ∈ a.descendants id)
    (named : (a.label n).named = true) : Hole a id n p h tokens := by
  induction b generalizing id with
  | leaf isLeaf known =>
      obtain ⟨label, rfl, -, -⟩ := leaf?_eq_some isLeaf
      obtain ⟨-, children⟩ := children_of_unfold unfolds
      have none : a.children id = [] := by simpa using children
      rw [Arena.descendants_eq, none] at below
      obtain rfl : n = id := by simpa using below
      exact hole_self (.leaf isLeaf known) unfolds
  | @parens p h opening close tokens body b ih =>
      by_cases top : n = id
      · subst top
        exact hole_self (.parens b) unfolds
      obtain ⟨label, children⟩ := children_of_unfold unfolds
      obtain ⟨first, inner, last, ids, isOpening, isBody, isClose⟩ := exists_three children
      have isChild : inner ∈ a.children id := by simp [ids]
      have noOpening := not_mem_descendants_of_token isOpening named
      have noClose := not_mem_descendants_of_token isClose named
      have inside : n ∈ a.descendants inner := by
        rw [Arena.descendants_eq, ids] at below
        simpa [top, noOpening, noClose] using below
      have field : (a.label inner).field = none := by rw [label_of_unfold isBody, b.field]
      have hole := ih (by rw [field, Tree.setField_eq_self b.field, isBody])
        (Arena.nodup_descendants_child distinct isChild) inside
      refine hole.of_child distinct isChild inside (by rw [label]; rfl)
        [⟨.openParen, opening⟩] [⟨.closeParen, close⟩] rfl ?_
      intro others u scion bound grafted
      rw [field, Tree.setField_eq_self bound.field] at grafted
      refine ⟨_, .parens bound, ?_⟩
      apply Arena.graft_branch (Ne.symm top) unfolds
      simp [ids, grafted, Arena.graft_of_not_mem noOpening, Arena.graft_of_not_mem noClose,
        isOpening, isClose]
  | @binary p h op range first second left right bLeft strong bRight ihLeft ihRight =>
      by_cases top : n = id
      · subst top
        exact hole_self (.binary bLeft strong bRight) unfolds
      obtain ⟨label, children⟩ := children_of_unfold unfolds
      obtain ⟨l, symbol, r, ids, isLeft, isSymbol, isRight⟩ := exists_three children
      have isChildLeft : l ∈ a.children id := by simp [ids]
      have isChildRight : r ∈ a.children id := by simp [ids]
      have noSymbol := not_mem_descendants_of_token isSymbol named
      have height : h = h + if (a.label id).kind = "parenthesized_expression" then 1 else 0 := by
        have other : op.kind ≠ "parenthesized_expression" := by cases op <;> decide
        rw [label, if_neg other, Nat.add_zero]
      rw [Tree.withField_eq] at isLeft isRight
      have fieldLeft : (a.label l).field = some "left" := by
        rw [label_of_unfold isLeft, Tree.value_setField]
      have fieldRight : (a.label r).field = some "right" := by
        rw [label_of_unfold isRight, Tree.value_setField]
      rw [Arena.descendants_eq, ids] at below
      have apart : n ∈ a.descendants l → n ∉ a.descendants r := by
        intro inLeft inRight
        rw [Arena.descendants_eq, ids, List.nodup_cons, List.flatMap_cons, List.nodup_append]
          at distinct
        exact distinct.2.2.2 n inLeft n (by simp [inRight]) rfl
      obtain inLeft | inRight : n ∈ a.descendants l ∨ n ∈ a.descendants r := by
        simpa [top, noSymbol] using below
      · have hole := ihLeft (by rw [fieldLeft, isLeft])
          (Arena.nodup_descendants_child distinct isChildLeft) inLeft
        refine hole.of_child distinct isChildLeft inLeft height []
          (⟨.operator op, range⟩ :: second) rfl ?_
        intro others u scion bound grafted
        refine ⟨_, .binary bound strong bRight, ?_⟩
        apply Arena.graft_branch (Ne.symm top) unfolds
        simp [ids, grafted, fieldLeft, Arena.graft_of_not_mem noSymbol,
          Arena.graft_of_not_mem (apart inLeft), isSymbol, isRight, Tree.withField_eq]
      · have hole := ihRight (by rw [fieldRight, isRight])
          (Arena.nodup_descendants_child distinct isChildRight) inRight
        refine hole.of_child distinct isChildRight inRight height
          (first ++ [⟨.operator op, range⟩]) [] (by simp) ?_
        intro others u scion bound grafted
        refine ⟨_, by simpa using Binds.binary bLeft strong bound, ?_⟩
        apply Arena.graft_branch (Ne.symm top) unfolds
        simp [ids, grafted, fieldRight, Arena.graft_of_not_mem noSymbol,
          Arena.graft_of_not_mem (fun inLeft => apart inLeft inRight), isSymbol, isLeft,
          Tree.withField_eq]

theorem exists_hole_of_root {h top : Nat} {tokens : List Token}
    (binds : Binds 1 h tokens (a.unfold top)) (ids : a.children 0 = [top])
    (root : (a.label 0).kind = "expression") (distinct : (a.descendants 0).Nodup)
    (below : n ∈ a.descendants 0) (notRoot : n ≠ 0) (named : (a.label n).named = true) :
    ∃ before middle after, tokens = before ++ middle ++ after ∧
      (∃ q k sub, Binds q k middle sub ∧ sub.range = a.range n) ∧
      ∀ others s, (∀ q, Binds q (h - a.enclosing "parenthesized_expression" 0 n) others s) →
        ∃ t, Binds 1 h (before ++ others ++ after) t ∧
          a.graft n (s.setField (a.label n).field).unplaced 0 =
            .node (a.label 0).unplaced [t.unplaced] := by
  have isTop : top ∈ a.children 0 := by simp [ids]
  have inside : n ∈ a.descendants top := by
    rw [Arena.descendants_eq, ids] at below
    simpa [notRoot] using below
  have field : (a.label top).field = none := by rw [← a.value_unfold, binds.field]
  have above : a.enclosing "parenthesized_expression" 0 n =
      a.enclosing "parenthesized_expression" top n := by
    rw [Arena.enclosing_of_child distinct isTop inside, root]
    rfl
  obtain ⟨before, middle, after, split, node, fills⟩ := binds.hole
    (by rw [field, Tree.setField_eq_self binds.field])
    (Arena.nodup_descendants_child distinct isTop) inside named
  refine ⟨before, middle, after, split, node, ?_⟩
  intro others s filling
  obtain ⟨t, bound, grafted⟩ := fills others s (by rwa [above] at filling)
  rw [field, Tree.setField_eq_self bound.field] at grafted
  exact ⟨t, bound, by rw [Arena.graft_eq (Ne.symm notRoot), ids, List.map_singleton, grafted]⟩

end Hole

/-! ## Texts -/

theorem Binds.unplaced_arena {tokens : List Token} {t : Tree} (b : Binds 1 maxNesting tokens t)
    {text : Text} (kinds : (Token.tokenize text).map (·.kind) = tokens.map (·.kind)) :
    (arena text).hasFault 0 = false ∧
      ((arena text).unfold 0).unplaced =
        .node { kind := "expression", range := ⟨0, 0⟩ } [t.unplaced] := by
  obtain ⟨t', c, read, empty, same⟩ := b.exists_reads (c := { rest := Token.tokenize text })
    (List.append_nil _).symm kinds (by simp) (closes_nil 1)
  have whole : parse text = _ := parseTokens_of_reads read empty text.width
  have sound : t'.isFaulty = false := by
    rw [← Tree.isFaulty_unplaced, same, Tree.isFaulty_unplaced, b.isFaulty]
  rw [hasFault_arena, unfold_arena, whole]
  refine ⟨by simp [Tree.isFaulty_node, sound], ?_⟩
  simp [Label.unplaced, same]

theorem exists_binds_of_sound {text : Text} (sound : (arena text).hasFault 0 = false) :
    ∃ top, (arena text).children 0 = [top] ∧
      (arena text).label 0 = { kind := "expression", range := ⟨0, text.width⟩ } ∧
      Binds 1 maxNesting (Token.tokenize text) ((arena text).unfold top) := by
  obtain ⟨first, c₁, others, c₂, read, -, leftover, whole⟩ :=
    reads_parseTokens (Token.tokenize text) text.width
  rw [hasFault_arena, parse, whole, isFaulty_root] at sound
  obtain ⟨sound, rfl⟩ := sound
  have empty : c₁.rest = [] := leftover.eq_nil_iff.1 rfl
  obtain ⟨tokens, consumed, binds⟩ := read.exists_binds sound
  obtain rfl : Token.tokenize text = tokens := by simpa [empty] using consumed
  obtain ⟨label, children⟩ := children_of_unfold ((unfold_arena text).trans whole)
  obtain ⟨top, ids, same⟩ := List.map_eq_singleton_iff.1 children
  exact ⟨top, ids, label, same ▸ binds⟩

theorem exists_edit_append (engine : Engine) {p : Parsed} (math : p.language = .math)
    {before deleted after : Text} (text : p.text = before ++ deleted ++ after)
    (replacement : Text) :
    ∃ p', p.edit engine ⟨before.width, before.width + deleted.width⟩ replacement = (.ok (), p') ∧
      p'.text = before ++ replacement ++ after ∧ p'.arena = arena p'.text := by
  obtain ⟨request, new, edited⟩ := @Parsed.exists_edit_append engine p _ _ _ text replacement
  rw [Backend.answer_math math] at edited
  exact ⟨_, edited, new, rfl⟩

/-- To replace a node by an expression in parentheses is to edit the text of the node,
as long as the parentheses around it leave room. -/
theorem edit_substitutes {engine : Engine} {p : Parsed} {r : Text} {n : Nat}
    (math : p.language = .math)
    (sound : (arena p.text).hasFault 0 = false) (inside : n < (arena p.text).size)
    (notRoot : n ≠ 0) (named : ((arena p.text).label n).named = true)
    (sound' : (arena r).hasFault 0 = false)
    (room : (arena p.text).enclosing "parenthesized_expression" 0 n + 1 +
      nesting ((Token.tokenize r).map (·.kind)) ≤ maxNesting) :
    ∃ p' top, p.edit engine ((arena p.text).range n) ('(' :: (r ++ [')'])) = (.ok (), p') ∧
      p'.arena = arena p'.text ∧ (arena p'.text).hasFault 0 = false ∧
      (arena r).children 0 = [top] ∧
      ((arena p'.text).unfold 0).unplaced =
        (arena p.text).graft n
          (.node { kind := "parenthesized_expression", field := ((arena p.text).label n).field
                   range := ⟨0, 0⟩ }
            [anonymousLeaf "(" ⟨0, 0⟩, ((arena r).unfold top).unplaced,
              anonymousLeaf ")" ⟨0, 0⟩]) 0 := by
  obtain ⟨top, ids, root, binds⟩ := exists_binds_of_sound sound
  obtain ⟨top', ids', -, binds'⟩ := exists_binds_of_sound sound'
  have all := descendants_arena p.text
  obtain ⟨before, middle, after, tokens, ⟨q, k, sub, bindsSub, range⟩, fills⟩ :=
    exists_hole_of_root binds ids (by rw [root]) (by rw [all]; exact List.nodup_range)
      (by rw [all]; exact List.mem_range.2 inside) notRoot named
  -- the replacement binds by any power, and there is room for its parentheses
  have shallow : Binds 1 (nesting ((Token.tokenize r).map (·.kind))) (Token.tokenize r)
      ((arena r).unfold top') := binds'.of_nestingFrom (Nat.le_of_eq (Nat.zero_add _).symm)
  obtain ⟨t, bound, grafted⟩ := fills _ _ fun q =>
    (@Binds.parens q _ ⟨0, 0⟩ ⟨0, 0⟩ _ _ shallow).of_le_height (by omega)
  -- the texts around the node print the tokens around it
  have ordered := (spaced_tokenize p.text).pairwise_stop.2
  rw [tokens, List.pairwise_append, List.pairwise_append] at ordered
  obtain ⟨start, stop⟩ := bindsSub.range ordered.1.2.1
  rw [range] at start stop
  obtain ⟨first, part, last, text, node, prints, prints'⟩ :=
    exists_parts binds.known tokens start stop
  have whole := (prints.append
    (placed_tokenize binds'.known).printsKinds.enclosed).append prints'
  have kinds := map_kind_tokenize whole (by simpa using bound.isChain)
  obtain ⟨p', edited, text', parsed⟩ := exists_edit_append engine math text ('(' :: (r ++ [')']))
  rw [← text'] at kinds
  obtain ⟨faultless, made⟩ := bound.unplaced_arena (by simpa using kinds)
  refine ⟨p', top', node ▸ edited, parsed, faultless, ids', made.trans ?_⟩
  rw [root] at grafted
  generalize ((arena p.text).label n).field = field at grafted ⊢
  exact grafted.symm

theorem edit_substitutes_variable :
    let text : Text := "2*(x)".toList
    let r : Text := "1 + (z)".toList
    let engine := Engine.blank fun _ => ⟨[], [], []⟩
    let p : Parsed :=
      { document := ⟨text⟩, arena := arena text, backend := ⟨.math, []⟩, settings := {} }
    (arena text).hasFault 0 = false ∧ 6 < (arena text).size ∧
      ((arena text).label 6).named = true ∧ (arena r).hasFault 0 = false ∧
      (arena text).enclosing "parenthesized_expression" 0 6 + 1 +
        nesting ((Token.tokenize r).map (·.kind)) ≤ maxNesting ∧
      ∃ p' top, p.edit engine ((arena text).range 6) ('(' :: (r ++ [')'])) = (.ok (), p') ∧
        p'.text = "2*((1 + (z)))".toList ∧ (arena p'.text).hasFault 0 = false ∧
        ((arena p'.text).unfold 0).unplaced =
          (arena text).graft 6
            (.node { kind := "parenthesized_expression", range := ⟨0, 0⟩ }
              [anonymousLeaf "(" ⟨0, 0⟩, ((arena r).unfold top).unplaced,
                anonymousLeaf ")" ⟨0, 0⟩]) 0 := by
  intro text r engine p
  have sound : (arena text).hasFault 0 = false := by
    rw [hasFault_arena]
    decide +kernel
  have sound' : (arena r).hasFault 0 = false := by
    rw [hasFault_arena]
    decide +kernel
  have inside : 6 < (arena text).size := by decide +kernel
  have named : ((arena text).label 6).named = true := by decide +kernel
  have field : ((arena text).label 6).field = none := by decide +kernel
  have range : (arena text).range 6 = ⟨3, 4⟩ := by decide +kernel
  have room : (arena text).enclosing "parenthesized_expression" 0 6 + 1 +
      nesting ((Token.tokenize r).map (·.kind)) ≤ maxNesting := by
    have size : (arena text).size = 8 := by decide +kernel
    have nested : nesting ((Token.tokenize r).map (·.kind)) = 1 := by decide +kernel
    have most : (arena text).enclosing "parenthesized_expression" 0 6 ≤
        ((arena text).descendants 0).length := List.countP_le_length
    rw [descendants_arena, List.length_range, size] at most
    rw [nested, maxNesting]
    omega
  obtain ⟨p', top, edited, -, faultless, -, same⟩ :=
    @edit_substitutes engine p r 6 rfl sound inside (by decide) named sound' room
  rw [show p.text = text from rfl] at edited same
  have text' : p'.text = "2*((1 + (z)))".toList := by
    have replaced : (p.edit engine ⟨3, 4⟩ ('(' :: (r ++ [')']))).2.text =
        "2*((1 + (z)))".toList := by decide +kernel
    rwa [← range, edited] at replaced
  rw [field] at same
  exact ⟨sound, inside, named, sound', room, p', top, edited, text', faultless, same⟩

end Arith

end ParseTree
