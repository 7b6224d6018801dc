import ParseTree.Proofs.Arena.Grafting
import ParseTree.Proofs.Arith.RoundTrip
import ParseTree.Proofs.Arith.Shape

/-!
# How operators bind

`Binds` says which tokens make which tree, without a cursor and without faults.  Every
reading without faults is of this sort, and tokens that bind are read as their tree
wherever they stand, in front of anything that does not bind more tightly.  Only the
kinds of the tokens matter to this, so tokens that stand elsewhere are read as the same
tree in other places.
-/

namespace ParseTree

namespace Arith

/-- The tokens are the tree, with operators of at least this power outside of
parentheses and at most `height` parentheses inside one another. -/
inductive Binds : (power height : Nat) → List Token → Tree → Prop
  | leaf {p h : Nat} {token : Token} {t : Tree} :
      leaf? token = some t → token.kind ≠ .unknown → Binds p h [token] t
  | parens {p h : Nat} {opening close : ByteRange} {tokens : List Token} {body : Tree} :
      Binds 1 h tokens body →
      Binds p (h + 1) (⟨.openParen, opening⟩ :: (tokens ++ [⟨.closeParen, close⟩]))
        (.branch "parenthesized_expression"
          [anonymousLeaf "(" opening, body, anonymousLeaf ")" close])
  | binary {p h : Nat} {op : Operator} {range : ByteRange} {first second : List Token}
      {left right : Tree} :
      Binds op.power h first left → p ≤ op.power → Binds (op.power + 1) h second right →
      Binds p h (first ++ ⟨.operator op, range⟩ :: second) (Arith.binary op left range right)

namespace Binds

variable {p h : Nat} {tokens : List Token} {t : Tree}

theorem of_le_height (b : Binds p h tokens t) {h' : Nat} (le : h ≤ h') :
    Binds p h' tokens t := by
  induction b generalizing h' with
  | leaf isLeaf known => exact .leaf isLeaf known
  | parens _ ih =>
      obtain ⟨h', rfl⟩ : ∃ k, h' = k + 1 := ⟨h' - 1, by omega⟩
      exact .parens (ih (by omega))
  | binary _ strong _ ihLeft ihRight => exact .binary (ihLeft le) strong (ihRight le)

/-- Only the outermost operator limits the power. -/
theorem of_power (b : Binds p h tokens t) {q : Nat}
    (strong : ∀ op : Operator, t.value.kind = op.kind → q ≤ op.power) : Binds q h tokens t := by
  cases b with
  | leaf isLeaf known => exact .leaf isLeaf known
  | parens body => exact .parens body
  | binary left _ right => exact .binary left (strong _ rfl) right

theorem isFaulty (b : Binds p h tokens t) : t.isFaulty = false := by
  induction b with
  | leaf isLeaf known =>
      unfold leaf? at isLeaf
      split at isLeaf <;> cases isLeaf <;> simp_all
  | parens _ ih => simp [anonymousLeaf, ih]
  | binary _ _ _ ihLeft ihRight => simp [Arith.binary, anonymousLeaf, ihLeft, ihRight]

theorem field (b : Binds p h tokens t) : t.value.field = none := by
  cases b with
  | leaf isLeaf =>
      unfold leaf? at isLeaf
      split at isLeaf <;> cases isLeaf <;> rfl
  | parens => rfl
  | binary => rfl

theorem isExpression (b : Binds p h tokens t) : IsExpression (tokens.map (·.kind)) := by
  induction b with
  | @leaf _ _ token _ isLeaf known =>
      have operand : IsOperand [token.kind] := by
        obtain ⟨kind, range⟩ := token
        cases kind with
        | number => exact .number
        | unknown => exact absurd rfl known
        | operator | openParen | closeParen => cases isLeaf
        | _ => exact .variable
      exact .chain operand .nil
  | parens _ ih => simpa using IsExpression.chain (.parens ih) .nil
  | binary _ _ _ ihLeft ihRight => simpa using ihLeft.binary _ ihRight

theorem known (b : Binds p h tokens t) : ∀ token ∈ tokens, token.kind ≠ .unknown := by
  intro token mem unknown
  exact b.isExpression.unknown_not_mem (unknown ▸ List.mem_map_of_mem mem)

theorem of_nestingFrom (b : Binds p h tokens t) {depth h' : Nat}
    (nested : nestingFrom depth (tokens.map (·.kind)) ≤ depth + h') : Binds p h' tokens t := by
  induction b generalizing depth h' with
  | leaf isLeaf known => exact .leaf isLeaf known
  | parens body ih =>
      rw [List.map_cons, List.map_append, nestingFrom, nestingFrom_append, Nat.max_le, Nat.max_le,
        body.isExpression.foldl_depthBehind, depthBehind] at nested
      obtain ⟨-, inner, last⟩ := nested
      have room : depth + 1 ≤ depth + h' := Nat.le_trans (Nat.le_max_left _ _) last
      obtain ⟨h', rfl⟩ : ∃ k, h' = k + 1 := ⟨h' - 1, by omega⟩
      exact .parens (@ih (depth + 1) h' (by omega))
  | binary left strong _ ihLeft ihRight =>
      rw [List.map_append, nestingFrom_append, Nat.max_le, left.isExpression.foldl_depthBehind,
        List.map_cons, nestingFrom, Nat.max_le] at nested
      exact .binary (ihLeft nested.1) strong (ihRight nested.2.2)

theorem isChain (b : Binds p h tokens t) :
    (tokens.map (·.kind)).IsChain fun k k' => k.isOperand = true → k'.isOperand = false := by
  induction b with
  | leaf => exact List.isChain_singleton _
  | parens _ ih =>
      rw [List.map_cons, List.map_append]
      refine List.isChain_cons.2 ⟨?_, ih.append (List.isChain_singleton _) ?_⟩
      · intro kind _ operand
        cases operand
      · intro kind _ close mem _
        obtain rfl := Option.some.inj mem
        rfl
  | @binary _ _ op _ _ _ _ _ _ _ _ ihLeft ihRight =>
      rw [List.map_append, List.map_cons]
      refine ihLeft.append (List.isChain_cons.2 ⟨?_, ihRight⟩) ?_
      · intro kind _ operand
        cases operand
      · intro kind _ operator mem _
        obtain rfl := Option.some.inj mem
        rfl

theorem range (b : Binds p h tokens t)
    (ordered : tokens.Pairwise fun t u => t.range.stop ≤ u.range.stop) :
    tokens.head?.map (·.range.start) = some t.range.start ∧
      tokens.getLast?.map (·.range.stop) = some t.range.stop := by
  induction b with
  | leaf isLeaf =>
      obtain ⟨label, rfl, same, -⟩ := leaf?_eq_some isLeaf
      simp [Tree.leaf, Tree.range, Rose.value, same]
  | @parens _ _ opening close tokens body _ ih =>
      rw [List.pairwise_cons, List.pairwise_append] at ordered
      obtain ⟨first, inside, -, last⟩ := ordered
      obtain ⟨-, stop⟩ := ih inside
      obtain ⟨final, isLast, reach⟩ := Option.map_eq_some_iff.1 stop
      have before : opening.stop ≤ close.stop := first ⟨.closeParen, close⟩ (by simp)
      have behind : body.range.stop ≤ close.stop := by
        rw [← reach]
        exact last final (List.mem_of_getLast? isLast) ⟨.closeParen, close⟩ (by simp)
      have whole : max (max opening.stop body.range.stop) close.stop = close.stop := by omega
      refine ⟨rfl, ?_⟩
      rw [← List.cons_append, List.getLast?_append]
      exact congrArg some whole.symm
  | @binary _ _ op range first second left right _ _ _ ihLeft ihRight =>
      rw [List.pairwise_append, List.pairwise_cons] at ordered
      obtain ⟨inLeft, ⟨symbol, inRight⟩, apart⟩ := ordered
      obtain ⟨start, stop⟩ := ihLeft inLeft
      obtain ⟨-, stop'⟩ := ihRight inRight
      obtain ⟨final, isLast, reach⟩ := Option.map_eq_some_iff.1 stop
      obtain ⟨final', isLast', reach'⟩ := Option.map_eq_some_iff.1 stop'
      have mem := List.mem_of_getLast? isLast'
      have before : range.stop ≤ right.range.stop := by
        rw [← reach']
        exact symbol final' mem
      have behind : left.range.stop ≤ right.range.stop := by
        rw [← reach, ← reach']
        exact apart final (List.mem_of_getLast? isLast) final' (List.mem_cons_of_mem _ mem)
      have whole : (Arith.binary op left range right).range =
          ⟨left.range.start, right.range.stop⟩ := by
        have most : max (max left.range.stop range.stop) right.range.stop = right.range.stop := by
          omega
        rw [← range_withField "left" left, ← range_withField "right" right] at most ⊢
        exact congrArg (ByteRange.mk _) most
      rw [whole]
      constructor
      · rw [List.head?_append]
        obtain ⟨token, isFirst, starts⟩ := Option.map_eq_some_iff.1 start
        simp [isFirst, starts]
      · rw [List.getLast?_append, List.getLast?_cons, isLast']
        simp [reach']

end Binds

theorem Reads.exists_binds {p : Nat} {c c' : Cursor} {t : Tree} (h : Reads p c t c')
    (sound : t.isFaulty = false) :
    ∃ tokens, c.rest = tokens ++ c'.rest ∧ Binds p (maxNesting - c.depth) tokens t := by
  induction h with
  | absent => simp [Cursor.missingNumber, Tree.missing] at sound
  | @leaf _ c token rest t here isLeaf =>
      refine ⟨[token], here, .leaf isLeaf ?_⟩
      intro unknown
      simp only [leaf?, unknown, Option.some.injEq] at isLeaf
      subst isLeaf
      simp [errorLeaf] at sound
  | tooDeep => simp [errorLeaf] at sound
  | @parens _ c c₁ c₂ token rest body close here kind inside inner _ closes ih =>
      obtain ⟨bodySound, closeSound⟩ : body.isFaulty = false ∧ close.isFaulty = false := by
        simpa [anonymousLeaf] using sound
      obtain ⟨tokens, read, binds⟩ := ih bodySound
      rcases closing_cases closes with ⟨range, rest', atClose, rfl, rfl⟩ | ⟨-, rfl, -⟩
      · have closing : c₁.rest = ⟨.closeParen, range⟩ :: rest' := atClose
        obtain ⟨_, opening⟩ := token
        subst kind
        refine ⟨⟨.openParen, opening⟩ :: (tokens ++ [⟨.closeParen, range⟩]), ?_, ?_⟩
        · have whole : rest = tokens ++ c₁.rest := read
          simp [here, whole, closing, Cursor.consume]
        · have height : maxNesting - c.depth = maxNesting - (c.depth + 1) + 1 := by omega
          rw [height]
          exact .parens binds
      · simp [Tree.missing] at closeSound
  | @binary _ c c₁ c₂ left right op range rest readLeft here strong _ _ ihLeft ihRight =>
      obtain ⟨leftSound, rightSound⟩ : left.isFaulty = false ∧ right.isFaulty = false := by
        simpa [Arith.binary, anonymousLeaf] using sound
      obtain ⟨first, consumed, bindsLeft⟩ := ihLeft leftSound
      obtain ⟨second, consumed', bindsRight⟩ := ihRight rightSound
      have depth : (c₁.consume ⟨.operator op, range⟩ rest).depth = c.depth := readLeft.depth
      rw [depth] at bindsRight
      -- the left operand went on until no operator of more power came next
      have tight : Binds op.power (maxNesting - c.depth) first left := by
        refine bindsLeft.of_power ?_
        intro other kind
        have stops := (readLeft.power kind).2 op range rest here
        omega
      refine ⟨first ++ ⟨.operator op, range⟩ :: second, ?_, .binary tight strong bindsRight⟩
      have whole : rest = second ++ c₂.rest := consumed'
      simp [consumed, here, whole]

theorem Binds.exists_reads {p h : Nat} {tokens : List Token} {t : Tree} (b : Binds p h tokens t)
    {c : Cursor} {others rest : List Token} (here : c.rest = others ++ rest)
    (same : others.map (·.kind) = tokens.map (·.kind)) (room : c.depth + h ≤ maxNesting)
    (closes : Closes p rest) :
    ∃ t' c', Reads p c t' c' ∧ c'.rest = rest ∧ t'.unplaced = t.unplaced := by
  induction b generalizing c others rest with
  | @leaf _ _ token t isLeaf known =>
      obtain ⟨⟨kind, range⟩, rfl, sameKind⟩ := List.map_eq_singleton_iff.1 same
      obtain ⟨kind', range'⟩ := token
      obtain rfl : kind = kind' := sameKind
      cases kind with
      | operator | openParen | closeParen => cases isLeaf
      | unknown => exact absurd rfl known
      | _ =>
          cases isLeaf
          exact ⟨_, _, .leaf here rfl, rfl, by simp [Tree.leaf, Label.unplaced]⟩
  | @parens p h opening close tokens body _ ih =>
      rw [List.map_cons, List.map_append] at same
      obtain ⟨⟨kind, range⟩, more, rfl, opens, same⟩ := List.map_eq_cons_iff.1 same
      obtain ⟨inside, last, rfl, sameInside, sameLast⟩ := List.map_eq_append_iff.1 same
      obtain ⟨⟨kind', range'⟩, rfl, closing'⟩ := List.map_eq_singleton_iff.1 sameLast
      obtain rfl : kind = .openParen := opens
      obtain rfl : kind' = .closeParen := closing'
      have entered : c.rest = ⟨.openParen, range⟩ :: (inside ++ ⟨.closeParen, range'⟩ :: rest) := by
        simp [here]
      obtain ⟨body', c₁, read, behind, sameBody⟩ :=
        @ih { c.consume ⟨.openParen, range⟩ _ with depth := c.depth + 1 } inside
          (⟨.closeParen, range'⟩ :: rest) rfl sameInside (by dsimp only; omega)
          (closes_closeParen 1 range' rest)
      obtain ⟨c₂, behind', whole⟩ := Reads.enclosed (p := p) entered (by omega) read behind
      refine ⟨_, c₂, whole, behind', ?_⟩
      simp [Tree.branch, anonymousLeaf, Tree.leaf, Label.unplaced, sameBody]
  | @binary p h op range first second left right _ strong _ ihLeft ihRight =>
      rw [List.map_append, List.map_cons] at same
      obtain ⟨first', more, rfl, sameFirst, same⟩ := List.map_eq_append_iff.1 same
      obtain ⟨⟨kind, range'⟩, second', rfl, operator, sameSecond⟩ := List.map_eq_cons_iff.1 same
      obtain rfl : kind = .operator op := operator
      obtain ⟨left', c₁, readLeft, behindLeft, sameLeft⟩ :=
        ihLeft (by simp [here]) sameFirst room (closes_operator op range' (second' ++ rest))
      have depth : (c₁.consume ⟨.operator op, range'⟩ (second' ++ rest)).depth = c.depth :=
        readLeft.depth
      obtain ⟨right', c₂, readRight, behindRight, sameRight⟩ :=
        @ihRight (c₁.consume ⟨.operator op, range'⟩ (second' ++ rest)) second' rest rfl sameSecond
          (by rw [depth]; exact room) (closes.of_le (by omega))
      rw [← behindRight] at closes
      refine ⟨_, c₂, .binary (readLeft.of_le strong) behindLeft strong readRight
        (closes.stops (by omega)), behindRight, ?_⟩
      simp [Arith.binary, Tree.branch, anonymousLeaf, Tree.leaf, Label.unplaced,
        Tree.withField_eq, Tree.unplaced_setField, sameLeft, sameRight]

end Arith

end ParseTree
