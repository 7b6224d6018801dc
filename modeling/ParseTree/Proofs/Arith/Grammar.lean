import ParseTree.Proofs.Arith.Geometry

/-!
# The grammar of arithmetic

`IsExpression` says which sequences of tokens are expressions, without regard to
how operators bind.  The parser finds a fault in a text exactly if its tokens are
no expression, or one whose parentheses are nested too deeply.

What relates the two is what may still follow once some parentheses are open and
an operand is due or not.  A reading without faults takes one such situation to
another, and a reading can go wrong only where the tokens leave the grammar.
-/

namespace ParseTree

namespace Tree

def isFaulty (t : Tree) : Bool := t.preorder.any fun label => label.error || label.missing

@[simp] theorem isFaulty_leaf (label : Label) :
    (leaf label).isFaulty = (label.error || label.missing) := by
  simp [isFaulty, leaf, Rose.preorder_node]

theorem isFaulty_node (label : Label) (ts : List Tree) :
    isFaulty (.node label ts) = ((label.error || label.missing) || ts.any isFaulty) := by
  rw [isFaulty, Rose.preorder_node, List.any_cons, List.any_flatMap]
  rfl

@[simp] theorem isFaulty_branch (kind : String) (ts : List Tree) :
    (branch kind ts).isFaulty = ts.any isFaulty := by
  rw [branch, isFaulty_node]
  rfl

@[simp] theorem isFaulty_withField (field : String) (t : Tree) :
    (t.withField field).isFaulty = t.isFaulty := by
  obtain ⟨label, ts⟩ := t
  rw [withField, isFaulty_node, isFaulty_node]

end Tree

theorem Arena.hasFault_eq_isFaulty (a : Arena) (id : Nat) :
    a.hasFault id = (a.unfold id).isFaulty := by
  rw [hasFault, Tree.isFaulty, unfold, Rose.preorder_map, List.any_map, descendants]
  rfl

namespace Arith

mutual

inductive IsExpression : List TokenKind → Prop
  | chain {first others : List TokenKind} :
      IsOperand first → IsContinuation others → IsExpression (first ++ others)

inductive IsOperand : List TokenKind → Prop
  | number : IsOperand [.number]
  | variable : IsOperand [.variable]
  | parens {body : List TokenKind} :
      IsExpression body → IsOperand (.openParen :: (body ++ [.closeParen]))

inductive IsContinuation : List TokenKind → Prop
  | nil : IsContinuation []
  | cons (op : Operator) {operand others : List TokenKind} :
      IsOperand operand → IsContinuation others →
      IsContinuation (.operator op :: (operand ++ others))

end

def depthBehind (depth : Nat) : TokenKind → Nat
  | .openParen => depth + 1
  | .closeParen => depth - 1
  | .number | .variable | .operator _ | .unknown => depth

/-- The most parentheses that are open at once, if `depth` are at the start. -/
def nestingFrom (depth : Nat) : List TokenKind → Nat
  | [] => depth
  | kind :: kinds => max depth (nestingFrom (depthBehind depth kind) kinds)

def nesting (kinds : List TokenKind) : Nat := nestingFrom 0 kinds

theorem nestingFrom_append (depth : Nat) (kinds others : List TokenKind) :
    nestingFrom depth (kinds ++ others) =
      max (nestingFrom depth kinds) (nestingFrom (kinds.foldl depthBehind depth) others) := by
  induction kinds generalizing depth with
  | nil =>
      have least : depth ≤ nestingFrom depth others := by
        cases others with
        | nil => exact Nat.le_refl depth
        | cons kind kinds => exact Nat.le_max_left _ _
      simp [nestingFrom, Nat.max_eq_right least]
  | cons kind kinds ih => simp [nestingFrom, ih, Nat.max_assoc]

mutual

theorem IsExpression.foldl_depthBehind (depth : Nat) : ∀ {kinds : List TokenKind},
    IsExpression kinds → kinds.foldl depthBehind depth = depth
  | _, .chain first others => by
      rw [List.foldl_append, first.foldl_depthBehind depth, others.foldl_depthBehind depth]

theorem IsOperand.foldl_depthBehind (depth : Nat) : ∀ {kinds : List TokenKind},
    IsOperand kinds → kinds.foldl depthBehind depth = depth
  | _, .number => rfl
  | _, .variable => rfl
  | _, .parens body => by
      rw [List.foldl_cons, List.foldl_append, depthBehind, body.foldl_depthBehind (depth + 1)]
      rfl

theorem IsContinuation.foldl_depthBehind (depth : Nat) : ∀ {kinds : List TokenKind},
    IsContinuation kinds → kinds.foldl depthBehind depth = depth
  | _, .nil => rfl
  | _, .cons op operand others => by
      rw [List.foldl_cons, List.foldl_append, depthBehind, operand.foldl_depthBehind depth,
        others.foldl_depthBehind depth]

end

theorem IsContinuation.append {kinds others : List TokenKind} (h : IsContinuation kinds)
    (behind : IsContinuation others) : IsContinuation (kinds ++ others) := by
  -- a continuation is a list of operators with operands, so the recursion is on that list
  match kinds, h with
  | _, .nil => exact behind
  | _, .cons op operand more =>
      rw [List.cons_append, List.append_assoc]
      exact .cons op operand (more.append behind)

theorem IsExpression.binary {left right : List TokenKind} (h : IsExpression left)
    (op : Operator) (h' : IsExpression right) :
    IsExpression (left ++ .operator op :: right) := by
  obtain ⟨first, others⟩ := h
  obtain ⟨operand, more⟩ := h'
  rw [List.append_assoc]
  exact .chain first (others.append (.cons op operand more))

mutual

theorem IsExpression.unknown_not_mem : ∀ {kinds : List TokenKind},
    IsExpression kinds → .unknown ∉ kinds
  | _, .chain first others => by simp [first.unknown_not_mem, others.unknown_not_mem]

theorem IsOperand.unknown_not_mem : ∀ {kinds : List TokenKind},
    IsOperand kinds → .unknown ∉ kinds
  | _, .number => by simp
  | _, .variable => by simp
  | _, .parens body => by simp [body.unknown_not_mem]

theorem IsContinuation.unknown_not_mem : ∀ {kinds : List TokenKind},
    IsContinuation kinds → .unknown ∉ kinds
  | _, .nil => by simp
  | _, .cons _ operand others => by simp [operand.unknown_not_mem, others.unknown_not_mem]

end

/-- What may follow where `depth` parentheses are open, depending on whether an
operand is due. -/
def Completes (depth : Nat) (due : Bool) : List TokenKind → Prop
  | [] => due = false ∧ depth = 0
  | kind :: kinds =>
      match due, kind with
      | true, .number | true, .variable => Completes depth false kinds
      | true, .openParen => depth < maxNesting ∧ Completes (depth + 1) true kinds
      | false, .operator _ => Completes depth true kinds
      | false, .closeParen => 0 < depth ∧ Completes (depth - 1) false kinds
      | _, _ => False

mutual

theorem IsExpression.completes {depth : Nat} : ∀ {kinds rest : List TokenKind},
    IsExpression kinds → nestingFrom depth kinds ≤ maxNesting →
    Completes depth false rest → Completes depth true (kinds ++ rest)
  | _, rest, .chain first others, shallow, behind => by
      rw [nestingFrom_append, first.foldl_depthBehind] at shallow
      rw [List.append_assoc]
      exact first.completes (by omega) (others.completes (by omega) behind)

theorem IsOperand.completes {depth : Nat} : ∀ {kinds rest : List TokenKind},
    IsOperand kinds → nestingFrom depth kinds ≤ maxNesting →
    Completes depth false rest → Completes depth true (kinds ++ rest)
  | _, rest, .number, _, behind => behind
  | _, rest, .variable, _, behind => behind
  | _, rest, .parens body, shallow, behind => by
      rw [nestingFrom, depthBehind, nestingFrom_append, body.foldl_depthBehind] at shallow
      have deeper : depth + 1 ≤ nestingFrom (depth + 1) [.closeParen] := Nat.le_max_left _ _
      rw [List.cons_append, List.append_assoc]
      exact ⟨by omega, body.completes (by omega) ⟨by omega, behind⟩⟩

theorem IsContinuation.completes {depth : Nat} : ∀ {kinds rest : List TokenKind},
    IsContinuation kinds → nestingFrom depth kinds ≤ maxNesting →
    Completes depth false rest → Completes depth false (kinds ++ rest)
  | _, rest, .nil, _, behind => behind
  | _, rest, .cons op operand others, shallow, behind => by
      rw [nestingFrom, depthBehind, nestingFrom_append, operand.foldl_depthBehind] at shallow
      rw [List.cons_append, List.append_assoc]
      exact operand.completes (by omega) (others.completes (by omega) behind)

end

def Cursor.kinds (c : Cursor) : List TokenKind := c.rest.map (·.kind)

theorem Cursor.kinds_of_rest {c : Cursor} {token : Token} {rest : List Token}
    (here : c.rest = token :: rest) :
    c.kinds = token.kind :: (c.consume token rest).kinds := by
  rw [Cursor.kinds, here]
  rfl

theorem Reads.not_faulty {p : Nat} {c c' : Cursor} {t : Tree} (h : Reads p c t c')
    (completes : Completes c.depth true c.kinds) :
    t.isFaulty = false ∧ Completes c'.depth false c'.kinds := by
  induction h with
  | @absent _ c lacks =>
      exfalso
      rcases rest : c.rest with _ | ⟨token, rest'⟩
      · simp [Cursor.kinds, rest, Completes] at completes
      · obtain ⟨noLeaf, noParen⟩ := lacks token rest' rest
        rw [Cursor.kinds_of_rest rest] at completes
        rcases operator_or_closeParen noLeaf noParen with ⟨op, kind⟩ | kind <;>
          simp [kind, Completes] at completes
  | @leaf _ c token rest t here isLeaf =>
      rw [Cursor.kinds_of_rest here] at completes
      obtain ⟨kind, range⟩ := token
      cases kind with
      | unknown => exact completes.elim
      | operator | openParen | closeParen => cases isLeaf
      | _ =>
          cases isLeaf
          exact ⟨by simp, completes⟩
  | @tooDeep _ c token rest here kind deep =>
      exfalso
      rw [Cursor.kinds_of_rest here, kind] at completes
      exact Nat.not_le_of_lt completes.1 deep
  | @parens _ c c₁ c₂ token rest body close here kind _ inner stops closes ih =>
      rw [Cursor.kinds_of_rest here, kind] at completes
      obtain ⟨sound, behind⟩ := ih completes.2
      have depth : c₁.depth = c.depth + 1 := inner.depth
      -- inside parentheses only an operator or a closing one may come next
      rcases closing_cases closes with ⟨range, rest', at_close, rfl, rfl⟩ | ⟨other, -, -⟩
      · have closing : c₁.rest = ⟨.closeParen, range⟩ :: rest' := at_close
        rw [Cursor.kinds_of_rest closing] at behind
        exact ⟨by simp [sound, anonymousLeaf], behind.2⟩
      · exfalso
        rcases rest' : c₁.rest with _ | ⟨⟨kind', range⟩, more⟩
        · simp [Cursor.kinds, rest', Completes, depth] at behind
        · rw [Cursor.kinds_of_rest rest'] at behind
          cases kind' with
          | operator op => exact stops.rest_ne op range more rest'
          | closeParen => exact other _ _ rest' rfl
          | _ => exact behind.elim
  | @binary _ c c₁ c₂ left right op range rest _ here _ _ _ ihLeft ihRight =>
      obtain ⟨leftSound, behindLeft⟩ := ihLeft completes
      rw [Cursor.kinds_of_rest here] at behindLeft
      obtain ⟨rightSound, behind⟩ := ihRight behindLeft
      exact ⟨by simp [Arith.binary, leftSound, rightSound, anonymousLeaf], behind⟩

theorem Reads.isExpression {p : Nat} {c c' : Cursor} {t : Tree} (h : Reads p c t c')
    (sound : t.isFaulty = false) (shallow : c.depth ≤ maxNesting) :
    ∃ kinds, c.kinds = kinds ++ c'.kinds ∧ IsExpression kinds ∧
      nestingFrom c.depth kinds ≤ maxNesting := by
  induction h with
  | absent => simp [Cursor.missingNumber, Tree.missing] at sound
  | @leaf _ c token rest t here isLeaf =>
      have operand : IsOperand [token.kind] := by
        obtain ⟨kind, range⟩ := token
        cases kind with
        | number => exact .number
        | unknown =>
            cases isLeaf
            simp [errorLeaf] at sound
        | operator | openParen | closeParen => cases isLeaf
        | _ => exact .variable
      have same := operand.foldl_depthBehind c.depth
      refine ⟨[token.kind], Cursor.kinds_of_rest here, .chain operand .nil, ?_⟩
      rw [List.foldl_cons, List.foldl_nil] at same
      rw [nestingFrom, nestingFrom, same]
      omega
  | tooDeep => simp [errorLeaf] at sound
  | @parens _ c c₁ c₂ token rest body close here kind inside inner _ closes ih =>
      obtain ⟨bodySound, closeSound⟩ : body.isFaulty = false ∧ close.isFaulty = false := by
        simpa [anonymousLeaf] using sound
      obtain ⟨kinds, read, isBody, nested⟩ := ih bodySound inside
      rcases closing_cases closes with ⟨range, rest', at_close, -, rfl⟩ | ⟨-, rfl, -⟩
      · have closing : c₁.rest = ⟨.closeParen, range⟩ :: rest' := at_close
        refine ⟨.openParen :: (kinds ++ [.closeParen]), ?_, ?_, ?_⟩
        · rw [Cursor.kinds_of_rest here, kind, List.cons_append, List.append_assoc]
          exact congrArg _ (read.trans (congrArg _ (Cursor.kinds_of_rest closing)))
        · simpa using IsExpression.chain (.parens isBody) .nil
        · rw [nestingFrom, depthBehind, nestingFrom_append, isBody.foldl_depthBehind]
          simp only [nestingFrom, depthBehind] at nested ⊢
          omega
      · simp [Tree.missing] at closeSound
  | @binary _ c c₁ c₂ left right op range rest readLeft here _ _ _ ihLeft ihRight =>
      obtain ⟨leftSound, rightSound⟩ : left.isFaulty = false ∧ right.isFaulty = false := by
        simpa [Arith.binary, anonymousLeaf] using sound
      obtain ⟨kindsLeft, firstRead, isLeft, nestedLeft⟩ := ihLeft leftSound shallow
      have depth : c₁.depth = c.depth := readLeft.depth
      obtain ⟨kindsRight, thenRead, isRight, nestedRight⟩ :=
        ihRight rightSound (by simpa [Cursor.consume, depth] using shallow)
      refine ⟨kindsLeft ++ .operator op :: kindsRight, ?_, isLeft.binary op isRight, ?_⟩
      · rw [firstRead, Cursor.kinds_of_rest here, thenRead]
        simp
      · have nestedRight : nestingFrom c.depth kindsRight ≤ maxNesting := by
          simpa [Cursor.consume, depth] using nestedRight
        rw [nestingFrom_append, isLeft.foldl_depthBehind, nestingFrom, depthBehind]
        omega

theorem ReadsOthers.eq_nil_iff {c c' : Cursor} {ts : List Tree} (h : ReadsOthers c ts c') :
    ts = [] ↔ c.rest = [] := by
  cases h with
  | done empty => simp [empty]
  | close here => simp [here]
  | expression less =>
      have : c.rest ≠ [] := by
        rintro empty
        simp [empty] at less
      simp [this]

theorem isFaulty_root (first : Tree) (others : List Tree) (length : Nat) :
    Tree.isFaulty (.node { kind := "expression", range := ⟨0, length⟩ }
      (if others.isEmpty then [first] else [first, errorBranch others])) = false ↔
      first.isFaulty = false ∧ others = [] := by
  rw [Tree.isFaulty_node]
  cases others <;> simp [errorBranch, Tree.isFaulty_node]

theorem isFaulty_parse_iff (text : Text) :
    (parse text).isFaulty = false ↔
      IsExpression ((Token.tokenize text).map (·.kind)) ∧
        nesting ((Token.tokenize text).map (·.kind)) ≤ maxNesting := by
  obtain ⟨first, c₁, others, c₂, read, stops, leftover, whole⟩ :=
    reads_parseTokens (Token.tokenize text) text.width
  rw [parse, whole, isFaulty_root, leftover.eq_nil_iff]
  constructor
  · rintro ⟨sound, empty⟩
    obtain ⟨kinds, all, isExpression, nested⟩ := read.isExpression sound (Nat.zero_le _)
    have nothing : c₁.kinds = [] := by simp [Cursor.kinds, empty]
    rw [nothing, List.append_nil] at all
    rw [show (Token.tokenize text).map (·.kind) = kinds from all]
    exact ⟨isExpression, nested⟩
  · rintro ⟨isExpression, nested⟩
    have completes : Completes 0 true ((Token.tokenize text).map (·.kind)) := by
      have all := isExpression.completes nested (show Completes 0 false [] from ⟨rfl, rfl⟩)
      rwa [List.append_nil] at all
    obtain ⟨sound, behind⟩ := read.not_faulty completes
    refine ⟨sound, ?_⟩
    -- nothing is open, so only an operator could come next, and the reading went on to it
    have depth : c₁.depth = 0 := read.depth
    rcases rest : c₁.rest with _ | ⟨⟨kind, range⟩, more⟩
    · rfl
    · rw [Cursor.kinds_of_rest rest, depth] at behind
      cases kind with
      | operator op => exact absurd rest (stops.rest_ne op range more)
      | closeParen => exact absurd behind.1 (Nat.lt_irrefl 0)
      | _ => exact behind.elim

theorem hasFault_arena (text : Text) : (arena text).hasFault 0 = (parse text).isFaulty := by
  rw [Arena.hasFault_eq_isFaulty, arena, (Arena.unfold_ofTree (sound_parse text).1.within).1]

/-- Faults are reported exactly off the grammar. -/
theorem hasFault_arena_eq_false_iff (text : Text) :
    (arena text).hasFault 0 = false ↔
      IsExpression ((Token.tokenize text).map (·.kind)) ∧
        (∀ token ∈ Token.tokenize text, token.kind ≠ .unknown) ∧
        nesting ((Token.tokenize text).map (·.kind)) ≤ maxNesting := by
  rw [hasFault_arena, isFaulty_parse_iff]
  constructor
  · rintro ⟨isExpression, shallow⟩
    refine ⟨isExpression, ?_, shallow⟩
    intro token mem unknown
    exact isExpression.unknown_not_mem (unknown ▸ List.mem_map_of_mem mem)
  · rintro ⟨isExpression, -, shallow⟩
    exact ⟨isExpression, shallow⟩

end Arith

end ParseTree
