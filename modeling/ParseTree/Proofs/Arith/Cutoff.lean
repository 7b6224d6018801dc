import Mathlib.Data.List.Chain
import ParseTree.Proofs.Arith.Leaves

/-!
# Parentheses nested too deeply

Parentheses are read up to `maxNesting` inside one another, so no way down from the
root passes more of them.  One more than that ends the reading: it and all tokens
behind it are one error leaf, and nothing stands behind that leaf but the missing
ends of the parentheses that were open.

`Meets` says where the parser comes to read an operand.  Where it meets the
parenthesis that is one too many, all readings that are still going on end with the
tokens: each of them is in front of what has been read so far, and each parenthesis
that was open adds one missing end.
-/

namespace ParseTree

namespace Rose

inductive Path : Rose α → List α → Prop
  | root (a : α) (ts : List (Rose α)) : Path (node a ts) [a]
  | down {a : α} {ts : List (Rose α)} {t : Rose α} {path : List α} :
      t ∈ ts → Path t path → Path (node a ts) (a :: path)

end Rose

theorem Arena.path_unfold {a : Arena} {id : Nat} {path : List Nat}
    (chain : (id :: path).IsChain fun id child => child ∈ a.children id) :
    (a.unfold id).Path ((id :: path).map a.label) := by
  induction path generalizing id with
  | nil =>
      rw [unfold_eq]
      exact .root _ _
  | cons child path ih =>
      obtain ⟨isChild, behind⟩ := List.isChain_cons_cons.1 chain
      rw [unfold_eq]
      exact .down (List.mem_map_of_mem isChild) (ih behind)

def Label.isParens (label : Label) : Bool := label.kind = "parenthesized_expression"

namespace Tree

def NestedWithin (n : Nat) (t : Tree) : Prop :=
  ∀ path, t.Path path → path.countP Label.isParens ≤ n

theorem nestedWithin_node {n : Nat} {label : Label} {ts : List Tree}
    (plain : label.isParens = false) (h : ∀ t ∈ ts, NestedWithin n t) :
    NestedWithin n (.node label ts) := by
  intro path way
  cases way with
  | root => simp [plain]
  | down mem below => simpa [plain] using h _ mem _ below

theorem nestedWithin_leaf {n : Nat} {label : Label} (plain : label.isParens = false) :
    NestedWithin n (leaf label) :=
  nestedWithin_node plain (by simp)

theorem nestedWithin_succ {n : Nat} (label : Label) {ts : List Tree}
    (h : ∀ t ∈ ts, NestedWithin n t) : NestedWithin (n + 1) (.node label ts) := by
  intro path way
  cases way with
  | root => exact Nat.le_trans List.countP_le_length (Nat.le_add_left _ _)
  | down mem below =>
      have inside := h _ mem _ below
      rw [List.countP_cons]
      split <;> omega

theorem NestedWithin.withField {n : Nat} {t : Tree} (h : NestedWithin n t) (field : String) :
    NestedWithin n (t.withField field) := by
  obtain ⟨label, ts⟩ := t
  intro path way
  cases way with
  | root =>
      have own := h _ (.root label ts)
      exact own
  | down mem below =>
      have whole := h _ (.down mem below)
      rw [List.countP_cons] at whole ⊢
      exact whole

end Tree

namespace Arith

theorem Reads.nestedWithin {p : Nat} {c c' : Cursor} {t : Tree} (h : Reads p c t c')
    (room : c.depth ≤ maxNesting) : t.NestedWithin (maxNesting - c.depth) := by
  induction h with
  | absent => exact Tree.nestedWithin_leaf rfl
  | leaf _ isLeaf =>
      unfold leaf? at isLeaf
      split at isLeaf <;> cases isLeaf <;> exact Tree.nestedWithin_leaf rfl
  | tooDeep => exact Tree.nestedWithin_leaf rfl
  | @parens _ c _ _ token _ body close _ _ shallow _ _ closes ih =>
      have inside := ih shallow
      have closed : close.NestedWithin (maxNesting - (c.depth + 1)) := by
        rcases closing_cases closes with ⟨_, _, -, rfl, -⟩ | ⟨-, rfl, -⟩ <;>
          exact Tree.nestedWithin_leaf rfl
      have count : maxNesting - c.depth = maxNesting - (c.depth + 1) + 1 := by omega
      rw [count]
      apply Tree.nestedWithin_succ
      simpa using ⟨Tree.nestedWithin_leaf rfl, inside, closed⟩
  | @binary _ c _ _ left right op range _ first _ _ _ _ ihLeft ihRight =>
      have depth := first.depth
      have second := ihRight (by simpa [Cursor.consume, depth] using room)
      simp only [Cursor.consume, depth] at second
      have symbol : (anonymousLeaf op.symbol range).NestedWithin (maxNesting - c.depth) := by
        apply Tree.nestedWithin_leaf
        cases op <;> rfl
      apply Tree.nestedWithin_node
      · cases op <;> rfl
      · simpa using ⟨(ihLeft room).withField "left", symbol, second.withField "right"⟩

theorem ReadsOthers.nestedWithin {c c' : Cursor} {ts : List Tree} (h : ReadsOthers c ts c')
    (outside : c.depth = 0) : ∀ t ∈ ts, t.NestedWithin maxNesting := by
  induction h with
  | done => simp
  | close _ _ ih => exact List.forall_mem_cons.2 ⟨Tree.nestedWithin_leaf rfl, ih outside⟩
  | expression _ read _ _ ih =>
      have first := read.nestedWithin (by simp [outside])
      rw [outside] at first
      exact List.forall_mem_cons.2 ⟨first, ih (read.depth.trans outside)⟩

theorem nestedWithin_parse (text : Text) : (parse text).NestedWithin maxNesting := by
  obtain ⟨first, c₁, others, c₂, read, -, leftover, whole⟩ :=
    reads_parseTokens (Token.tokenize text) text.width
  have inFirst : first.NestedWithin maxNesting := read.nestedWithin (Nat.zero_le _)
  have inOthers : (errorBranch others).NestedWithin maxNesting :=
    Tree.nestedWithin_node rfl (leftover.nestedWithin read.depth)
  rw [parse, whole]
  apply Tree.nestedWithin_node rfl
  split
  · simpa using inFirst
  · simpa using ⟨inFirst, inOthers⟩

theorem countP_path_arena {text : Text} {path : List Nat} (top : path.head? = some 0)
    (chain : path.IsChain fun id child => child ∈ (arena text).children id) :
    path.countP (fun id => ((arena text).label id).kind = "parenthesized_expression") ≤
      maxNesting := by
  cases path with
  | nil => simp
  | cons id path =>
      obtain rfl : id = 0 := by simpa using top
      have way := Arena.path_unfold chain
      rw [unfold_arena] at way
      have bound := nestedWithin_parse text _ way
      simpa only [List.countP_map, Function.comp_def, Label.isParens] using bound

/-! ## Where operands are met -/

/-- Reading an expression of operators of power at least `p` from `c`, the parser comes
to read an operand at `m`. -/
inductive Meets : Nat → Cursor → Cursor → Prop
  | here {p : Nat} {c : Cursor} : Meets p c c
  | inside {p : Nat} {c m : Cursor} {token : Token} {rest : List Token} :
      c.rest = token :: rest → token.kind = .openParen → c.depth < maxNesting →
      Meets 1 { c.consume token rest with depth := c.depth + 1 } m → Meets p c m
  | behind {p : Nat} {c c₁ m : Cursor} {left : Tree} {op : Operator} {range : ByteRange}
      {rest : List Token} :
      Reads p c left c₁ → c₁.rest = ⟨.operator op, range⟩ :: rest → p ≤ op.power →
      Meets (op.power + 1) (c₁.consume ⟨.operator op, range⟩ rest) m → Meets p c m

inductive MeetsOthers : Cursor → Cursor → Prop
  | close {c m : Cursor} {range : ByteRange} {rest : List Token} :
      c.rest = ⟨.closeParen, range⟩ :: rest →
      MeetsOthers (c.consume ⟨.closeParen, range⟩ rest) m → MeetsOthers c m
  | expression {c m : Cursor} {token : Token} {rest : List Token} :
      c.rest = token :: rest → token.kind ≠ .closeParen → Meets 1 c m → MeetsOthers c m
  | behind {c c₁ m : Cursor} {t : Tree} {token : Token} {rest : List Token} :
      c.rest = token :: rest → token.kind ≠ .closeParen → Reads 1 c t c₁ → c₁.Stops 1 →
      MeetsOthers c₁ m → MeetsOthers c m

def MeetsOperand (tokens : List Token) (m : Cursor) : Prop :=
  Meets 1 { rest := tokens } m ∨
    ∃ first c, Reads 1 { rest := tokens } first c ∧ c.Stops 1 ∧ MeetsOthers c m

theorem Meets.suffix {p : Nat} {c m : Cursor} (h : Meets p c m) : m.rest <:+ c.rest := by
  induction h with
  | here => exact List.suffix_rfl
  | inside here _ _ _ ih =>
      rw [here]
      exact ih.trans (List.suffix_cons _ _)
  | behind read here _ _ ih =>
      have left := read.suffix
      rw [here] at left
      exact ih.trans ((List.suffix_cons _ _).trans left)

theorem MeetsOthers.suffix {c m : Cursor} (h : MeetsOthers c m) : m.rest <:+ c.rest := by
  induction h with
  | close here _ ih =>
      rw [here]
      exact ih.trans (List.suffix_cons _ _)
  | expression _ _ meets => exact meets.suffix
  | behind _ _ read _ _ ih => exact ih.trans read.suffix

theorem MeetsOperand.suffix {tokens : List Token} {m : Cursor} (h : MeetsOperand tokens m) :
    m.rest <:+ tokens := by
  rcases h with first | ⟨_, _, read, -, others⟩
  · exact first.suffix
  · exact others.suffix.trans read.suffix

/-- The nodes end in a leaf of this label, whatever its field, and `n` closing
parentheses that are missing at `stop`. -/
def EndsIn (label : Label) (n stop : Nat) (nodes : List Tree) : Prop :=
  ∃ before last, nodes = before ++ .leaf last :: List.replicate n (.missing ")" false stop) ∧
    last.bare = label

section EndsIn

variable {label : Label} {n stop : Nat}

theorem EndsIn.append {nodes : List Tree} (h : EndsIn label n stop nodes) (first : List Tree) :
    EndsIn label n stop (first ++ nodes) := by
  obtain ⟨before, last, rfl, same⟩ := h
  exact ⟨first ++ before, last, by simp, same⟩

theorem EndsIn.close {nodes : List Tree} (h : EndsIn label n stop nodes) :
    EndsIn label (n + 1) stop (nodes ++ [.missing ")" false stop]) := by
  obtain ⟨before, last, rfl, same⟩ := h
  exact ⟨before, last, by simp [List.replicate_succ'], same⟩

theorem EndsIn.withField {t : Tree} (h : EndsIn label n stop t.subtrees) (field : String) :
    EndsIn label n stop (t.withField field).subtrees := by
  obtain ⟨own, ts⟩ := t
  obtain ⟨before, last, nodes, same⟩ := h
  rw [Rose.subtrees_node] at nodes
  rw [Tree.withField, Rose.subtrees_node]
  cases before with
  | nil =>
      -- the tree is the leaf itself
      obtain ⟨first, others⟩ := List.cons.inj nodes
      cases first
      exact ⟨[], { own with field := some field }, by rw [others]; rfl, same⟩
  | cons first before =>
      obtain ⟨-, others⟩ := List.cons.inj nodes
      exact ⟨_ :: before, last, by rw [others]; rfl, same⟩

theorem EndsIn.ne_nil {nodes : List Tree} (h : EndsIn label n stop nodes) : nodes ≠ [] := by
  obtain ⟨before, last, rfl, -⟩ := h
  simp

end EndsIn

section TooDeep

variable {text : Text} {m : Cursor} {opening : Token} {behind : List Token}

theorem Meets.exists_reads {p : Nat} {c : Cursor} (h : Meets p c m)
    (here : m.rest = opening :: behind) (kind : opening.kind = .openParen)
    (deep : m.depth = maxNesting) (spaced : Spaced text c.lastEnd c.rest) :
    ∃ t c', Reads p c t c' ∧ c'.rest = [] ∧ c'.lastEnd = m.exhaust.lastEnd ∧
      t.range.stop = m.exhaust.lastEnd ∧
      EndsIn (deepLabel opening behind) (maxNesting - c.depth) m.exhaust.lastEnd t.subtrees := by
  induction h with
  | @here p c =>
      refine ⟨_, _, .tooDeep here kind (Nat.le_of_eq deep.symm), rfl, rfl, rfl, ?_⟩
      have none : maxNesting - c.depth = 0 := by omega
      rw [none]
      refine ⟨[], _, rfl, ?_⟩
      rw [Cursor.lastEnd_exhaust here]
      rfl
  | @inside p c m token rest entered opens shallow _ ih =>
      obtain ⟨-, -, -, -, inner⟩ := spaced.consume entered
      obtain ⟨body, c₁, read, empty, last, stop, ends⟩ := ih here deep inner
      have stops := Cursor.stops_of_nil empty 1
      have closes : closing body.range.stop { c₁ with depth := c₁.depth - 1 } =
          (.missing ")" false body.range.stop, { c₁ with depth := c₁.depth - 1 }) := by
        simp [closing, empty]
      have whole := Reads.parens (p := p) entered opens shallow read stops closes
      have reach := (whole.sound spaced).2.2.1
      dsimp only at reach
      have least : body.range.stop ≤ (Tree.branch "parenthesized_expression"
          [anonymousLeaf "(" token.range, body, .missing ")" false body.range.stop]).range.stop :=
        Nat.le_max_right _ _
      refine ⟨_, _, whole, empty, last, by omega, ?_⟩
      have count : maxNesting - c.depth = maxNesting - (c.depth + 1) + 1 := by omega
      rw [count, Tree.branch, Rose.subtrees_node, stop]
      have closed := ends.close.append [Tree.branch "parenthesized_expression"
        [anonymousLeaf "(" token.range, body, .missing ")" false m.exhaust.lastEnd],
        anonymousLeaf "(" token.range]
      simpa [Tree.branch, anonymousLeaf, Tree.missing, Tree.leaf, Rose.subtrees_node] using closed
  | @behind p c c₁ m left op range rest first next strong _ ih =>
      obtain ⟨-, -, -, behindLeft⟩ := first.sound spaced
      obtain ⟨-, -, -, -, inner⟩ := behindLeft.consume next
      obtain ⟨right, c₂, read, empty, last, stop, ends⟩ := ih here deep inner
      have whole := Reads.binary first next strong read (Cursor.stops_of_nil empty _)
      have reach := (whole.sound spaced).2.2.1
      have least : right.range.stop ≤ (Arith.binary op left range right).range.stop := by
        rw [← range_withField "right" right]
        exact Nat.le_max_right _ _
      refine ⟨_, _, whole, empty, last, by omega, ?_⟩
      have depth : (c₁.consume ⟨.operator op, range⟩ rest).depth = c.depth := first.depth
      rw [depth] at ends
      have ended := (ends.withField "right").append
        (Arith.binary op left range right :: (left.withField "left").subtrees ++
          [anonymousLeaf op.symbol range])
      rw [Arith.binary, Tree.branch, Rose.subtrees_node]
      simpa [Arith.binary, Tree.branch, anonymousLeaf, Tree.leaf, Rose.subtrees_node] using ended

theorem MeetsOthers.exists_readsOthers {c : Cursor} (h : MeetsOthers c m)
    (here : m.rest = opening :: behind) (kind : opening.kind = .openParen)
    (deep : m.depth = maxNesting) (spaced : Spaced text c.lastEnd c.rest)
    (outside : c.depth = 0) :
    ∃ ts c', ReadsOthers c ts c' ∧
      EndsIn (deepLabel opening behind) maxNesting m.exhaust.lastEnd
        (ts.flatMap Rose.subtrees) := by
  induction h with
  | close next _ ih =>
      obtain ⟨-, -, -, -, inner⟩ := spaced.consume next
      obtain ⟨ts, c', others, ends⟩ := ih here deep inner outside
      exact ⟨_, _, .close next others, by simpa using ends.append _⟩
  | @expression c m token rest next notClosing meets =>
      obtain ⟨t, c₁, read, empty, -, -, ends⟩ := meets.exists_reads here kind deep spaced
      have stops := Cursor.stops_of_nil empty 1
      have less := read.consumes stops next notClosing
      rw [outside] at ends
      exact ⟨_, _, .expression less read stops (.done empty), by simpa using ends⟩
  | @behind c c₁ m t token rest next notClosing read stops _ ih =>
      obtain ⟨-, -, -, inner⟩ := read.sound spaced
      obtain ⟨ts, c', others, ends⟩ := ih here deep inner (read.depth.trans outside)
      have less := read.consumes stops next notClosing
      exact ⟨_, _, .expression less read stops others, by simpa using ends.append _⟩

theorem MeetsOperand.endsIn_parse (h : MeetsOperand (Token.tokenize text) m)
    (here : m.rest = opening :: behind) (kind : opening.kind = .openParen)
    (deep : m.depth = maxNesting) :
    EndsIn (deepLabel opening behind) maxNesting m.exhaust.lastEnd (parse text).subtrees := by
  have spaced := spaced_tokenize text
  rcases h with meets | ⟨first, c, read, stops, meets⟩
  · obtain ⟨t, c', read, empty, -, -, ends⟩ := meets.exists_reads here kind deep spaced
    have whole := parseTokens_eq read (Cursor.stops_of_nil empty 1) (.done empty) text.width
    rw [parse, whole, Rose.subtrees_node]
    simpa using ends.append [_]
  · obtain ⟨-, -, -, inner⟩ := read.sound spaced
    obtain ⟨ts, c', others, ends⟩ :=
      meets.exists_readsOthers here kind deep inner read.depth
    have whole := parseTokens_eq read stops others text.width
    have some : ts.isEmpty = false := by
      rw [List.isEmpty_eq_false_iff]
      rintro rfl
      exact ends.ne_nil rfl
    rw [parse, whole, some, Rose.subtrees_node]
    simpa [errorBranch, Rose.subtrees_node] using
      ends.append (_ :: first.subtrees ++ [errorBranch ts])

end TooDeep

theorem EndsIn.exists_ids {a : Arena} {label : Label} {n stop : Nat}
    (h : EndsIn label n stop (a.unfold 0).subtrees) :
    ∃ before leaf after, a.descendants 0 = before ++ leaf :: after ∧ a.children leaf = [] ∧
      (a.label leaf).bare = label ∧ after.length = n ∧
      ∀ id ∈ after, a.children id = [] ∧
        a.label id = { kind := ")", named := false, missing := true, range := ⟨stop, stop⟩ } := by
  obtain ⟨first, last, nodes, same⟩ := h
  rw [Arena.subtrees_unfold] at nodes
  obtain ⟨before, others, ids, -, rest⟩ := List.map_eq_append_iff.1 nodes
  obtain ⟨leaf, after, rfl, ofLeaf, ofAfter⟩ := List.map_eq_cons_iff.1 rest
  obtain ⟨leafLabel, leafChildren⟩ := children_of_unfold ofLeaf
  refine ⟨before, leaf, after, ids, by simpa using leafChildren, by rw [leafLabel, same], ?_, ?_⟩
  · simpa using congrArg List.length ofAfter
  · intro id mem
    have unfolds : a.unfold id = .missing ")" false stop := by
      apply List.eq_of_mem_replicate (n := n)
      rw [← ofAfter]
      exact List.mem_map_of_mem mem
    obtain ⟨own, children⟩ := children_of_unfold unfolds
    exact ⟨by simpa using children, own⟩

theorem exists_meets_of_openings {p : Nat} {c : Cursor} {openings rest : List Token}
    (here : c.rest = openings ++ rest) (opens : ∀ token ∈ openings, token.kind = .openParen)
    (room : c.depth + openings.length ≤ maxNesting) :
    ∃ m, Meets p c m ∧ m.rest = rest ∧ m.depth = c.depth + openings.length := by
  induction openings generalizing p c with
  | nil => exact ⟨c, .here, here, rfl⟩
  | cons token openings ih =>
      rw [List.length_cons] at room
      obtain ⟨m, meets, next, depth⟩ :=
        @ih 1 { c.consume token (openings ++ rest) with depth := c.depth + 1 } rfl
          (fun other mem => opens other (List.mem_cons_of_mem token mem)) (by dsimp only; omega)
      refine ⟨m, .inside here (opens token List.mem_cons_self) (by omega) meets, next, ?_⟩
      rw [depth, List.length_cons]
      dsimp only
      omega

/-- No way down passes more parentheses than may be open at once.  Where the parser
meets one more, it and all tokens behind it are one error leaf, and behind that leaf
there is a missing end for each parenthesis that was open, and nothing else. -/
theorem nesting_arena (text : Text) :
    (∀ path : List Nat, path.head? = some 0 →
      path.IsChain (fun id child => child ∈ (arena text).children id) →
      path.countP (fun id => ((arena text).label id).kind = "parenthesized_expression") ≤
        maxNesting) ∧
    ∀ (m : Cursor) (opening : Token) (behind : List Token),
      MeetsOperand (Token.tokenize text) m → m.rest = opening :: behind →
      opening.kind = .openParen → m.depth = maxNesting →
      ∃ final before leaf after, (Token.tokenize text).getLast? = some final ∧
        (arena text).descendants 0 = before ++ leaf :: after ∧
        ((arena text).label leaf).kind = "ERROR" ∧ ((arena text).label leaf).error = true ∧
        (arena text).children leaf = [] ∧
        (arena text).range leaf = ⟨opening.range.start, final.range.stop⟩ ∧
        after.length = maxNesting ∧
        ∀ id ∈ after, (arena text).children id = [] ∧
          (arena text).label id =
            { kind := ")", named := false, missing := true
              range := ⟨final.range.stop, final.range.stop⟩ } := by
  refine ⟨fun path => countP_path_arena, ?_⟩
  intro m opening behind meets here kind deep
  have ends := meets.endsIn_parse here kind deep
  rw [← unfold_arena] at ends
  obtain ⟨before, leaf, after, ids, alone, label, count, missing⟩ := ends.exists_ids
  obtain ⟨error, isError, final, isLast, range⟩ := exists_final label
  have stop : m.exhaust.lastEnd = final.range.stop := by
    have same : (deepLabel opening behind).range = ⟨opening.range.start, final.range.stop⟩ := by
      rw [← label, Arena.range_bare, Arena.range, range]
    rw [Cursor.lastEnd_exhaust here]
    exact congrArg ByteRange.stop same
  rw [stop] at missing
  refine ⟨final, before, leaf, after, ?_, ids, error, isError, alone, range, count, missing⟩
  obtain ⟨consumed, whole⟩ := meets.suffix
  rw [← whole, here, List.getLast?_append, isLast, Option.some_or]

theorem nesting_arena_product :
    let text : Text := 'x' :: '*' :: (List.replicate 257 '(' ++ ['1', ')'])
    (∃ m behind, MeetsOperand (Token.tokenize text) m ∧
      m.rest = ⟨.openParen, ⟨258, 259⟩⟩ :: behind ∧ m.depth = maxNesting) ∧
    ∃ before leaf after, (arena text).descendants 0 = before ++ leaf :: after ∧
      ((arena text).label leaf).kind = "ERROR" ∧ (arena text).range leaf = ⟨258, 261⟩ ∧
      after.length = 256 ∧ ∀ id ∈ after, (arena text).range id = ⟨261, 261⟩ := by
  intro text
  let openings : List Token := (List.range 256).map fun i => ⟨.openParen, ⟨i + 2, i + 3⟩⟩
  let rest : List Token :=
    [⟨.openParen, ⟨258, 259⟩⟩, ⟨.number, ⟨259, 260⟩⟩, ⟨.closeParen, ⟨260, 261⟩⟩]
  have tokens : Token.tokenize text =
      ⟨.variable, ⟨0, 1⟩⟩ :: ⟨.operator .multiply, ⟨1, 2⟩⟩ :: (openings ++ rest) := by
    decide +kernel
  obtain ⟨m, meets, next, depth⟩ := @exists_meets_of_openings 3
    { rest := openings ++ rest, lastEnd := 2 } openings rest rfl
    (fun token mem => by
      obtain ⟨i, -, rfl⟩ := List.mem_map.1 mem
      rfl)
    (by simp [openings, maxNesting])
  have operand : MeetsOperand (Token.tokenize text) m := by
    rw [tokens]
    exact Or.inl (.behind (.leaf rfl rfl) rfl (by decide) meets)
  have deep : m.depth = maxNesting := by
    rw [depth]
    simp [openings, maxNesting]
  obtain ⟨final, before, leaf, after, last, ids, error, -, -, range, count, missing⟩ :=
    (nesting_arena text).2 m _ _ operand next rfl deep
  obtain rfl : ⟨.closeParen, ⟨260, 261⟩⟩ = final := by
    rw [tokens, ← List.cons_append, ← List.cons_append, List.getLast?_append] at last
    exact Option.some.inj last
  refine ⟨⟨m, _, operand, next, deep⟩, before, leaf, after, ids, error, range, count, ?_⟩
  intro id mem
  rw [Arena.range, (missing id mem).2]

end Arith

end ParseTree
