import ParseTree.Arith.Expression

/-!
# What the expression parser reads

The runs of the parser as rules, without its budgets: `Reads p c t c'` says that
from the cursor `c` an expression `t` of operators of power at least `p` is read
up to `c'`.  Operators are added on the right of what has been read, so the
rules need no loop.  With as much budget as there are tokens the parser follows
these rules, and it stops only where no further operator can be added.
-/

namespace ParseTree.Arith

def Cursor.Stops (c : Cursor) (power : Nat) : Prop :=
  ∀ op range rest, c.rest = ⟨.operator op, range⟩ :: rest → op.power < power

theorem Cursor.Stops.rest_ne {c : Cursor} (h : c.Stops 1) (op : Operator) (range : ByteRange)
    (rest : List Token) : c.rest ≠ ⟨.operator op, range⟩ :: rest := by
  intro here
  have weak := h op range rest here
  cases op <;> simp [Operator.power] at weak

theorem Cursor.stops_of_nil {c : Cursor} (empty : c.rest = []) (power : Nat) : c.Stops power := by
  intro op range rest here
  rw [empty] at here
  cases here

theorem Cursor.lastEnd_exhaust {c : Cursor} {token : Token} {rest : List Token}
    (here : c.rest = token :: rest) :
    c.exhaust.lastEnd = (rest.map (·.range.stop)).getLastD token.range.stop := by
  rw [Cursor.exhaust, here, List.map_cons, List.getLastD_cons]

def leaf? (token : Token) : Option Tree :=
  match token.kind with
  | .number => some (.leaf { kind := "number", range := token.range })
  | .variable => some (.leaf { kind := "variable", range := token.range })
  | .unknown => some (errorLeaf token.range)
  | .operator _ | .openParen | .closeParen => none

def Cursor.LacksOperand (c : Cursor) : Prop :=
  ∀ token rest, c.rest = token :: rest → leaf? token = none ∧ token.kind ≠ .openParen

theorem operator_or_closeParen {token : Token} (noLeaf : leaf? token = none)
    (noParen : token.kind ≠ .openParen) :
    (∃ op, token.kind = .operator op) ∨ token.kind = .closeParen := by
  unfold leaf? at noLeaf
  split at noLeaf <;> simp_all

inductive Reads : Nat → Cursor → Tree → Cursor → Prop
  | absent {p : Nat} {c : Cursor} : c.LacksOperand → Reads p c c.missingNumber c
  | leaf {p : Nat} {c : Cursor} {token : Token} {rest : List Token} {t : Tree} :
      c.rest = token :: rest → leaf? token = some t → Reads p c t (c.consume token rest)
  | tooDeep {p : Nat} {c : Cursor} {token : Token} {rest : List Token} :
      c.rest = token :: rest → token.kind = .openParen → maxNesting ≤ c.depth →
      Reads p c (errorLeaf ⟨token.range.start, c.exhaust.lastEnd⟩) c.exhaust
  | parens {p : Nat} {c c₁ c₂ : Cursor} {token : Token} {rest : List Token}
      {body close : Tree} :
      c.rest = token :: rest → token.kind = .openParen → c.depth < maxNesting →
      Reads 1 { c.consume token rest with depth := c.depth + 1 } body c₁ → c₁.Stops 1 →
      closing body.range.stop { c₁ with depth := c₁.depth - 1 } = (close, c₂) →
      Reads p c
        (.branch "parenthesized_expression" [anonymousLeaf "(" token.range, body, close]) c₂
  | binary {p : Nat} {c c₁ c₂ : Cursor} {left right : Tree} {op : Operator}
      {range : ByteRange} {rest : List Token} :
      Reads p c left c₁ → c₁.rest = ⟨.operator op, range⟩ :: rest → p ≤ op.power →
      Reads (op.power + 1) (c₁.consume ⟨.operator op, range⟩ rest) right c₂ →
      c₂.Stops (op.power + 1) →
      Reads p c (Arith.binary op left range right) c₂

theorem Reads.enclosed {p : Nat} {c c₁ : Cursor} {opening close : ByteRange}
    {inside rest : List Token} {body : Tree}
    (here : c.rest = ⟨.openParen, opening⟩ :: inside) (shallow : c.depth < maxNesting)
    (read : Reads 1 { c.consume ⟨.openParen, opening⟩ inside with depth := c.depth + 1 } body c₁)
    (behind : c₁.rest = ⟨.closeParen, close⟩ :: rest) :
    ∃ c₂, c₂.rest = rest ∧
      Reads p c (.branch "parenthesized_expression"
        [anonymousLeaf "(" opening, body, anonymousLeaf ")" close]) c₂ := by
  have stops : c₁.Stops 1 := by
    intro op range more same
    rw [behind] at same
    cases same
  have closed : closing body.range.stop { c₁ with depth := c₁.depth - 1 } =
      (anonymousLeaf ")" close,
        { c₁ with depth := c₁.depth - 1 }.consume ⟨.closeParen, close⟩ rest) := by
    simp [closing, behind]
  exact ⟨_, rfl, .parens here rfl shallow read stops closed⟩

theorem closing_cases {innerEnd : Nat} {c c' : Cursor} {close : Tree}
    (h : closing innerEnd c = (close, c')) :
    (∃ range rest, c.rest = ⟨.closeParen, range⟩ :: rest ∧
      close = anonymousLeaf ")" range ∧ c' = c.consume ⟨.closeParen, range⟩ rest) ∨
    ((∀ token rest, c.rest = token :: rest → token.kind ≠ .closeParen) ∧
      close = .missing ")" false innerEnd ∧ c' = c) := by
  unfold closing at h
  split at h
  · rename_i range rest here
    obtain ⟨rfl, rfl⟩ := Prod.mk.inj h
    exact Or.inl ⟨range, rest, here, rfl, rfl⟩
  · rename_i other
    obtain ⟨rfl, rfl⟩ := Prod.mk.inj h
    refine Or.inr ⟨?_, rfl, rfl⟩
    intro token rest here kind
    obtain ⟨_, range⟩ := token
    subst kind
    exact other range rest here

theorem Reads.suffix {p : Nat} {c c' : Cursor} {t : Tree} (h : Reads p c t c') :
    c'.rest <:+ c.rest := by
  induction h with
  | absent => exact List.suffix_rfl
  | leaf here => exact here ▸ List.suffix_cons _ _
  | tooDeep => exact List.nil_suffix
  | @parens _ c c₁ c₂ token rest _ _ here _ _ _ _ close ih =>
      have inner : c₂.rest <:+ c₁.rest := by
        rcases closing_cases close with ⟨range, rest', at_close, -, rfl⟩ | ⟨-, -, rfl⟩
        · exact at_close ▸ List.suffix_cons _ _
        · exact List.suffix_rfl
      rw [here]
      exact inner.trans (ih.trans (List.suffix_cons _ _))
  | binary _ here _ _ _ left right =>
      exact right.trans ((here ▸ List.suffix_cons _ _ : _).trans left)

theorem Reads.progress {p : Nat} {c c' : Cursor} {t : Tree} (h : Reads p c t c') :
    c'.rest.length < c.rest.length ∨ (c' = c ∧ c.LacksOperand) := by
  cases h with
  | absent lacks => exact Or.inr ⟨rfl, lacks⟩
  | leaf here => simp [here, Cursor.consume]
  | tooDeep here => simp [here, Cursor.exhaust]
  | @parens _ _ c₁ _ _ _ _ _ here _ _ body _ close =>
      have inner := body.suffix.length_le
      rcases closing_cases close with ⟨range, rest', at_close, -, rfl⟩ | ⟨-, -, rfl⟩
      · have closes : c₁.rest = ⟨.closeParen, range⟩ :: rest' := at_close
        simp only [closes, here, Cursor.consume, List.length_cons] at inner ⊢
        omega
      · simp only [here, Cursor.consume, List.length_cons] at inner ⊢
        omega
  | binary left here _ right _ =>
      have before := left.suffix.length_le
      have behind := right.suffix.length_le
      simp only [here, List.length_cons, Cursor.consume] at before behind
      omega

theorem Reads.depth {p : Nat} {c c' : Cursor} {t : Tree} (h : Reads p c t c') :
    c'.depth = c.depth := by
  induction h with
  | absent => rfl
  | leaf => rfl
  | tooDeep => rfl
  | parens _ _ _ _ _ close ih =>
      rcases closing_cases close with ⟨range, rest', -, -, rfl⟩ | ⟨-, -, rfl⟩ <;>
        simp [Cursor.consume, ih]
  | binary _ _ _ _ _ left right => rw [right, ← left]; rfl

theorem reads_operand {inner : Cursor → Tree × Cursor} {p : Nat} {c : Cursor}
    (reads : ∀ c' : Cursor, c'.rest.length < c.rest.length →
      Reads 1 c' (inner c').1 (inner c').2 ∧ (inner c').2.Stops 1) :
    Reads p c (operand inner c).1 (operand inner c).2 := by
  unfold operand
  split
  · rename_i empty
    exact .absent fun token rest here => by simp [empty] at here
  · rename_i token rest here
    split
    · rename_i kind
      exact .leaf here (by simp [leaf?, kind])
    · rename_i kind
      exact .leaf here (by simp [leaf?, kind])
    · rename_i kind
      split
      · rename_i deep
        exact .tooDeep here kind deep
      · rename_i shallow
        obtain ⟨body, stops⟩ := reads { c.consume token rest with depth := c.depth + 1 }
          (by simp [here, Cursor.consume])
        exact .parens here kind (by omega) body stops rfl
    · rename_i kind
      exact .leaf here (by simp [leaf?, kind])
    all_goals
      rename_i kind
      apply Reads.absent
      intro token' rest' here'
      obtain ⟨rfl, -⟩ := List.cons.inj (here.symm.trans here')
      simp [leaf?, kind]

theorem reads_climb {right : Nat → Cursor → Tree × Cursor} {p budget : Nat}
    {start c : Cursor} {left : Tree} (enough : c.rest.length ≤ budget)
    (reads : ∀ (p : Nat) (c' : Cursor), c'.rest.length < c.rest.length →
      Reads p c' (right p c').1 (right p c').2 ∧ (right p c').2.Stops p)
    (h : Reads p start left c) :
    Reads p start (climb right budget p left c).1 (climb right budget p left c).2 ∧
      (climb right budget p left c).2.Stops p := by
  induction budget generalizing left c with
  | zero =>
      refine ⟨h, ?_⟩
      intro op range rest here
      simp only [climb] at here
      simp [here] at enough
  | succ budget ih =>
      rw [climb]
      split
      · rename_i op range rest here
        split
        · rename_i weak
          refine ⟨h, ?_⟩
          intro op' range' rest' here'
          cases here.symm.trans here'
          exact weak
        · rename_i strong
          have shorter : (c.consume ⟨.operator op, range⟩ rest).rest.length < c.rest.length := by
            simp [here, Cursor.consume]
          obtain ⟨operand, stops⟩ := reads (op.power + 1) _ shorter
          have behind := operand.suffix.length_le
          exact ih (by omega) (fun p' c' less => reads p' c' (by omega))
            (.binary h here (by omega) operand stops)
      · rename_i other
        exact ⟨h, fun op range rest here => (other op range rest here).elim⟩

theorem reads_expression {budget p : Nat} {c : Cursor} (enough : c.rest.length ≤ budget) :
    Reads p c (expression budget p c).1 (expression budget p c).2 ∧
      (expression budget p c).2.Stops p := by
  induction budget generalizing p c with
  | zero =>
      have empty : c.rest = [] := by simpa using enough
      exact ⟨.absent fun token rest here => by simp [empty] at here,
        fun op range rest here => by simp [expression, empty] at here⟩
  | succ budget ih =>
      have first : Reads p c (operand (expression budget 1) c).1
          (operand (expression budget 1) c).2 :=
        reads_operand fun c' less => ih (by omega)
      have shorter := first.suffix.length_le
      have enough' : (operand (expression budget 1) c).2.rest.length ≤ budget + 1 := by omega
      have climbed := reads_climb enough'
        (fun p' c' less => ih (p := p') (c := c') (by omega)) first
      rw [expression]
      exact climbed

inductive ReadsOthers : Cursor → List Tree → Cursor → Prop
  | done {c : Cursor} : c.rest = [] → ReadsOthers c [] c
  | close {c c' : Cursor} {range : ByteRange} {rest : List Token} {ts : List Tree} :
      c.rest = ⟨.closeParen, range⟩ :: rest →
      ReadsOthers (c.consume ⟨.closeParen, range⟩ rest) ts c' →
      ReadsOthers c (anonymousLeaf ")" range :: ts) c'
  | expression {c c₁ c₂ : Cursor} {t : Tree} {ts : List Tree} :
      c₁.rest.length < c.rest.length → Reads 1 c t c₁ → c₁.Stops 1 →
      ReadsOthers c₁ ts c₂ → ReadsOthers c (t :: ts) c₂

theorem Reads.consumes {c c' : Cursor} {t : Tree} (h : Reads 1 c t c') (stops : c'.Stops 1)
    {token : Token} {rest : List Token} (here : c.rest = token :: rest)
    (open_ : token.kind ≠ .closeParen) : c'.rest.length < c.rest.length := by
  rcases h.progress with less | ⟨rfl, lacks⟩
  · exact less
  · obtain ⟨kind, range⟩ := token
    obtain ⟨noLeaf, noParen⟩ := lacks _ _ here
    rcases operator_or_closeParen noLeaf noParen with ⟨op, rfl⟩ | closes
    · exact absurd here (stops.rest_ne op range rest)
    · exact absurd closes open_

theorem readsOthers_leftovers {budget : Nat} {c : Cursor} (enough : c.rest.length ≤ budget) :
    ReadsOthers c (leftovers budget c).1 (leftovers budget c).2 := by
  induction budget generalizing c with
  | zero => exact .done (by simpa using enough)
  | succ budget ih =>
      rw [leftovers]
      split
      · rename_i empty
        exact .done empty
      · rename_i range rest here
        exact .close here (ih (by simp [here] at enough; simpa [Cursor.consume] using enough))
      · rename_i nonempty noClose
        obtain ⟨read, stops⟩ := reads_expression (p := 1) enough
        obtain ⟨⟨kind, range⟩, rest, here⟩ := List.exists_cons_of_ne_nil nonempty
        have less := read.consumes stops here fun same => by
          subst same
          exact noClose range rest here
        exact .expression less read stops (ih (by omega))

theorem reads_parseTokens (tokens : List Token) (length : Nat) :
    ∃ first c₁ others c₂, Reads 1 { rest := tokens } first c₁ ∧ c₁.Stops 1 ∧
      ReadsOthers c₁ others c₂ ∧
      parseTokens tokens length =
        .node { kind := "expression", range := ⟨0, length⟩ }
          (if others.isEmpty then [first] else [first, errorBranch others]) := by
  obtain ⟨read, stops⟩ :=
    reads_expression (p := 1) (c := { rest := tokens }) (Nat.le_refl tokens.length)
  have shorter := read.suffix.length_le
  exact ⟨_, _, _, _, read, stops, readsOthers_leftovers shorter, rfl⟩

/-! ## Following a reading

Conversely, the parser follows every reading: each is a stage of the climb from
its first operand, and one that stops where no operator can be added is the end
of that climb.
-/

theorem climb_of_stops {right : Nat → Cursor → Tree × Cursor} {budget p : Nat} {left : Tree}
    {c : Cursor} (stops : c.Stops p) : climb right budget p left c = (left, c) := by
  cases budget with
  | zero => rfl
  | succ budget =>
      rw [climb]
      split
      · rename_i op range rest here
        rw [if_pos (stops op range rest here)]
      · rfl

theorem climb_step {right : Nat → Cursor → Tree × Cursor} {budget p : Nat} {left t : Tree}
    {c c' : Cursor} {op : Operator} {range : ByteRange} {rest : List Token}
    (here : c.rest = ⟨.operator op, range⟩ :: rest) (strong : p ≤ op.power)
    (read : right (op.power + 1) (c.consume ⟨.operator op, range⟩ rest) = (t, c')) :
    climb right (budget + 1) p left c = climb right budget p (binary op left range t) c' := by
  rw [climb]
  split
  · rename_i op' range' rest' here'
    cases here.symm.trans here'
    rw [if_neg (by omega), read]
  · rename_i other
    exact absurd here (other op range rest)

theorem operand_of_lacksOperand {inner : Cursor → Tree × Cursor} {c : Cursor}
    (lacks : c.LacksOperand) : operand inner c = (c.missingNumber, c) := by
  unfold operand
  split
  · rfl
  · rename_i token rest here
    obtain ⟨noLeaf, noParen⟩ := lacks token rest here
    rcases operator_or_closeParen noLeaf noParen with ⟨op, kind⟩ | kind <;> simp [kind]

theorem operand_of_leaf {inner : Cursor → Tree × Cursor} {c : Cursor} {token : Token}
    {rest : List Token} {t : Tree} (here : c.rest = token :: rest) (isLeaf : leaf? token = some t) :
    operand inner c = (t, c.consume token rest) := by
  unfold leaf? at isLeaf
  split at isLeaf <;> rename_i kind <;> cases isLeaf <;> simp [operand, here, kind]

theorem operand_of_parens {inner : Cursor → Tree × Cursor} {c c₁ c₂ : Cursor} {token : Token}
    {rest : List Token} {body close : Tree} (here : c.rest = token :: rest)
    (kind : token.kind = .openParen) (shallow : c.depth < maxNesting)
    (read : inner { c.consume token rest with depth := c.depth + 1 } = (body, c₁))
    (closes : closing body.range.stop { c₁ with depth := c₁.depth - 1 } = (close, c₂)) :
    operand inner c =
      (.branch "parenthesized_expression" [anonymousLeaf "(" token.range, body, close], c₂) := by
  have entered : inner { c.consume token rest with depth := (c.consume token rest).depth + 1 } =
      (body, c₁) := read
  simp [operand, here, kind, Nat.not_le_of_lt shallow, parenthesized, entered, closes]

theorem Reads.exists_climb {p : Nat} {c c' : Cursor} {t : Tree} (h : Reads p c t c')
    {budget : Nat} (enough : c.rest.length ≤ budget) :
    ∃ more, c'.rest.length ≤ more ∧
      expression budget p c = climb (expression (budget - 1)) more p t c' := by
  have started : ∀ {p budget : Nat} {c c' : Cursor} {t : Tree},
      operand (expression budget 1) c = (t, c') →
      expression (budget + 1) p c = climb (expression budget) (budget + 1) p t c' := by
    intro p budget c c' t first
    rw [expression, first]
  induction h generalizing budget with
  | @absent _ c lacks =>
      cases budget with
      | zero => exact ⟨0, enough, rfl⟩
      | succ budget => exact ⟨budget + 1, enough, started (operand_of_lacksOperand lacks)⟩
  | @leaf _ c token rest _ here isLeaf =>
      rw [here, List.length_cons] at enough
      obtain ⟨budget, rfl⟩ : ∃ b, budget = b + 1 := ⟨budget - 1, by omega⟩
      refine ⟨budget + 1, ?_, started (operand_of_leaf here isLeaf)⟩
      dsimp only [Cursor.consume]
      omega
  | @tooDeep _ c token rest here kind deep =>
      rw [here, List.length_cons] at enough
      obtain ⟨budget, rfl⟩ : ∃ b, budget = b + 1 := ⟨budget - 1, by omega⟩
      exact ⟨budget + 1, Nat.zero_le _, started (by simp [operand, here, kind, deep])⟩
  | @parens _ c c₁ c₂ token rest body close here kind shallow inner stops closes ih =>
      have shorter := (Reads.parens (p := 1) here kind shallow inner stops closes).suffix.length_le
      have inside : rest.length + 1 ≤ budget := by rwa [here, List.length_cons] at enough
      obtain ⟨budget, rfl⟩ : ∃ b, budget = b + 1 := ⟨budget - 1, by omega⟩
      obtain ⟨more, -, read⟩ := @ih budget (Nat.le_of_succ_le_succ inside)
      rw [climb_of_stops stops] at read
      exact ⟨budget + 1, by omega, started (operand_of_parens here kind shallow read closes)⟩
  | @binary p c c₁ c₂ left _ op range rest readLeft here strong readRight stops ihLeft ihRight =>
      obtain ⟨more, remaining, climbed⟩ := ihLeft enough
      have shorter := readLeft.suffix.length_le
      have behind := readRight.suffix.length_le
      rw [here, List.length_cons] at shorter remaining
      obtain ⟨_, -, read⟩ := @ihRight (budget - 1) (by dsimp only [Cursor.consume]; omega)
      rw [climb_of_stops stops] at read
      obtain ⟨more, rfl⟩ : ∃ m, more = m + 1 := ⟨more - 1, by omega⟩
      refine ⟨more, ?_, climbed.trans (climb_step here strong read)⟩
      dsimp only [Cursor.consume] at behind
      omega

theorem Reads.expression_eq {p : Nat} {c c' : Cursor} {t : Tree} (h : Reads p c t c')
    (stops : c'.Stops p) {budget : Nat} (enough : c.rest.length ≤ budget) :
    expression budget p c = (t, c') := by
  obtain ⟨more, -, climbed⟩ := h.exists_climb enough
  rw [climbed, climb_of_stops stops]

theorem Reads.of_closeParen {p : Nat} {c c' : Cursor} {t : Tree} (h : Reads p c t c')
    {token : Token} {rest : List Token} (here : c.rest = token :: rest)
    (closes : token.kind = .closeParen) : c' = c := by
  induction h with
  | absent => rfl
  | leaf here' isLeaf =>
      obtain ⟨rfl, -⟩ := List.cons.inj (here.symm.trans here')
      simp [leaf?, closes] at isLeaf
  | tooDeep here' kind =>
      obtain ⟨rfl, -⟩ := List.cons.inj (here.symm.trans here')
      simp [closes] at kind
  | parens here' kind =>
      obtain ⟨rfl, -⟩ := List.cons.inj (here.symm.trans here')
      simp [closes] at kind
  | binary _ here' _ _ _ left _ =>
      obtain rfl := left here
      obtain ⟨rfl, -⟩ := List.cons.inj (here.symm.trans here')
      simp at closes

theorem ReadsOthers.leftovers_eq {c c' : Cursor} {ts : List Tree} (h : ReadsOthers c ts c')
    {budget : Nat} (enough : c.rest.length ≤ budget) : leftovers budget c = (ts, c') := by
  induction h generalizing budget with
  | done empty => cases budget <;> simp [leftovers, empty]
  | close here _ ih =>
      rw [here, List.length_cons] at enough
      obtain ⟨budget, rfl⟩ : ∃ b, budget = b + 1 := ⟨budget - 1, by omega⟩
      have behind := @ih budget (Nat.le_of_succ_le_succ enough)
      rw [leftovers, here]
      dsimp only
      rw [behind]
  | @expression c c₁ c₂ t ts less read stops _ ih =>
      obtain ⟨budget, rfl⟩ : ∃ b, budget = b + 1 := ⟨budget - 1, by omega⟩
      have first := read.expression_eq stops enough
      have behind := @ih budget (by omega)
      rw [leftovers]
      split
      · rename_i empty
        simp [empty] at less
      · rename_i here
        rw [read.of_closeParen here rfl] at less
        exact absurd less (Nat.lt_irrefl _)
      · rw [first]
        dsimp only
        rw [behind]

theorem parseTokens_eq {tokens : List Token} {first : Tree} {others : List Tree}
    {c₁ c₂ : Cursor} (read : Reads 1 { rest := tokens } first c₁) (stops : c₁.Stops 1)
    (leftover : ReadsOthers c₁ others c₂) (length : Nat) :
    parseTokens tokens length =
      .node { kind := "expression", range := ⟨0, length⟩ }
        (if others.isEmpty then [first] else [first, errorBranch others]) := by
  have shorter := read.suffix.length_le
  rw [parseTokens, read.expression_eq stops (Nat.le_refl _)]
  dsimp only
  rw [leftover.leftovers_eq shorter]

end ParseTree.Arith
