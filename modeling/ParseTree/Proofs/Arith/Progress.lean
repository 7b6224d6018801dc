import ParseTree.Proofs.Arith.Reading

/-!
# The parser comes to an end

Where an operand is missing nothing is consumed, and the operator behind the gap is consumed
by a reading further out.  So progress is a fact about whole readings: a reading that has
stopped left no operator that it might have taken, and before anything but a closing
parenthesis it has consumed a token.  The loop over what is left behind an expression
therefore consumes a token in each turn and ends with the tokens.
-/

namespace ParseTree.Arith

/-- From each cursor there is exactly one reading that goes on until it stops, and the parser
finds it with any budget for the tokens ahead. -/
theorem reads_stops_iff {p : Nat} {c c' : Cursor} {t : Tree} :
    Reads p c t c' ∧ c'.Stops p ↔ expression c.rest.length p c = (t, c') := by
  constructor
  · rintro ⟨read, stops⟩
    exact read.expression_eq stops (Nat.le_refl _)
  · intro found
    have followed := @reads_expression c.rest.length p c (Nat.le_refl _)
    rwa [found] at followed

theorem expression_eq_of_le {budget p : Nat} {c : Cursor} (enough : c.rest.length ≤ budget) :
    expression budget p c = expression c.rest.length p c := by
  obtain ⟨read, stops⟩ := @reads_expression c.rest.length p c (Nat.le_refl _)
  exact read.expression_eq stops enough

theorem Reads.length_lt_iff {c c' : Cursor} {t : Tree} (h : Reads 1 c t c') (stops : c'.Stops 1) :
    c'.rest.length < c.rest.length ↔
      ∃ token rest, c.rest = token :: rest ∧ token.kind ≠ .closeParen := by
  constructor
  · intro less
    cases here : c.rest with
    | nil =>
        rw [here] at less
        exact absurd less (Nat.not_lt_zero _)
    | cons token rest =>
        refine ⟨token, rest, rfl, ?_⟩
        intro closes
        rw [h.of_closeParen here closes] at less
        exact Nat.lt_irrefl _ less
  · rintro ⟨token, rest, here, opens⟩
    exact h.consumes stops here opens

/-! ## What is left over -/

def leftover? (c : Cursor) : Option (Tree × Cursor) :=
  match c.rest with
  | [] => none
  | ⟨.closeParen, range⟩ :: rest =>
      some (anonymousLeaf ")" range, c.consume ⟨.closeParen, range⟩ rest)
  | _ => some (expression c.rest.length 1 c)

inductive Gathers : Cursor → Nat → List Tree → Cursor → Prop
  | done {c : Cursor} : leftover? c = none → Gathers c 0 [] c
  | turn {c c₁ c₂ : Cursor} {t : Tree} {ts : List Tree} {count : Nat} :
      leftover? c = some (t, c₁) → Gathers c₁ count ts c₂ → Gathers c (count + 1) (t :: ts) c₂

theorem leftover?_eq_none_iff {c : Cursor} : leftover? c = none ↔ c.rest = [] := by
  unfold leftover?
  split <;> simp_all

theorem leftover?_consumes {c c' : Cursor} {t : Tree} (h : leftover? c = some (t, c')) :
    c'.rest.length < c.rest.length ∧ c'.rest <:+ c.rest ∧ c'.depth = c.depth := by
  unfold leftover? at h
  split at h
  · cases h
  · rename_i range rest here
    cases h
    rw [here]
    exact ⟨Nat.lt_succ_self _, List.suffix_cons _ _, rfl⟩
  · rename_i nonempty noClose
    obtain ⟨read, stops⟩ := reads_stops_iff.2 (Option.some.inj h)
    obtain ⟨⟨kind, range⟩, rest, here⟩ := List.exists_cons_of_ne_nil nonempty
    have opens : kind ≠ .closeParen := by
      rintro rfl
      exact noClose range rest here
    exact ⟨(read.length_lt_iff stops).2 ⟨_, rest, here, opens⟩, read.suffix, read.depth⟩

theorem leftovers_turn {c c' : Cursor} {t : Tree} (h : leftover? c = some (t, c')) {budget : Nat}
    (enough : c.rest.length ≤ budget + 1) :
    leftovers (budget + 1) c =
      (t :: (leftovers budget c').1, (leftovers budget c').2) := by
  unfold leftover? at h
  split at h
  · cases h
  · rename_i here
    cases h
    rw [leftovers, here]
  · rename_i nonempty noClose
    rw [leftovers, expression_eq_of_le enough, Option.some.inj h]
    split
    · rename_i empty
      exact absurd empty nonempty
    · rename_i range rest here
      exact absurd here (noClose range rest)
    · rfl

theorem exists_gathers {budget : Nat} {c : Cursor} (enough : c.rest.length ≤ budget) :
    ∃ count ts c', count ≤ c.rest.length ∧ Gathers c count ts c' ∧
      leftovers budget c = (ts, c') ∧ c'.rest = [] ∧ c'.depth = c.depth := by
  induction budget generalizing c with
  | zero =>
      have empty : c.rest = [] := by simpa using enough
      exact ⟨0, [], c, Nat.zero_le _, .done (leftover?_eq_none_iff.2 empty), rfl, empty, rfl⟩
  | succ budget ih =>
      cases turn : leftover? c with
      | none =>
          have empty := leftover?_eq_none_iff.1 turn
          exact ⟨0, [], c, Nat.zero_le _, .done turn, by simp [leftovers, empty], empty, rfl⟩
      | some found =>
          obtain ⟨t, c₁⟩ := found
          obtain ⟨less, -, level⟩ := leftover?_consumes turn
          obtain ⟨count, ts, c', within, gathers, behind, ends, level'⟩ := @ih c₁ (by omega)
          refine ⟨count + 1, t :: ts, c', by omega, .turn turn gathers, ?_, ends,
            level'.trans level⟩
          rw [leftovers_turn turn enough, behind]

/-- Every reading ends: from any cursor there is one that stops, no other, and it leaves no
operator that it might have taken; one of all operators consumes a token unless a closing
parenthesis or nothing comes next.  So each turn of the loop over what is left consumes a token,
and the parser ends with all tokens consumed and all parentheses left. -/
theorem parser_finishes :
    (∀ (c : Cursor) (p : Nat), ∃ t c',
      (∀ u d, Reads p c u d ∧ d.Stops p ↔ (u, d) = (t, c')) ∧
      (∀ budget, c.rest.length ≤ budget → expression budget p c = (t, c')) ∧
      c'.Stops p ∧ c'.rest <:+ c.rest ∧ c'.depth = c.depth) ∧
    (∀ (c : Cursor) (budget : Nat), c.rest.length ≤ budget →
      ((expression budget 1 c).2.rest.length < c.rest.length ↔
        ∃ token rest, c.rest = token :: rest ∧ token.kind ≠ .closeParen)) ∧
    (∀ (c c' : Cursor) (t : Tree), leftover? c = some (t, c') →
      c'.rest.length < c.rest.length ∧ c'.rest <:+ c.rest) ∧
    ∀ (tokens : List Token) (length : Nat), ∃ first c₁ count others c₂,
      expression tokens.length 1 { rest := tokens } = (first, c₁) ∧
      count ≤ tokens.length ∧ Gathers c₁ count others c₂ ∧
      c₂.rest = [] ∧ c₂.depth = 0 ∧
      parseTokens tokens length =
        .node { kind := "expression", range := ⟨0, length⟩ }
          (if others.isEmpty then [first] else [first, errorBranch others]) := by
  refine ⟨?_, ?_, ?_, ?_⟩
  · intro c p
    obtain ⟨⟨t, c'⟩, found⟩ : ∃ run, expression c.rest.length p c = run := ⟨_, rfl⟩
    obtain ⟨read, stops⟩ := reads_stops_iff.2 found
    refine ⟨t, c', ?_, ?_, stops, read.suffix, read.depth⟩
    · intro u d
      rw [reads_stops_iff, found, eq_comm]
    · intro budget enough
      exact read.expression_eq stops enough
  · intro c budget enough
    obtain ⟨read, stops⟩ := @reads_expression budget 1 c enough
    exact read.length_lt_iff stops
  · intro c c' t turn
    obtain ⟨less, suffix, -⟩ := leftover?_consumes turn
    exact ⟨less, suffix⟩
  · intro tokens length
    obtain ⟨⟨first, c₁⟩, found⟩ : ∃ run, expression tokens.length 1 { rest := tokens } = run :=
      ⟨_, rfl⟩
    obtain ⟨read, -⟩ := (reads_stops_iff (c := { rest := tokens })).2 found
    have shorter : c₁.rest.length ≤ tokens.length := read.suffix.length_le
    obtain ⟨count, others, c₂, within, gathers, behind, ends, level⟩ := exists_gathers shorter
    refine ⟨first, c₁, count, others, c₂, found, Nat.le_trans within shorter, gathers, ends,
      level.trans read.depth, ?_⟩
    rw [parseTokens, found]
    dsimp only
    rw [behind]

end ParseTree.Arith
