import ParseTree.Proofs.Query.Recognition

/-!
# Which queries are accepted

A source compiles exactly if its tokens are a query of the language and the names
it mentions pass the checks.
-/

namespace ParseTree.Query

namespace Read

theorem exists_mapM_iff {f : α → Except ε β} {xs : List α} :
    (∃ ys, xs.mapM f = .ok ys) ↔ ∀ x ∈ xs, ∃ y, f x = .ok y := by
  induction xs with
  | nil => simp [pure, Except.pure]
  | cons x xs ih =>
      rw [List.mapM_cons, List.forall_mem_cons, ← ih]
      constructor
      · rintro ⟨ys, h⟩
        obtain ⟨y, first, h⟩ := bind_eq_ok_iff.1 h
        obtain ⟨others, behind, -⟩ := bind_eq_ok_iff.1 h
        exact ⟨⟨y, first⟩, others, behind⟩
      · rintro ⟨⟨y, first⟩, others, behind⟩
        exact ⟨y :: others, bind_eq_ok_iff.2 ⟨y, first, bind_eq_ok_iff.2 ⟨others, behind, rfl⟩⟩⟩

theorem exists_resolve_iff {names : List String} {ref : CaptureRef} :
    (∃ slot, resolve names ref = .ok slot) ↔ ref.name ∈ names := by
  unfold resolve
  cases found : names.idxOf? ref.name with
  | none => simpa using List.idxOf?_eq_none_iff.1 found
  | some slot =>
      have mem : ref.name ∈ names := by
        refine Decidable.byContradiction fun other => ?_
        simp [List.idxOf?_eq_none_iff.2 other] at found
      simp [mem]

theorem Condition.exists_resolve_iff {names : List String} {c : Condition} :
    (∃ p, c.resolve names = .ok p) ↔ ∀ name ∈ c.names, name ∈ names := by
  obtain ⟨negated, capture, operand⟩ := c
  rw [Condition.names, List.forall_mem_cons, ← Read.exists_resolve_iff]
  cases operand with
  | text t =>
      constructor
      · rintro ⟨p, h⟩
        obtain ⟨_, -, h⟩ := bind_eq_ok_iff.1 h
        obtain ⟨slot, found, -⟩ := bind_eq_ok_iff.1 h
        exact ⟨⟨slot, found⟩, by simp [Argument.names]⟩
      · rintro ⟨⟨slot, found⟩, -⟩
        exact ⟨⟨negated, slot, .text t⟩,
          bind_eq_ok_iff.2 ⟨_, rfl, bind_eq_ok_iff.2 ⟨_, found, rfl⟩⟩⟩
  | capture ref =>
      simp only [Argument.names, List.forall_mem_singleton, ← Read.exists_resolve_iff]
      constructor
      · rintro ⟨p, h⟩
        obtain ⟨_, first, h⟩ := bind_eq_ok_iff.1 h
        obtain ⟨slot, found, -⟩ := bind_eq_ok_iff.1 h
        refine ⟨⟨slot, found⟩, ?_⟩
        cases other : Read.resolve names ref with
        | ok slot' => exact ⟨slot', rfl⟩
        | error e => simp [other, Functor.map, Except.map] at first
      · rintro ⟨⟨slot, found⟩, other, found'⟩
        refine ⟨⟨negated, slot, .capture other⟩, bind_eq_ok_iff.2 ⟨.capture other, ?_,
          bind_eq_ok_iff.2 ⟨_, found, rfl⟩⟩⟩
        simp [found', Functor.map, Except.map]

theorem State.exists_predicates_iff {s : State} :
    (∃ ps, s.conditions.mapM (Condition.resolve s.names) = .ok ps) ↔
      ∀ name ∈ s.compared, name ∈ s.names := by
  simp only [exists_mapM_iff, Condition.exists_resolve_iff, State.compared, List.mem_flatMap]
  constructor
  · rintro h name ⟨c, mem, used⟩
    exact h c mem name used
  · rintro h c mem name used
    exact h name ⟨c, mem, used⟩

theorem Consumes.checks_iff {ctx : Context} {tokens ts : List Token} {ms : List Mention}
    {s : State} (h : Consumes ctx { rest := tokens } ts ms s) :
    (∃ ps, s.conditions.mapM (Condition.resolve s.names) = .ok ps) ↔
      Checks ctx.vocabulary ms := by
  have names : s.names = declared ms := h.names
  have compared : s.compared = Query.compared ms := h.compared
  have distinct := h.distinct List.nodup_nil
  rw [State.exists_predicates_iff, names, compared]
  rw [names] at distinct
  exact ⟨fun resolved => ⟨h.known, distinct, resolved⟩, Checks.resolved⟩

theorem isPattern_of_pattern {ctx : Context} (unnamed : ctx.vocabulary.hasField "" = false)
    {tokens rest : List Token} {p : Pattern} (h : pattern ctx tokens = .ok (p, rest)) :
    ∃ piece, tokens = piece ++ rest ∧ IsPattern ctx.vocabulary piece := by
  obtain ⟨s, read, rfl, -, noField, required, resolved, -⟩ := readsElement_of_pattern h
  obtain ⟨piece, ms, consumed, -, marked⟩ := read.isElement unnamed
  have marked := marked noField
  rw [required] at marked
  exact ⟨piece, consumed.rest, ms, marked, consumed.checks_iff.1 ⟨_, resolved⟩⟩

theorem exists_pattern_of_isPattern {ctx : Context} {piece rest : List Token}
    (h : IsPattern ctx.vocabulary piece) (ends : Ends rest) :
    ∃ p, pattern ctx (piece ++ rest) = .ok (p, rest) := by
  obtain ⟨ms, marked, checks⟩ := h
  have ahead : Ahead ctx { rest := piece ++ rest } piece ms rest :=
    ⟨rfl, checks.known, checks.distinct⟩
  have lead : fieldLead ctx { rest := piece ++ rest } = .ok (none, { rest := piece ++ rest }) :=
    fieldLead_eq_ok_iff.2 (.inr ⟨marked.not_leadsField ends, rfl, rfl⟩)
  have enough : piece.length ≤ (piece ++ rest).length + 1 := by
    rw [List.length_append]
    omega
  obtain ⟨root, s, read, consumed, required, noField⟩ :=
    marked.exists_element lead enough ends ahead
  obtain ⟨ps, resolved⟩ := consumed.checks_iff.2 checks
  have behind : s.rest = rest := (List.append_cancel_left consumed.rest).symm
  refine ⟨⟨root, s.names, ps, ctx.offset { rest := piece ++ rest }⟩, ?_⟩
  rw [pattern]
  refine bind_eq_ok_iff.2 ⟨(root, s), read, check_eq_ok_iff.2 ⟨by simp [noField], ?_⟩⟩
  refine check_eq_ok_iff.2 ⟨by simp [required], bind_eq_ok_iff.2 ⟨ps, resolved, ?_⟩⟩
  rw [behind]

theorem patterns_eq_ok_iff {ctx : Context} {budget : Nat} {tokens : List Token}
    {found : List Pattern} (nonempty : tokens ≠ []) :
    patterns ctx (budget + 1) tokens = .ok found ↔
      ∃ p rest others, pattern ctx tokens = .ok (p, rest) ∧
        patterns ctx budget rest = .ok others ∧ found = p :: others := by
  rw [patterns]
  · constructor
    · intro h
      obtain ⟨⟨p, rest⟩, first, h⟩ := bind_eq_ok_iff.1 h
      obtain ⟨others, behind, h⟩ := bind_eq_ok_iff.1 h
      cases h
      exact ⟨p, rest, others, first, behind, rfl⟩
    · rintro ⟨p, rest, others, first, behind, rfl⟩
      exact bind_eq_ok_iff.2 ⟨(p, rest), first, bind_eq_ok_iff.2 ⟨others, behind, rfl⟩⟩
  · exact nonempty

inductive ReadsPatterns (ctx : Context) : List Token → List Pattern → Prop
  | nil : ReadsPatterns ctx [] []
  | cons {tokens rest : List Token} {p : Pattern} {others : List Pattern} :
      pattern ctx tokens = .ok (p, rest) → ReadsPatterns ctx rest others →
      ReadsPatterns ctx tokens (p :: others)

theorem pattern_progress {ctx : Context} (unnamed : ctx.vocabulary.hasField "" = false)
    {tokens rest : List Token} {p : Pattern} (h : pattern ctx tokens = .ok (p, rest)) :
    rest.length < tokens.length ∧ Starts tokens := by
  obtain ⟨piece, rfl, isPattern⟩ := isPattern_of_pattern unnamed h
  have positive := isPattern.starts.length_pos
  rw [List.length_append]
  exact ⟨by omega, isPattern.starts.append rest⟩

theorem readsPatterns_of_patterns {ctx : Context} (unnamed : ctx.vocabulary.hasField "" = false)
    {budget : Nat} {tokens : List Token} {found : List Pattern}
    (enough : tokens.length ≤ budget) (h : patterns ctx budget tokens = .ok found) :
    ReadsPatterns ctx tokens found := by
  induction budget generalizing tokens found with
  | zero =>
      obtain rfl : tokens = [] := by simpa using enough
      rw [patterns_nil] at h
      cases h
      exact .nil
  | succ budget ih =>
      cases tokens with
      | nil =>
          rw [patterns_nil] at h
          cases h
          exact .nil
      | cons token tokens =>
          obtain ⟨p, rest, others, read, behind, rfl⟩ :=
            (patterns_eq_ok_iff (List.cons_ne_nil _ _)).1 h
          have progress := (pattern_progress unnamed read).1
          exact .cons read (ih (by omega) behind)

theorem ReadsPatterns.patterns_eq {ctx : Context} (unnamed : ctx.vocabulary.hasField "" = false)
    {tokens : List Token} {found : List Pattern} (h : ReadsPatterns ctx tokens found)
    {budget : Nat} (enough : tokens.length ≤ budget) :
    patterns ctx budget tokens = .ok found := by
  induction h generalizing budget with
  | nil => exact patterns_nil ctx budget
  | cons read _ ih =>
      obtain ⟨progress, starts⟩ := pattern_progress unnamed read
      obtain _ | budget := budget
      · omega
      refine (patterns_eq_ok_iff ?_).2 ⟨_, _, _, read, ih (by omega), rfl⟩
      exact List.ne_nil_of_length_pos starts.length_pos

theorem ReadsPatterns.ends {ctx : Context} (unnamed : ctx.vocabulary.hasField "" = false)
    {tokens : List Token} {found : List Pattern} (h : ReadsPatterns ctx tokens found) :
    Ends tokens := by
  cases h with
  | nil => simp [Ends]
  | cons read _ => exact (pattern_progress unnamed read).2.ends

theorem ReadsPatterns.exists_pieces {ctx : Context}
    (unnamed : ctx.vocabulary.hasField "" = false) {tokens : List Token} {found : List Pattern}
    (h : ReadsPatterns ctx tokens found) :
    ∃ pieces : List (List Token), tokens = pieces.flatten ∧ pieces.length = found.length ∧
      ∀ piece ∈ pieces, IsPattern ctx.vocabulary piece := by
  induction h with
  | nil => exact ⟨[], rfl, rfl, by simp⟩
  | cons read _ ih =>
      obtain ⟨piece, split, isPattern⟩ := isPattern_of_pattern unnamed read
      obtain ⟨pieces, rfl, same, all⟩ := ih
      exact ⟨piece :: pieces, split, by simp [same], List.forall_mem_cons.2 ⟨isPattern, all⟩⟩

theorem ends_flatten {v : Vocabulary} {pieces : List (List Token)}
    (all : ∀ piece ∈ pieces, IsPattern v piece) : Ends pieces.flatten := by
  cases pieces with
  | nil => simp [Ends]
  | cons piece pieces => exact ((all piece List.mem_cons_self).starts.append _).ends

theorem exists_patterns_of_pieces (ctx : Context) {pieces : List (List Token)}
    (all : ∀ piece ∈ pieces, IsPattern ctx.vocabulary piece) {budget : Nat}
    (enough : pieces.flatten.length ≤ budget) :
    ∃ found, patterns ctx budget pieces.flatten = .ok found ∧ found.length = pieces.length := by
  induction pieces generalizing budget with
  | nil => exact ⟨[], patterns_nil ctx budget, rfl⟩
  | cons piece pieces ih =>
      obtain ⟨isPattern, others⟩ := List.forall_mem_cons.1 all
      have positive := isPattern.starts.length_pos
      rw [List.flatten_cons, List.length_append] at enough
      obtain _ | budget := budget
      · omega
      obtain ⟨p, read⟩ := exists_pattern_of_isPattern isPattern (ends_flatten others)
      obtain ⟨found, behind, same⟩ := ih others (show _ ≤ budget by omega)
      have nonempty : piece ++ pieces.flatten ≠ [] :=
        List.ne_nil_of_length_pos (isPattern.starts.append _).length_pos
      exact ⟨p :: found, (patterns_eq_ok_iff nonempty).2 ⟨p, _, found, read, behind, rfl⟩,
        by simp [same]⟩

end Read

theorem compile_eq_ok_iff {v : Vocabulary} (unnamed : v.hasField "" = false) {source : Text}
    {found : List Pattern} :
    compile v source = .ok found ↔
      Read.ReadsPatterns ⟨v, source.width⟩ (Token.significant source) found ∧ found ≠ [] := by
  rw [compile]
  constructor
  · intro h
    obtain ⟨patterns, read, h⟩ := Read.bind_eq_ok_iff.1 h
    obtain ⟨nonempty, h⟩ := Read.check_eq_ok_iff.1 h
    cases h
    exact ⟨Read.readsPatterns_of_patterns unnamed (Nat.le_refl _) read, by simpa using nonempty⟩
  · rintro ⟨reads, nonempty⟩
    refine Read.bind_eq_ok_iff.2 ⟨found, reads.patterns_eq unnamed (Nat.le_refl _), ?_⟩
    exact Read.check_eq_ok_iff.2 ⟨by simpa using nonempty, rfl⟩

theorem isQuery_of_compile {v : Vocabulary} (unnamed : v.hasField "" = false) {source : Text}
    {found : List Pattern} (h : compile v source = .ok found) :
    IsQuery v (Token.significant source) := by
  obtain ⟨reads, nonempty⟩ := (compile_eq_ok_iff unnamed).1 h
  obtain ⟨pieces, flat, same, all⟩ := reads.exists_pieces unnamed
  refine ⟨pieces, ?_, flat, all⟩
  rintro rfl
  exact nonempty (List.length_eq_zero_iff.1 same.symm)

theorem exists_compile_of_isQuery {v : Vocabulary} {source : Text}
    (h : IsQuery v (Token.significant source)) : ∃ found, compile v source = .ok found := by
  obtain ⟨pieces, nonempty, flat, all⟩ := h
  obtain ⟨found, read, same⟩ :=
    Read.exists_patterns_of_pieces ⟨v, source.width⟩ all (Nat.le_refl _)
  rw [compile, flat]
  refine ⟨found, Read.bind_eq_ok_iff.2 ⟨found, read, Read.check_eq_ok_iff.2 ⟨?_, rfl⟩⟩⟩
  rw [List.isEmpty_iff_length_eq_zero, same]
  simpa using nonempty

/-- A query over arithmetic compiles exactly if its tokens are one or more patterns
of the language whose names pass the checks. -/
theorem exists_compile_iff_isQuery (source : Text) :
    (∃ found, compile Vocabulary.math source = .ok found) ↔
      IsQuery Vocabulary.math (Token.significant source) := by
  have unnamed : Vocabulary.math.hasField "" = false := by decide
  constructor
  · rintro ⟨found, h⟩
    exact isQuery_of_compile unnamed h
  · exact exists_compile_of_isQuery

end ParseTree.Query
