import ParseTree.Proofs.Query.Acceptance

/-!
# Runs of the reader along its rules

The rules say what a reader accepts, and nothing of budgets.  Here is the way back:
whatever the rules derive, the reader reads, given a budget for as many tokens as
lie between the two states.  To show that a query compiles to a certain pattern it
is enough to derive that pattern by the rules.
-/

namespace ParseTree.Query

namespace Read

variable {ctx : Context}

theorem Consumes.length_rest {s s' : State} {ts : List Token} {ms : List Mention}
    (h : Consumes ctx s ts ms s') : s.rest.length = ts.length + s'.rest.length := by
  rw [h.rest, List.length_append]

theorem ReadsElement.progress (unnamed : ctx.vocabulary.hasField "" = false) {s s' : State}
    {e : Element} (h : ReadsElement ctx s e s') :
    s'.rest.length < s.rest.length ∧ Starts s.rest := by
  obtain ⟨ts, ms, consumed, isElement, -⟩ := h.isElement unnamed
  have taken := consumed.length_rest
  have positive := isElement.starts.length_pos
  exact ⟨by omega, consumed.rest ▸ isElement.starts.append _⟩

theorem ReadsItems.progress (unnamed : ctx.vocabulary.hasField "" = false) {s s' : State}
    {children : List Element} {absent : List String} (h : ReadsItems ctx s children absent s') :
    s'.rest.length < s.rest.length := by
  obtain ⟨ts, ms, closing, -, consumed, -⟩ := h.isItems unnamed
  have taken := consumed.length_rest
  rw [List.length_append, List.length_singleton] at taken
  omega

theorem ReadsBranches.progress (unnamed : ctx.vocabulary.hasField "" = false) {s s' : State}
    {branches : List Element} (h : ReadsBranches ctx s branches s') :
    s'.rest.length < s.rest.length := by
  obtain ⟨ts, ms, closing, -, consumed, -⟩ := h.isBranches unnamed
  have taken := consumed.length_rest
  rw [List.length_append, List.length_singleton] at taken
  omega

theorem EndsGroup.progress (ctx : Context) {s s' : State} (h : EndsGroup s s') :
    s'.rest.length < s.rest.length := by
  obtain ⟨ts, ms, closing, -, -, consumed⟩ := @EndsGroup.isPredicates ctx _ _ h
  have taken := consumed.length_rest
  rw [List.length_append, List.length_singleton] at taken
  omega

theorem ReadsGroup.progress (unnamed : ctx.vocabulary.hasField "" = false) {s s' : State}
    {e : Element} (h : ReadsGroup ctx s e s') : s'.rest.length < s.rest.length := by
  obtain ⟨before, body, after, bs, ms, as, closing, -, -, -, -, consumed⟩ := h.isGroup unnamed
  have taken := consumed.length_rest
  simp only [List.length_append, List.length_singleton] at taken
  omega

theorem predicate_progress (ctx : Context) {s s' : State} (ahead : s.atPredicate = true)
    (h : predicate s = .ok s') : s'.rest.length < s.rest.length := by
  obtain ⟨ts, ms, isPredicate, consumed⟩ := isPredicate_of_predicate ctx ahead h
  have taken := consumed.length_rest
  have positive := isPredicate.starts.length_pos
  omega

theorem rest_fieldLead {s s' : State} {field : Option String}
    (h : fieldLead ctx s = .ok (field, s')) : s'.rest.length ≤ s.rest.length := by
  obtain ⟨name, colon, rest, here, -, -, -, -, rfl⟩ | ⟨-, -, rfl⟩ := fieldLead_eq_ok_iff.1 h
  · simp only [here, List.length_cons]
    omega
  · exact Nat.le_refl _

theorem rest_marks {s s' : State} {optional : Bool} {slots : List Nat} {names : List String}
    {rest : List Token} (question : questionMark s = .ok (optional, s'))
    (captures : captureMarks s'.names s'.rest = .ok (slots, names, rest)) :
    rest.length ≤ s.rest.length := by
  obtain ⟨marks, taken, -⟩ := captureMarks_eq_ok captures
  have behind : rest.length ≤ s'.rest.length := by
    rw [taken, List.length_append]
    omega
  obtain ⟨t, rest', here, -, -, rfl⟩ | ⟨-, -, rfl⟩ := questionMark_eq_ok_iff.1 question
  · rw [here, List.length_cons]
    exact Nat.le_succ_of_le behind
  · exact behind

theorem EndsGroup.groupItems_eq {inner : Reader Element} {opening : Nat} {s s' : State}
    (h : EndsGroup s s') (e : Element) {budget : Nat}
    (enough : s.rest.length ≤ budget + s'.rest.length) :
    groupItems ctx inner opening budget (some e) s = .ok (e, s') := by
  induction h generalizing budget with
  | close here closes =>
      rw [here, List.length_cons] at enough
      obtain _ | budget := budget
      · dsimp only at enough
        omega
      exact groupItems_close here closes
  | predicate ahead read ends ih =>
      have first := predicate_progress ctx ahead read
      have others := ends.progress ctx
      obtain _ | budget := budget
      · omega
      exact groupItems_predicate ahead read (ih (by omega))

mutual

theorem ReadsElement.element_eq (unnamed : ctx.vocabulary.hasField "" = false) :
    ∀ {s s' : State} {e : Element}, ReadsElement ctx s e s' → ∀ ⦃budget : Nat⦄,
    s.rest.length ≤ budget + s'.rest.length → element ctx budget s = .ok (e, s')
  | _, _, _, .marked lead atom question captures => by
      intro budget enough
      have progress := (ReadsElement.marked lead atom question captures).progress unnamed
      obtain _ | budget := budget
      · omega
      refine elementWith_eq_ok lead (atom.atom_eq unnamed ?_) question captures
      -- the field, the question mark and the captures only shorten what is left
      have before := rest_fieldLead lead
      have behind := rest_marks question captures
      dsimp only at enough
      omega

theorem ReadsAtom.atom_eq (unnamed : ctx.vocabulary.hasField "" = false) :
    ∀ {s s' : State} {e : Element}, ReadsAtom ctx s e s' → ∀ ⦃budget : Nat⦄,
    s.rest.length ≤ budget + 1 + s'.rest.length →
    atom ctx (element ctx budget) budget s = .ok (e, s')
  | _, _, _, .node here opens noGroup noPredicate kind items => by
      intro budget enough
      obtain ⟨ts, ms, -, consumed⟩ := isKind_of_kindTest kind
      have taken := consumed.length_rest
      rw [here, List.length_cons] at enough
      dsimp only at taken
      exact atom_node here opens noGroup noPredicate kind
        (items.nodeItems_eq unnamed (by omega) (by omega))
  | _, _, _, .group here opens group inside => by
      intro budget enough
      rw [here, List.length_cons] at enough
      exact atom_group here opens group (inside.groupItems_eq unnamed (by dsimp only; omega)
        (by dsimp only; omega))
  | _, _, _, .choice here opens branches nonempty => by
      intro budget enough
      rw [here, List.length_cons] at enough
      exact atom_choice here opens (branches.branches_eq unnamed (by dsimp only; omega)
        (by dsimp only; omega)) nonempty
  | _, _, _, .anonymous here string known => by
      intro budget _
      simp [atom, here, string, known]
  | _, _, _, .wildcard here identifier name => by
      intro budget _
      simp [atom, here, identifier, name]

theorem ReadsItems.nodeItems_eq (unnamed : ctx.vocabulary.hasField "" = false) :
    ∀ {s s' : State} {children : List Element} {absent : List String},
    ReadsItems ctx s children absent s' → ∀ ⦃opening inner budget : Nat⦄,
    s.rest.length ≤ inner + s'.rest.length → s.rest.length ≤ budget + s'.rest.length →
    nodeItems ctx (element ctx inner) opening budget s = .ok ((children, absent), s')
  | _, _, _, _, .close here closes => by
      intro opening inner budget _ enough
      rw [here, List.length_cons] at enough
      obtain _ | budget := budget
      · dsimp only at enough
        omega
      exact nodeItems_close here closes
  | _, _, _, _, .absent here bang field items => by
      intro opening inner budget fits enough
      obtain ⟨name, -, consumed⟩ := absentField_consumes unnamed field
      have taken := consumed.length_rest
      have others := items.progress unnamed
      rw [here, List.length_cons] at fits enough
      dsimp only at taken
      obtain _ | budget := budget
      · omega
      exact nodeItems_absent here bang field
        (items.nodeItems_eq unnamed (by omega) (by omega))
  | _, _, _, _, .predicate ahead read items => by
      intro opening inner budget fits enough
      have first := predicate_progress ctx ahead read
      have others := items.progress unnamed
      obtain _ | budget := budget
      · omega
      exact nodeItems_predicate ahead read
        (items.nodeItems_eq unnamed (by omega) (by omega))
  | _, _, _, _, .child noPredicate element items => by
      intro opening inner budget fits enough
      obtain ⟨first, starts⟩ := element.progress unnamed
      have others := items.progress unnamed
      obtain _ | budget := budget
      · omega
      exact nodeItems_child starts noPredicate (element.element_eq unnamed (by omega))
        (items.nodeItems_eq unnamed (by omega) (by omega))

theorem ReadsGroup.groupItems_eq (unnamed : ctx.vocabulary.hasField "" = false) :
    ∀ {s s' : State} {e : Element}, ReadsGroup ctx s e s' → ∀ ⦃opening inner budget : Nat⦄,
    s.rest.length ≤ inner + s'.rest.length → s.rest.length ≤ budget + s'.rest.length →
    groupItems ctx (element ctx inner) opening budget none s = .ok (e, s')
  | _, _, _, .predicate ahead read group => by
      intro opening inner budget fits enough
      have first := predicate_progress ctx ahead read
      have others := group.progress unnamed
      obtain _ | budget := budget
      · omega
      exact groupItems_predicate ahead read
        (group.groupItems_eq unnamed (by omega) (by omega))
  | _, _, _, .element noPredicate element ends => by
      intro opening inner budget fits enough
      obtain ⟨first, starts⟩ := element.progress unnamed
      have others := ends.progress ctx
      obtain _ | budget := budget
      · omega
      exact groupItems_element starts noPredicate (element.element_eq unnamed (by omega))
        (ends.groupItems_eq _ (by omega))

theorem ReadsBranches.branches_eq (unnamed : ctx.vocabulary.hasField "" = false) :
    ∀ {s s' : State} {elements : List Element}, ReadsBranches ctx s elements s' →
    ∀ ⦃opening inner budget : Nat⦄, s.rest.length ≤ inner + s'.rest.length →
    s.rest.length ≤ budget + s'.rest.length →
    branches (element ctx inner) opening budget s = .ok (elements, s')
  | _, _, _, .close here closes => by
      intro opening inner budget _ enough
      rw [here, List.length_cons] at enough
      obtain _ | budget := budget
      · dsimp only at enough
        omega
      exact branches_close here closes
  | _, _, _, .branch element branches => by
      intro opening inner budget fits enough
      obtain ⟨first, starts⟩ := element.progress unnamed
      have others := branches.progress unnamed
      obtain _ | budget := budget
      · omega
      exact branches_cons starts (element.element_eq unnamed (by omega))
        (branches.branches_eq unnamed (by omega) (by omega))

end

theorem ReadsElement.not_atPredicate (unnamed : ctx.vocabulary.hasField "" = false)
    {s s' : State} {e : Element} (h : ReadsElement ctx s e s') : s.atPredicate = false := by
  obtain ⟨ts, ms, consumed, isElement, -⟩ := h.isElement unnamed
  exact isElement.not_atPredicate consumed.rest

theorem pattern_of_readsElement (unnamed : ctx.vocabulary.hasField "" = false)
    {tokens : List Token} {root : Element} {s : State} {ps : List Predicate}
    (read : ReadsElement ctx { rest := tokens } root s) (noField : root.mark.field = none)
    (required : root.mark.optional = false)
    (resolved : s.conditions.mapM (Condition.resolve s.names) = .ok ps) :
    pattern ctx tokens =
      .ok (⟨root, s.names, ps, ctx.offset { rest := tokens }⟩, s.rest) := by
  have enough : tokens.length ≤ tokens.length + 1 + s.rest.length := by omega
  have run := read.element_eq unnamed enough
  rw [pattern]
  refine bind_eq_ok_iff.2 ⟨(root, s), run, check_eq_ok_iff.2 ⟨by simp [noField], ?_⟩⟩
  exact check_eq_ok_iff.2 ⟨by simp [required], bind_eq_ok_iff.2 ⟨ps, resolved, rfl⟩⟩

end Read

theorem exists_compile_of_readsElement {v : Vocabulary} (unnamed : v.hasField "" = false)
    {source : Text} {root : Element} {s : Read.State} {ps : List Predicate}
    (read : Read.ReadsElement ⟨v, source.width⟩ { rest := Token.significant source } root s)
    (finished : s.rest = []) (noField : root.mark.field = none)
    (required : root.mark.optional = false)
    (resolved : s.conditions.mapM (Read.Condition.resolve s.names) = .ok ps) :
    ∃ start, compile v source = .ok [⟨root, s.names, ps, start⟩] := by
  have first := Read.pattern_of_readsElement unnamed read noField required resolved
  have starts := (read.progress unnamed).2
  obtain ⟨t, rest, tokens, -⟩ := starts
  have found : Read.patterns ⟨v, source.width⟩ (Token.significant source).length
      (Token.significant source) = .ok [⟨root, s.names, ps, t.start⟩] := by
    dsimp only at tokens
    rw [tokens] at first ⊢
    apply (Read.patterns_eq_ok_iff (List.cons_ne_nil _ _)).2
    exact ⟨_, _, [], first, by rw [finished, Read.patterns_nil], rfl⟩
  refine ⟨t.start, ?_⟩
  rw [compile]
  exact Read.bind_eq_ok_iff.2 ⟨_, found, Read.check_eq_ok_iff.2 ⟨by simp, rfl⟩⟩

end ParseTree.Query
