import ParseTree.Proofs.Query.Derivation

/-!
# What is derivable is read

Where tokens of the language are ahead and the names they mention can be taken in,
the reader takes exactly these tokens.  A budget of as many tokens suffices: every
inner element comes behind a token of the element around it.
-/

namespace ParseTree.Query

open Read

theorem IsPredicates.ends {ts : List Token} {ms : List Mention} (h : IsPredicates ts ms)
    {closing : Token} (closes : closing.kind = .parenClose) (rest : List Token) :
    Ends (ts ++ [closing] ++ rest) := by
  cases h with
  | nil => exact ends_cons (.inl closes)
  | cons predicate _ => exact (((predicate.starts.append _).append _).append _).ends

theorem IsItems.ends {ts : List Token} {ms : List Mention} (h : IsItems ts ms)
    {closing : Token} (closes : closing.kind = .parenClose) (rest : List Token) :
    Ends (ts ++ [closing] ++ rest) := by
  cases h with
  | nil => exact ends_cons (.inl closes)
  | child element _ => exact (((element.starts.append _).append _).append _).ends
  | absent bang => exact ends_cons (.inr (.inr bang))
  | predicate predicate _ => exact (((predicate.starts.append _).append _).append _).ends

theorem IsBranches.ends {ts : List Token} {ms : List Mention} (h : IsBranches ts ms)
    {closing : Token} (closes : closing.kind = .bracketClose) (rest : List Token) :
    Ends (ts ++ [closing] ++ rest) := by
  cases h with
  | nil => exact ends_cons (.inr (.inl closes))
  | cons element _ => exact (((element.starts.append _).append _).append _).ends

theorem Ends.captures {captures rest : List Token} (h : Ends rest)
    (all : ∀ t ∈ captures, t.kind = .capture) :
    ∀ t ∈ (captures ++ rest).head?, t.kind ≠ .colon ∧ t.kind ≠ .question ∧ t.kind ≠ .star ∧
      t.kind ≠ .plus := by
  intro t mem
  cases captures with
  | nil =>
      obtain ⟨colon, question, star, plus, -⟩ := h t mem
      exact ⟨colon, question, star, plus⟩
  | cons first captures =>
      obtain rfl := Option.some.inj mem
      simp [all]

/-- Only `_` could be taken for a field, and no colon stands behind it. -/
theorem IsAtom.not_leadsField {ts rest : List Token} {ms : List Mention} {optional : Bool}
    (h : IsAtom ts ms optional) (behind : ∀ t ∈ rest.head?, t.kind ≠ .colon) :
    ¬ LeadsField (ts ++ rest) := by
  rintro ⟨name, colon, more, same, isName, isColon⟩
  cases h with
  | wildcard =>
      obtain ⟨rfl, rfl⟩ := List.cons.inj same
      exact behind colon rfl isColon
  | string kind | choice kind | node kind | group kind =>
      obtain ⟨rfl, -⟩ := List.cons.inj same
      simp [isName] at kind

theorem IsMarked.not_leadsField {ts rest : List Token} {ms : List Mention} {optional : Bool}
    (h : IsMarked ts ms optional) (ends : Ends rest) : ¬ LeadsField (ts ++ rest) := by
  cases h with
  | plain atom all =>
      rw [List.append_assoc]
      exact atom.not_leadsField fun t mem => (ends.captures all t mem).1
  | optional atom question all =>
      rw [List.append_assoc]
      refine atom.not_leadsField ?_
      rintro t mem
      obtain rfl := Option.some.inj mem
      simp [question]

theorem IsKind.exists_head {following ts : List Token} {ms : List Mention}
    (h : IsKind following ts ms) : ∃ t rest, ts = t :: rest ∧ t.kind = .identifier := by
  cases h with
  | word kind | named kind | missing kind | missingNamed kind | missingText kind =>
      exact ⟨_, _, rfl, kind⟩

theorem IsKind.not_opensGroup {following ts : List Token} {ms : List Mention}
    (h : IsKind following ts ms) (us rest : List Token) :
    opensGroup (ts ++ us ++ rest) = false := by
  obtain ⟨⟨_, start, text⟩, ts, rfl, rfl⟩ := h.exists_head
  rfl

theorem StartsGroup.append {tokens : List Token} (h : StartsGroup tokens) (rest : List Token) :
    StartsGroup (tokens ++ rest) := by
  obtain ⟨t, mem, kind⟩ := h
  obtain ⟨more, rfl⟩ := List.head?_eq_some_iff.1 mem
  exact ⟨t, rfl, kind⟩

theorem IsAtom.not_atPredicate {s : State} {ts rest : List Token} {ms : List Mention}
    {optional : Bool} (h : IsAtom ts ms optional) (here : s.rest = ts ++ rest) :
    s.atPredicate = false := by
  refine Bool.eq_false_iff.2 fun ahead => ?_
  obtain ⟨opening, head, more, same, opens, isHead⟩ := atPredicate_iff.1 ahead
  rw [here] at same
  cases h with
  | wildcard kind | string kind | choice kind =>
      obtain ⟨rfl, -⟩ := List.cons.inj same
      simp [opens] at kind
  | node _ kind =>
      obtain ⟨t, ks, rfl, isName⟩ := kind.exists_head
      simp only [List.cons_append, List.cons.injEq] at same
      obtain ⟨-, rfl, -⟩ := same
      simp [isHead] at isName
  | group _ _ _ _ _ group =>
      obtain ⟨t, mem, kind⟩ := group
      obtain ⟨tail, begins⟩ := List.head?_eq_some_iff.1 mem
      rw [← List.append_assoc, begins] at same
      simp only [List.cons_append, List.cons.injEq] at same
      obtain ⟨-, rfl, -⟩ := same
      simp [isHead] at kind

theorem IsElement.not_atPredicate {s : State} {ts rest : List Token} {ms : List Mention}
    {optional : Bool} (h : IsElement ts ms optional) (here : s.rest = ts ++ rest) :
    s.atPredicate = false := by
  cases h with
  | plain marked =>
      cases marked with
      | plain atom => exact atom.not_atPredicate (here.trans (List.append_assoc _ _ _))
      | optional atom => exact atom.not_atPredicate (here.trans (List.append_assoc _ _ _))
  | field isName =>
      refine Bool.eq_false_iff.2 fun ahead => ?_
      obtain ⟨opening, head, more, same, opens, -⟩ := atPredicate_iff.1 ahead
      rw [here] at same
      obtain ⟨rfl, -⟩ := List.cons.inj same
      simp [opens] at isName

namespace Read

/-! ## Steps of the loops -/

section Steps

variable {ctx : Context} {inner : Reader Element} {opening budget : Nat} {s s₁ s₂ : State}
  {t : Token} {rest : List Token}

theorem nodeItems_close (here : s.rest = t :: rest) (closes : t.kind = .parenClose) :
    nodeItems ctx inner opening (budget + 1) s = .ok (([], []), { s with rest }) := by
  simp [nodeItems, here, closes]

theorem nodeItems_absent {field : String} {children : List Element} {absent : List String}
    (here : s.rest = t :: rest) (bang : t.kind = .bang)
    (read : absentField ctx { s with rest } = .ok (field, s₁))
    (others : nodeItems ctx inner opening budget s₁ = .ok ((children, absent), s₂)) :
    nodeItems ctx inner opening (budget + 1) s = .ok ((children, field :: absent), s₂) := by
  simp [nodeItems, here, bang, read, others, bind, Except.bind]

theorem nodeItems_predicate {found : List Element × List String}
    (ahead : s.atPredicate = true) (read : predicate s = .ok s₁)
    (others : nodeItems ctx inner opening budget s₁ = .ok (found, s₂)) :
    nodeItems ctx inner opening (budget + 1) s = .ok (found, s₂) := by
  obtain ⟨t, head, rest, here, opens, -⟩ := atPredicate_iff.1 ahead
  simp [nodeItems, here, opens, ahead, read, others, bind, Except.bind]

theorem nodeItems_child {e : Element} {children : List Element} {absent : List String}
    (starts : Starts s.rest) (ahead : s.atPredicate = false) (read : inner s = .ok (e, s₁))
    (others : nodeItems ctx inner opening budget s₁ = .ok ((children, absent), s₂)) :
    nodeItems ctx inner opening (budget + 1) s = .ok ((e :: children, absent), s₂) := by
  obtain ⟨t, rest, here, kind | kind | kind | kind⟩ := starts <;>
    simp [nodeItems, here, kind, ahead, read, others, bind, Except.bind]

theorem groupItems_close {e : Element} (here : s.rest = t :: rest)
    (closes : t.kind = .parenClose) :
    groupItems ctx inner opening (budget + 1) (some e) s = .ok (e, { s with rest }) := by
  simp [groupItems, here, closes]

theorem groupItems_predicate {found : Option Element} {e : Element}
    (ahead : s.atPredicate = true) (read : predicate s = .ok s₁)
    (others : groupItems ctx inner opening budget found s₁ = .ok (e, s₂)) :
    groupItems ctx inner opening (budget + 1) found s = .ok (e, s₂) := by
  obtain ⟨t, head, rest, here, opens, -⟩ := atPredicate_iff.1 ahead
  simp [groupItems, here, opens, ahead, read, others, bind, Except.bind]

theorem groupItems_element {e e' : Element}
    (starts : Starts s.rest) (ahead : s.atPredicate = false) (read : inner s = .ok (e, s₁))
    (others : groupItems ctx inner opening budget (some e) s₁ = .ok (e', s₂)) :
    groupItems ctx inner opening (budget + 1) none s = .ok (e', s₂) := by
  obtain ⟨t, rest, here, kind | kind | kind | kind⟩ := starts <;>
    simp [groupItems, here, kind, ahead, read, others, bind, Except.bind]

theorem branches_close (here : s.rest = t :: rest) (closes : t.kind = .bracketClose) :
    branches inner opening (budget + 1) s = .ok ([], { s with rest }) := by
  simp [branches, here, closes]

theorem branches_cons {e : Element} {es : List Element} (starts : Starts s.rest)
    (read : inner s = .ok (e, s₁)) (others : branches inner opening budget s₁ = .ok (es, s₂)) :
    branches inner opening (budget + 1) s = .ok (e :: es, s₂) := by
  obtain ⟨t, rest, here, kind | kind | kind | kind⟩ := starts <;>
    simp [branches, here, kind, read, others, bind, Except.bind]

theorem atom_node {test : KindTest} {children : List Element} {absent : List String}
    (here : s.rest = t :: rest) (opens : t.kind = .parenOpen) (noGroup : opensGroup rest = false)
    (noPredicate : s.atPredicate = false) (kind : kindTest ctx { s with rest } = .ok (test, s₁))
    (items : nodeItems ctx inner t.start budget s₁ = .ok ((children, absent), s₂)) :
    atom ctx inner budget s = .ok (.node test children absent {}, s₂) := by
  simp [atom, here, opens, noGroup, noPredicate, kind, items, bind, Except.bind]

theorem atom_group {e : Element} (here : s.rest = t :: rest) (opens : t.kind = .parenOpen)
    (group : opensGroup rest = true)
    (items : groupItems ctx inner t.start budget none { s with rest } = .ok (e, s₁)) :
    atom ctx inner budget s = .ok (e, s₁) := by
  simp [atom, here, opens, group, items]

theorem atom_choice {es : List Element} (here : s.rest = t :: rest) (opens : t.kind = .bracketOpen)
    (read : branches inner t.start budget { s with rest } = .ok (es, s₁)) (nonempty : es ≠ []) :
    atom ctx inner budget s = .ok (.choice es {}, s₁) := by
  simp [atom, here, opens, read, nonempty, bind, Except.bind]

theorem elementWith_eq_ok {s₀ s₃ : State} {field : Option String} {body : Element}
    {optional : Bool} {slots : List Nat} {names : List String}
    (lead : fieldLead ctx s₀ = .ok (field, s₁)) (read : atom ctx inner budget s₁ = .ok (body, s₂))
    (question : questionMark s₂ = .ok (optional, s₃))
    (captures : captureMarks s₃.names s₃.rest = .ok (slots, names, rest)) :
    elementWith ctx inner budget s₀ =
      .ok (body.withMark
        { field
          optional := body.mark.optional || optional
          captures := body.mark.captures ++ slots }, { s₃ with rest, names }) := by
  simp [elementWith, lead, read, question, captures, bind, Except.bind]

end Steps

end Read

/-! ## Elements -/

theorem IsPredicates.exists_groupItems {ctx : Context} {ts : List Token} {ms : List Mention}
    (h : IsPredicates ts ms) (inner : Reader Element) (opening : Nat) {budget : Nat} {s : State}
    {rest : List Token} (enough : ts.length ≤ budget) (ahead : Ahead ctx s ts ms rest) :
    ∃ s₁ left, Consumes ctx s ts ms s₁ ∧ budget ≤ left + ts.length ∧
      ∀ {found : Option Element} {e : Element} {s₂ : State},
        groupItems ctx inner opening left found s₁ = .ok (e, s₂) →
        groupItems ctx inner opening budget found s = .ok (e, s₂) := by
  induction h generalizing budget s with
  | nil => exact ⟨s, budget, .none ctx s, Nat.le_refl _, id⟩
  | @cons us ts ns ms predicate _ ih =>
      have positive := predicate.starts.length_pos
      rw [List.length_append] at enough
      obtain ⟨present, s₁, read, first⟩ := exists_predicate_of_isPredicate predicate ahead.left
      obtain _ | budget := budget
      · omega
      obtain ⟨s₂, left, others, cost, resume⟩ :=
        ih (show ts.length ≤ budget by omega) (ahead.right first)
      refine ⟨s₂, left, first.append others, ?_, ?_⟩
      · rw [List.length_append]
        omega
      · intro found e s₃ later
        exact groupItems_predicate present read (resume later)

theorem exists_groupItems {ctx : Context} {inner : Reader Element} (opening : Nat)
    {before body after rest : List Token} {bs ms as : List Mention} {optional : Bool}
    {closing : Token} (isBefore : IsPredicates before bs) (isBody : IsElement body ms optional)
    (isAfter : IsPredicates after as) (closes : closing.kind = .parenClose)
    (reads : ∀ {s : State}, Ahead ctx s body ms (after ++ [closing] ++ rest) →
      ∃ e s', inner s = .ok (e, s') ∧ Consumes ctx s body ms s' ∧ e.mark.optional = optional)
    {budget : Nat} {s : State} (enough : before.length + body.length + after.length < budget)
    (ahead : Ahead ctx s (before ++ (body ++ (after ++ [closing]))) (bs ++ (ms ++ as)) rest) :
    ∃ e s', groupItems ctx inner opening budget none s = .ok (e, s') ∧
      Consumes ctx s (before ++ (body ++ (after ++ [closing]))) (bs ++ (ms ++ as)) s' ∧
      e.mark.optional = optional := by
  have positive := isBody.starts.length_pos
  obtain ⟨s₁, budget₁, first, cost₁, resume₁⟩ :=
    isBefore.exists_groupItems inner opening (show _ ≤ budget by omega) ahead.left
  obtain _ | budget₁ := budget₁
  · omega
  have inside := ahead.right first
  -- the element takes one budget and at least one token, so enough is left for what follows
  obtain ⟨e, s₂, read, second, same⟩ := reads inside.left
  have behind := inside.right second
  rw [← List.append_nil as] at behind
  obtain ⟨s₃, budget₂, third, cost₂, resume₂⟩ :=
    isAfter.exists_groupItems inner opening (show _ ≤ budget₁ by omega) behind.left
  obtain _ | budget₂ := budget₂
  · omega
  have last := (behind.right third).tokens
  refine ⟨e, _, resume₁ (groupItems_element (inside.left.tokens ▸ isBody.starts.append _)
    (isBody.not_atPredicate inside.left.tokens) read
    (resume₂ (groupItems_close last closes))), ?_, same⟩
  have consumed := first.append (second.append (third.append (.token last)))
  rwa [List.append_nil] at consumed

mutual

theorem IsElement.exists_element {ctx : Context} : ∀ {ts : List Token} {ms : List Mention}
    {optional : Bool}, IsElement ts ms optional → ∀ ⦃budget : Nat⦄ ⦃s : State⦄
    ⦃rest : List Token⦄, ts.length ≤ budget → Ends rest → Ahead ctx s ts ms rest →
    ∃ e s', element ctx budget s = .ok (e, s') ∧ Consumes ctx s ts ms s' ∧
      e.mark.optional = optional
  | _, _, _, .plain marked => by
      intro budget s rest enough ends ahead
      have lead : fieldLead ctx s = .ok (none, s) :=
        fieldLead_eq_ok_iff.2 (.inr ⟨ahead.tokens ▸ marked.not_leadsField ends, rfl, rfl⟩)
      obtain ⟨e, s', read, consumed, same, -⟩ := marked.exists_element lead enough ends ahead
      exact ⟨e, s', read, consumed, same⟩
  | _, _, _, @IsElement.field name colon ts ms _ isName isColon marked => by
      intro budget s rest enough ends ahead
      have known := ahead.known _ List.mem_cons_self
      have lead : fieldLead ctx s = .ok (some name.name, { s with rest := ts ++ rest }) :=
        fieldLead_eq_ok_iff.2
          (.inl ⟨name, colon, _, ahead.tokens, isName, isColon, known, rfl, rfl⟩)
      have first : Consumes ctx s [name, colon] [.field name.name] { s with rest := ts ++ rest } :=
        .tokens ahead.tokens rfl rfl (List.forall_mem_singleton.2 known)
      have whole : Ahead ctx s ([name, colon] ++ ts) ([.field name.name] ++ ms) rest := ahead
      have fewer : ts.length ≤ budget := by
        simp only [List.length_cons] at enough
        omega
      obtain ⟨e, s', read, consumed, same, -⟩ :=
        marked.exists_element lead fewer ends (whole.right first)
      exact ⟨e, s', read, first.append consumed, same⟩

theorem IsMarked.exists_element {ctx : Context} : ∀ {ts : List Token} {ms : List Mention}
    {optional : Bool}, IsMarked ts ms optional → ∀ ⦃budget : Nat⦄ ⦃s₀ s : State⦄
    ⦃field : Option String⦄ ⦃rest : List Token⦄, fieldLead ctx s₀ = .ok (field, s) →
    ts.length ≤ budget → Ends rest → Ahead ctx s ts ms rest →
    ∃ e s', element ctx budget s₀ = .ok (e, s') ∧ Consumes ctx s ts ms s' ∧
      e.mark.optional = optional ∧ e.mark.field = field
  | _, _, _, .plain atom all => by
      intro budget s₀ s field rest lead enough ends ahead
      have positive := atom.starts.length_pos
      rw [List.length_append] at enough
      obtain _ | budget := budget
      · omega
      obtain ⟨body, s₁, read, first, same⟩ :=
        atom.exists_atom (show _ ≤ budget + 1 by omega) ahead.left
      have behind := ahead.right first
      have question : questionMark s₁ = .ok (false, s₁) := by
        refine questionMark_eq_ok_iff.2 (.inr ⟨?_, rfl, rfl⟩)
        rw [behind.tokens]
        exact fun t mem => (ends.captures all t mem).2
      obtain ⟨slots, names, marks, second⟩ :=
        exists_captureMarks behind all fun t mem => (ends t mem).2.2.2.2
      exact ⟨_, _, elementWith_eq_ok lead read question marks, first.append second, by simp [same],
        by simp⟩
  | _, _, _, .optional atom isQuestion all => by
      intro budget s₀ s field rest lead enough ends ahead
      have positive := atom.starts.length_pos
      rw [List.length_append] at enough
      obtain _ | budget := budget
      · omega
      obtain ⟨body, s₁, read, first, -⟩ :=
        atom.exists_atom (show _ ≤ budget + 1 by omega) ahead.left
      have behind := ahead.right first
      have question : questionMark s₁ = .ok (true, _) :=
        questionMark_eq_ok_iff.2 (.inl ⟨_, _, behind.tokens, isQuestion, rfl, rfl⟩)
      obtain ⟨slots, names, marks, second⟩ :=
        exists_captureMarks behind.tail all fun t mem => (ends t mem).2.2.2.2
      exact ⟨_, _, elementWith_eq_ok lead read question marks,
        first.append (.cons behind.tokens second), by simp, by simp⟩

theorem IsAtom.exists_atom {ctx : Context} : ∀ {ts : List Token} {ms : List Mention}
    {optional : Bool}, IsAtom ts ms optional → ∀ ⦃budget : Nat⦄ ⦃s : State⦄
    ⦃rest : List Token⦄, ts.length ≤ budget + 1 → Ahead ctx s ts ms rest →
    ∃ e s', atom ctx (element ctx budget) budget s = .ok (e, s') ∧ Consumes ctx s ts ms s' ∧
      e.mark.optional = optional
  | _, _, _, .wildcard kind name => by
      intro budget s rest _ ahead
      have here := ahead.tokens
      rw [List.singleton_append] at here
      refine ⟨.node .any [] [] {}, _, ?_, .token here, rfl⟩
      simp [atom, here, kind, name]
  | _, _, _, .string (t := t) kind => by
      intro budget s rest _ ahead
      have here := ahead.tokens
      rw [List.singleton_append] at here
      have known : ctx.vocabulary.hasKind t.literal false = true :=
        ahead.known _ List.mem_cons_self
      refine ⟨.node (.anonymous t.literal) [] [] {}, _, ?_, .tokens here rfl rfl ahead.known, rfl⟩
      rw [Token.literal] at known
      simp [atom, here, kind, known, Token.literal]
  | _, _, _, .choice opens branches nonempty closes => by
      intro budget s rest enough ahead
      simp only [List.length_cons, List.length_append, List.length_nil] at enough
      obtain ⟨found, s', read, consumed, some⟩ :=
        branches.exists_branches closes (show _ ≤ budget by omega) (show _ < budget by omega)
          ahead.tail
      exact ⟨_, _, atom_choice ahead.tokens opens read (some nonempty),
        .cons ahead.tokens consumed, rfl⟩
  | _, _, _, .node opens kind items closes => by
      intro budget s rest enough ahead
      have noPredicate := (IsAtom.node opens kind items closes).not_atPredicate ahead.tokens
      simp only [List.length_cons, List.length_append, List.length_nil] at enough
      obtain ⟨test, read, first⟩ :=
        exists_kindTest_of_isKind kind ahead.tail.left (head?_append_closing _ _ _)
      obtain ⟨⟨children, absent⟩, s', others, second⟩ :=
        items.exists_nodeItems closes (show _ ≤ budget by omega) (show _ < budget by omega)
          (ahead.tail.right first)
      exact ⟨_, _, atom_node ahead.tokens opens (kind.not_opensGroup _ _) noPredicate read others,
        .cons ahead.tokens (first.append second), rfl⟩
  | _, _, _, @IsAtom.group opening closing before body after _ _ _ _ opens isBefore isBody isAfter
      closes group => by
      intro budget s rest enough ahead
      simp only [List.length_cons, List.length_append, List.length_nil] at enough
      have begins : opensGroup (before ++ (body ++ (after ++ [closing])) ++ rest) = true := by
        rw [opensGroup_iff, List.append_assoc, List.append_assoc, ← List.append_assoc]
        exact group.append _
      obtain ⟨e, s', read, consumed, same⟩ :=
        exists_groupItems opening.start isBefore isBody isAfter closes
          (isBody.exists_element (show _ ≤ budget by omega) (isAfter.ends closes rest))
          (show _ < budget by omega) ahead.tail
      exact ⟨e, s', atom_group ahead.tokens opens begins read, .cons ahead.tokens consumed, same⟩

theorem IsItems.exists_nodeItems {ctx : Context} : ∀ {ts : List Token} {ms : List Mention},
    IsItems ts ms → ∀ ⦃opening inner budget : Nat⦄ ⦃s : State⦄ ⦃closing : Token⦄
    ⦃rest : List Token⦄, closing.kind = .parenClose → ts.length ≤ inner →
    ts.length < budget → Ahead ctx s (ts ++ [closing]) ms rest →
    ∃ found s', nodeItems ctx (element ctx inner) opening budget s = .ok (found, s') ∧
      Consumes ctx s (ts ++ [closing]) ms s'
  | _, _, .nil => by
      intro opening inner budget s closing rest closes _ more ahead
      obtain _ | budget := budget
      · omega
      exact ⟨_, _, nodeItems_close ahead.tokens closes, .token ahead.tokens⟩
  | _, _, .child element items => by
      intro opening inner budget s closing rest closes enough more ahead
      have positive := element.starts.length_pos
      rw [List.length_append] at enough more
      rw [List.append_assoc] at ahead ⊢
      obtain _ | budget := budget
      · omega
      obtain ⟨e, s₁, read, first, -⟩ :=
        element.exists_element (show _ ≤ inner by omega) (items.ends closes rest) ahead.left
      obtain ⟨⟨children, absent⟩, s₂, others, second⟩ :=
        items.exists_nodeItems closes (show _ ≤ inner by omega) (show _ < budget by omega)
          (ahead.right first)
      have starts : Starts s.rest := ahead.left.tokens ▸ element.starts.append _
      exact ⟨_, _, nodeItems_child starts (element.not_atPredicate ahead.left.tokens) read others,
        first.append second⟩
  | _, _, @IsItems.absent bang name us ns isBang isName items => by
      intro opening inner budget s closing rest closes enough more ahead
      simp only [List.length_cons] at enough more
      obtain _ | budget := budget
      · omega
      have known := ahead.known _ List.mem_cons_self
      have read := absentField_eq_ok ahead.tail.tokens isName known
      have first : Consumes ctx s [bang, name] [.field name.name] _ :=
        .tokens ahead.tokens rfl rfl (List.forall_mem_singleton.2 known)
      have whole : Ahead ctx s ([bang, name] ++ (us ++ [closing])) ([.field name.name] ++ ns)
        rest := ahead
      obtain ⟨⟨children, absent⟩, s₂, others, second⟩ :=
        items.exists_nodeItems closes (show _ ≤ inner by omega) (show _ < budget by omega)
          (whole.right first)
      exact ⟨_, _, nodeItems_absent ahead.tokens isBang read others, first.append second⟩
  | _, _, .predicate predicate items => by
      intro opening inner budget s closing rest closes enough more ahead
      have positive := predicate.starts.length_pos
      rw [List.length_append] at enough more
      rw [List.append_assoc] at ahead ⊢
      obtain _ | budget := budget
      · omega
      obtain ⟨present, s₁, read, first⟩ := exists_predicate_of_isPredicate predicate ahead.left
      obtain ⟨found, s₂, others, second⟩ :=
        items.exists_nodeItems closes (show _ ≤ inner by omega) (show _ < budget by omega)
          (ahead.right first)
      exact ⟨_, _, nodeItems_predicate present read others, first.append second⟩

theorem IsBranches.exists_branches {ctx : Context} : ∀ {ts : List Token} {ms : List Mention},
    IsBranches ts ms → ∀ ⦃opening inner budget : Nat⦄ ⦃s : State⦄ ⦃closing : Token⦄
    ⦃rest : List Token⦄, closing.kind = .bracketClose → ts.length ≤ inner →
    ts.length < budget → Ahead ctx s (ts ++ [closing]) ms rest →
    ∃ found s', branches (element ctx inner) opening budget s = .ok (found, s') ∧
      Consumes ctx s (ts ++ [closing]) ms s' ∧ (ts ≠ [] → found ≠ [])
  | _, _, .nil => by
      intro opening inner budget s closing rest closes _ more ahead
      obtain _ | budget := budget
      · omega
      exact ⟨_, _, branches_close ahead.tokens closes, .token ahead.tokens, absurd rfl⟩
  | _, _, .cons element others => by
      intro opening inner budget s closing rest closes enough more ahead
      have positive := element.starts.length_pos
      rw [List.length_append] at enough more
      rw [List.append_assoc] at ahead ⊢
      obtain _ | budget := budget
      · omega
      obtain ⟨e, s₁, read, first, -⟩ :=
        element.exists_element (show _ ≤ inner by omega) (others.ends closes rest) ahead.left
      obtain ⟨es, s₂, behind, second, -⟩ :=
        others.exists_branches closes (show _ ≤ inner by omega) (show _ < budget by omega)
          (ahead.right first)
      have starts : Starts s.rest := ahead.left.tokens ▸ element.starts.append _
      exact ⟨_, _, branches_cons starts read behind, first.append second,
        fun _ => List.cons_ne_nil _ _⟩

end

end ParseTree.Query
