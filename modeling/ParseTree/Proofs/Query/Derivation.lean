import ParseTree.Proofs.Query.Consuming

/-!
# What is read is derivable

Along the rules of the reader: the tokens between two states form an element, an
atom and so on, and the mentions of the derivation are those that entered the
state.  The vocabulary has no field without a name, since a reader that misses
the name behind `!` looks up the empty one.
-/

namespace ParseTree.Query

theorem IsKind.of_head?_eq {following following' ts : List Token} {ms : List Mention}
    (h : IsKind following ts ms) (same : following.head? = following'.head?) :
    IsKind following' ts ms := by
  cases h with
  | word kind name => exact .word kind name
  | named kind name => exact .named kind name
  | missing kind name bare => exact .missing kind name (same ▸ bare)
  | missingNamed kind name kind' => exact .missingNamed kind name kind'
  | missingText kind name kind' => exact .missingText kind name kind'

theorem head?_append_closing (ts rest : List Token) (closing : Token) :
    (ts ++ [closing] ++ rest).head? = (ts ++ [closing]).head? := by
  cases ts <;> rfl

@[simp] theorem Element.mark_withMark (e : Element) (mark : Mark) :
    (e.withMark mark).mark = mark := by
  cases e <;> rfl

namespace Read

theorem opensGroup_iff {tokens : List Token} : opensGroup tokens = true ↔ StartsGroup tokens := by
  unfold opensGroup StartsGroup
  split
  · simp
  · simp
  · simp
  · rename_i noParen noBracket noString
    simp only [Bool.false_eq_true, false_iff]
    rintro ⟨⟨kind, start, text⟩, mem, rfl | rfl | rfl⟩ <;>
      obtain ⟨rest, rfl⟩ := List.head?_eq_some_iff.1 mem
    · exact noParen _ _ _ rfl
    · exact noBracket _ _ _ rfl
    · exact noString _ _ _ rfl

theorem exists_isMarked {ctx : Context} {s₁ s₂ s₃ : State} {body : List Token}
    {ms : List Mention} {inner optional : Bool} {slots : List Nat} {names : List String}
    {rest : List Token} (atom : IsAtom body ms inner) (consumed : Consumes ctx s₁ body ms s₂)
    (question : questionMark s₂ = .ok (optional, s₃))
    (captures : captureMarks s₃.names s₃.rest = .ok (slots, names, rest)) :
    ∃ ts ns, Consumes ctx s₁ ts ns { s₃ with rest, names } ∧
      IsMarked ts ns (inner || optional) := by
  obtain ⟨marks, all, behind⟩ := Consumes.captures ctx captures
  obtain ⟨t, rest', here, kind, rfl, rfl⟩ | ⟨-, rfl, rfl⟩ := questionMark_eq_ok_iff.1 question
  · refine ⟨_, _, consumed.append ((Consumes.token here).append behind), ?_⟩
    rw [Bool.or_true]
    exact .optional atom kind all
  · refine ⟨_, _, consumed.append behind, ?_⟩
    rw [Bool.or_false]
    exact .plain atom all

theorem EndsGroup.isPredicates {ctx : Context} {s s' : State} (h : EndsGroup s s') :
    ∃ ts ms closing, closing.kind = .parenClose ∧ IsPredicates ts ms ∧
      Consumes ctx s (ts ++ [closing]) ms s' := by
  induction h with
  | @close s token rest here closes =>
      exact ⟨[], [], token, closes, .nil, .token here⟩
  | predicate ahead read _ ih =>
      obtain ⟨us, ns, predicate, first⟩ := isPredicate_of_predicate ctx ahead read
      obtain ⟨ts, ms, closing, closes, predicates, others⟩ := ih
      refine ⟨us ++ ts, ns ++ ms, closing, closes, .cons predicate predicates, ?_⟩
      rw [List.append_assoc]
      exact first.append others

mutual

theorem ReadsElement.isElement {ctx : Context}
    (unnamed : ctx.vocabulary.hasField "" = false) :
    ∀ {s s' : State} {e : Element}, ReadsElement ctx s e s' →
    ∃ ts ms, Consumes ctx s ts ms s' ∧ IsElement ts ms e.mark.optional ∧
      (e.mark.field = none → IsMarked ts ms e.mark.optional)
  | _, _, _, .marked lead atom question captures => by
      obtain ⟨body, ms, first, derived⟩ := atom.isAtom unnamed
      obtain ⟨ts, ns, consumed, marked⟩ := exists_isMarked derived first question captures
      rw [Element.mark_withMark]
      obtain ⟨name, colon, rest, here, isName, isColon, known, rfl, rfl⟩ | ⟨-, rfl, rfl⟩ :=
        fieldLead_eq_ok_iff.1 lead
      · have prefixed : Consumes ctx _ [name, colon] [.field name.name] _ :=
          .tokens here rfl rfl (List.forall_mem_singleton.2 known)
        exact ⟨_, _, prefixed.append consumed, .field isName isColon marked, by simp⟩
      · exact ⟨_, _, consumed, .plain marked, fun _ => marked⟩

theorem ReadsAtom.isAtom {ctx : Context} (unnamed : ctx.vocabulary.hasField "" = false) :
    ∀ {s s' : State} {e : Element}, ReadsAtom ctx s e s' →
    ∃ ts ms, Consumes ctx s ts ms s' ∧ IsAtom ts ms e.mark.optional
  | _, _, _, .node here opens _ _ kind items => by
      obtain ⟨ks, kms, isKind, first⟩ := isKind_of_kindTest kind
      obtain ⟨ts, ms, closing, closes, others, isItems⟩ := items.isItems unnamed
      refine ⟨_, _, .cons here (first.append others),
        .node opens (isKind.of_head?_eq ?_) isItems closes⟩
      rw [others.rest, head?_append_closing]
  | _, _, _, .group here opens group inside => by
      obtain ⟨before, body, after, bs, ms, as, closing, closes, isBefore, isBody, isAfter,
        consumed⟩ := inside.isGroup unnamed
      refine ⟨_, _, .cons here consumed,
        .group opens isBefore isBody isAfter closes ?_⟩
      -- the token behind the parenthesis belongs to the first predicate or to the element
      obtain ⟨t, more, rfl, -⟩ := isBody.starts
      have ahead := consumed.rest
      dsimp only at ahead
      rw [opensGroup_iff, ahead] at group
      cases before <;> exact group
  | _, _, _, .choice here opens branches nonempty => by
      obtain ⟨ts, ms, closing, closes, consumed, isBranches, some⟩ := branches.isBranches unnamed
      exact ⟨_, _, .cons here consumed,
        .choice opens isBranches (some nonempty) closes⟩
  | _, _, _, .anonymous here string known => by
      refine ⟨_, _, .tokens here rfl rfl ?_, .string string⟩
      exact List.forall_mem_singleton.2 known
  | _, _, _, .wildcard here identifier name => ⟨_, _, .token here, .wildcard identifier name⟩

theorem ReadsItems.isItems {ctx : Context} (unnamed : ctx.vocabulary.hasField "" = false) :
    ∀ {s s' : State} {children : List Element} {absent : List String},
    ReadsItems ctx s children absent s' → ∃ ts ms closing, closing.kind = .parenClose ∧
      Consumes ctx s (ts ++ [closing]) ms s' ∧ IsItems ts ms
  | _, _, _, _, .close here closes => ⟨[], [], _, closes, .token here, .nil⟩
  | _, _, _, _, .absent here bang field items => by
      obtain ⟨name, isName, second⟩ := absentField_consumes unnamed field
      obtain ⟨ts, ms, closing, closes, others, isItems⟩ := items.isItems unnamed
      exact ⟨_ :: name :: ts, _, closing, closes, .cons here (second.append others),
        .absent bang isName isItems⟩
  | _, _, _, _, .predicate ahead read items => by
      obtain ⟨us, ns, isPredicate, first⟩ := isPredicate_of_predicate ctx ahead read
      obtain ⟨ts, ms, closing, closes, others, isItems⟩ := items.isItems unnamed
      refine ⟨us ++ ts, ns ++ ms, closing, closes, ?_, .predicate isPredicate isItems⟩
      rw [List.append_assoc]
      exact first.append others
  | _, _, _, _, .child _ element items => by
      obtain ⟨us, ns, first, isElement, -⟩ := element.isElement unnamed
      obtain ⟨ts, ms, closing, closes, others, isItems⟩ := items.isItems unnamed
      refine ⟨us ++ ts, ns ++ ms, closing, closes, ?_, .child isElement isItems⟩
      rw [List.append_assoc]
      exact first.append others

theorem ReadsGroup.isGroup {ctx : Context} (unnamed : ctx.vocabulary.hasField "" = false) :
    ∀ {s s' : State} {e : Element}, ReadsGroup ctx s e s' →
    ∃ before body after bs ms as closing, closing.kind = .parenClose ∧
      IsPredicates before bs ∧ IsElement body ms e.mark.optional ∧ IsPredicates after as ∧
      Consumes ctx s (before ++ (body ++ (after ++ [closing]))) (bs ++ (ms ++ as)) s'
  | _, _, _, .predicate ahead read group => by
      obtain ⟨us, ns, isPredicate, first⟩ := isPredicate_of_predicate ctx ahead read
      obtain ⟨before, body, after, bs, ms, as, closing, closes, isBefore, isBody, isAfter,
        consumed⟩ := group.isGroup unnamed
      refine ⟨us ++ before, body, after, ns ++ bs, ms, as, closing, closes,
        .cons isPredicate isBefore, isBody, isAfter, ?_⟩
      rw [List.append_assoc, List.append_assoc]
      exact first.append consumed
  | _, _, _, .element _ element ends => by
      obtain ⟨body, ms, first, isBody, -⟩ := element.isElement unnamed
      obtain ⟨after, as, closing, closes, isAfter, others⟩ := ends.isPredicates
      exact ⟨[], body, after, [], ms, as, closing, closes, .nil, isBody, isAfter,
        first.append others⟩

theorem ReadsBranches.isBranches {ctx : Context}
    (unnamed : ctx.vocabulary.hasField "" = false) :
    ∀ {s s' : State} {branches : List Element},
    ReadsBranches ctx s branches s' → ∃ ts ms closing, closing.kind = .bracketClose ∧
      Consumes ctx s (ts ++ [closing]) ms s' ∧ IsBranches ts ms ∧ (branches ≠ [] → ts ≠ [])
  | _, _, _, .close here closes => ⟨[], [], _, closes, .token here, .nil, by simp⟩
  | _, _, _, .branch element branches => by
      obtain ⟨us, ns, first, isElement, -⟩ := element.isElement unnamed
      obtain ⟨ts, ms, closing, closes, others, isBranches, -⟩ := branches.isBranches unnamed
      refine ⟨us ++ ts, ns ++ ms, closing, closes, ?_, .cons isElement isBranches, ?_⟩
      · rw [List.append_assoc]
        exact first.append others
      · obtain ⟨t, rest, rfl, -⟩ := isElement.starts
        simp

end

end Read

end ParseTree.Query
