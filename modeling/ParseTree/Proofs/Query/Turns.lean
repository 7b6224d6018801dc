import ParseTree.Proofs.Query.Counted
import ParseTree.Proofs.Query.Progress

/-!
# Compiling comes to an end

A budget for the tokens is never used up, so the loops of the readers stop of themselves.  How
soon is told by the readers that count.  Each turn comes with a token of its own or stands before
one that is taken, so the tokens pay for the turns, two turns a token.  Only the last ones, those
of a refusal, are not paid for, and these are two at most.
-/

namespace ParseTree.Query.Read

namespace Counted

/-! ## What a reader costs -/

/-- The turns of a reader, and on success what is `left` to be paid behind it. -/
def cost (x : Counted α) (left : α → Nat) : Nat :=
  x.turns + match x.answer with
    | .ok a => left a
    | .error _ => 0

section Cost

variable {x : Counted α} {f : α → Counted β} {left middle : α → Nat} {later : β → Nat} {n : Nat}

theorem turns_le_cost (x : Counted α) (left : α → Nat) : x.turns ≤ x.cost left :=
  Nat.le_add_right _ _

theorem cost_pure_le {a : α} (le : left a ≤ n) : (pure a : Counted α).cost left ≤ n :=
  Nat.le_trans (Nat.le_of_eq (Nat.zero_add _)) le

theorem cost_unexpected_le {token : Token} {cause : String → Fault} :
    (lift (unexpected token cause)).cost left ≤ n := by
  unfold unexpected
  split <;> exact Nat.zero_le _

theorem cost_turn_le (h : x.cost left ≤ n) : (turn x).cost left ≤ n + 1 := by
  have split : (turn x).cost left = 1 + x.cost left := Nat.add_assoc _ _ _
  omega

theorem cost_bind (x : Counted α) (f : α → Counted β) (later : β → Nat) :
    (x >>= f).cost later = x.cost fun a => (f a).cost later := by
  change (andThen x f).cost later = _
  unfold andThen cost
  cases x.answer with
  | ok a => exact Nat.add_assoc _ _ _
  | error e => rfl

theorem cost_mono (le : ∀ a, left a ≤ middle a) : x.cost left ≤ x.cost middle := by
  unfold cost
  cases x.answer with
  | ok a => exact Nat.add_le_add_left (le a) _
  | error e => exact Nat.le_refl _

theorem cost_bind_le (first : x.cost middle ≤ n) (next : ∀ a, (f a).cost later ≤ middle a) :
    (x >>= f).cost later ≤ n := by
  rw [cost_bind]
  exact Nat.le_trans (cost_mono next) first

theorem cost_lift_bind_le {x : Except CompileError α}
    (next : ∀ a, x = .ok a → (f a).cost later ≤ n) : (lift x >>= f).cost later ≤ n := by
  cases x with
  | ok a =>
      rw [cost_bind]
      exact Nat.le_trans (Nat.le_of_eq (Nat.zero_add _)) (next a rfl)
  | error e => exact Nat.zero_le _

theorem cost_check_le {wrong : Prop} [Decidable wrong] {e : CompileError} {next : Counted β}
    (right : next.cost later ≤ n) :
    (if wrong then lift (.error e) >>= f else next).cost later ≤ n := by
  split
  · exact Nat.zero_le _
  · exact right

theorem cost_twice_le (bound : x.cost left ≤ n) (more : Nat) :
    (x.cost fun a => 2 * left a + more) ≤ 2 * n + more := by
  unfold cost at bound ⊢
  cases read : x.answer with
  | ok a =>
      rw [read] at bound
      dsimp only at bound ⊢
      omega
  | error e =>
      rw [read] at bound
      dsimp only at bound ⊢
      omega

end Cost

theorem cost_arguments (opening : Nat) (tokens : List Token) :
    (arguments opening tokens).cost (fun r => r.2.length) ≤ tokens.length + 1 := by
  induction tokens with
  | nil => exact Nat.le_refl 1
  | cons token tokens ih =>
      rw [arguments, List.length_cons]
      refine cost_turn_le ?_
      cases token.kind with
      | parenClose => exact cost_pure_le (Nat.le_succ _)
      | capture => exact cost_check_le (cost_bind_le ih fun _ => cost_pure_le (Nat.le_refl _))
      | string => exact cost_bind_le ih fun _ => cost_pure_le (Nat.le_refl _)
      | _ => exact cost_unexpected_le

theorem cost_captureMarks (names : List String) (tokens : List Token) :
    (captureMarks names tokens).cost (fun r => r.2.2.length) ≤ tokens.length := by
  fun_induction captureMarks names tokens with
  | case1 names start text rest ih =>
      refine cost_turn_le (cost_check_le (cost_check_le ?_))
      exact cost_bind_le ih fun _ => cost_pure_le (Nat.le_refl _)
  | case2 names tokens none => exact cost_pure_le (Nat.le_refl _)

end Counted

/-! ## What a state can pay -/

/-- Two turns for each token ahead, and one for each condition that is to be resolved. -/
def State.weight (s : State) : Nat := 2 * s.rest.length + s.conditions.length

theorem Moves.weight_le {allowed : Nat → Prop} {least : Nat} {s s' : State}
    (h : Moves allowed least s s') : s'.weight + least ≤ s.weight := by
  have length := h.length
  have conditions := h.conditions
  unfold State.weight
  omega

theorem State.weight_next {s : State} {token : Token} {rest : List Token}
    (here : s.rest = token :: rest) : s.weight = State.weight { s with rest } + 2 := by
  unfold State.weight
  rw [here, List.length_cons]
  dsimp only
  omega

namespace Counted

/-- The condition is paid for by the tokens of its predicate. -/
theorem cost_predicate {s : State} (ahead : s.atPredicate = true) :
    (predicate s).cost (fun s' => s'.weight + 2) ≤ s.weight + 1 := by
  obtain ⟨opening, head, rest, here, -, -⟩ := atPredicate_iff.1 ahead
  have weight : s.weight + 1 = 2 * (rest.length + 1) + (s.conditions.length + 3) := by
    simp only [State.weight, here, List.length_cons]
    omega
  unfold predicate
  rw [weight]
  simp only [here]
  cases negation? head.nameAfterSign with
  | none => exact Nat.zero_le _
  | some negated =>
      refine cost_bind_le (cost_twice_le (cost_arguments opening.start rest) _) fun found => ?_
      split
      · change 0 + (State.weight _ + 2) ≤ _
        simp only [State.weight, List.length_append, List.length_singleton]
        omega
      · exact Nat.zero_le _

section Loops

variable {ctx : Context} {inner : State → Counted (Element × State)} {opening : Nat}
  (pays : ∀ s : State, (inner s).cost (fun r => r.2.weight + 2) ≤ s.weight + 1)

include pays

theorem cost_nodeItems (budget : Nat) (s : State) :
    (nodeItems ctx inner opening budget s).cost (fun r => r.2.weight + 3) ≤ s.weight + 2 := by
  induction budget generalizing s with
  | zero => exact Nat.zero_le _
  | succ budget ih =>
      rw [nodeItems]
      refine cost_turn_le ?_
      cases here : s.rest with
      | nil => exact Nat.zero_le _
      | cons token rest =>
          have weight := s.weight_next here
          dsimp only
          split
          · exact cost_pure_le (Nat.le_of_eq (by rw [weight]))
          split
          · refine cost_lift_bind_le fun r read => cost_bind_le (Nat.le_trans (ih r.2) ?_)
              fun _ => cost_pure_le (Nat.le_refl _)
            have fewer := (moves_absentField read).weight_le
            omega
          split
          · rename_i atPredicate
            exact cost_bind_le (cost_predicate atPredicate) ih
          · refine cost_bind_le (pays s) fun r => cost_bind_le (ih r.2) fun _ => ?_
            exact cost_pure_le (Nat.le_refl _)

theorem cost_groupItems (budget : Nat) (found : Option Element) (s : State) :
    (groupItems inner opening budget found s).cost (fun r => r.2.weight + 3) ≤ s.weight + 2 := by
  induction budget generalizing found s with
  | zero => exact Nat.zero_le _
  | succ budget ih =>
      rw [groupItems]
      refine cost_turn_le ?_
      cases here : s.rest with
      | nil => exact Nat.zero_le _
      | cons token rest =>
          have weight := s.weight_next here
          dsimp only
          split
          · cases found with
            | none => exact Nat.zero_le _
            | some element => exact cost_pure_le (Nat.le_of_eq (by rw [weight]))
          split
          · rename_i atPredicate
            exact cost_bind_le (cost_predicate atPredicate) (ih found)
          · exact cost_bind_le (pays s) fun r => cost_check_le (ih (some r.1) r.2)

theorem cost_branches (budget : Nat) (s : State) :
    (branches inner opening budget s).cost (fun r => r.2.weight + 3) ≤ s.weight + 2 := by
  induction budget generalizing s with
  | zero => exact Nat.zero_le _
  | succ budget ih =>
      rw [branches]
      refine cost_turn_le ?_
      cases here : s.rest with
      | nil => exact Nat.zero_le _
      | cons token rest =>
          have weight := s.weight_next here
          dsimp only
          split
          · exact cost_pure_le (Nat.le_of_eq (by rw [weight]))
          · refine cost_bind_le (pays s) fun r => cost_bind_le (ih r.2) fun _ => ?_
            exact cost_pure_le (Nat.le_refl _)

theorem cost_atom (budget : Nat) (s : State) :
    (atom ctx inner budget s).cost (fun r => r.2.weight + 2) ≤ s.weight := by
  unfold atom
  cases here : s.rest with
  | nil => exact Nat.zero_le _
  | cons token rest =>
      rw [s.weight_next here]
      dsimp only
      cases token.kind with
      | parenOpen =>
          dsimp only
          split
          · refine Nat.le_trans (cost_mono fun r => ?_) (cost_groupItems pays budget none _)
            exact Nat.le_succ _
          split
          · exact Nat.zero_le _
          · refine cost_lift_bind_le fun r read => ?_
            have fewer := (moves_kindTest read).weight_le
            refine Nat.le_trans (cost_bind_le (cost_nodeItems pays budget r.2) fun _ => ?_) ?_
            · exact cost_pure_le (Nat.le_succ _)
            · omega
      | bracketOpen =>
          refine cost_bind_le (cost_branches pays budget _) fun r => cost_check_le ?_
          exact cost_pure_le (Nat.le_succ _)
      | string | identifier =>
          dsimp only
          split
          · exact cost_pure_le (Nat.le_refl _)
          · exact Nat.zero_le _
      | _ => exact cost_unexpected_le

theorem cost_elementWith (budget : Nat) (s : State) :
    (elementWith ctx inner budget s).cost (fun r => r.2.weight + 2) ≤ s.weight := by
  unfold elementWith
  refine cost_lift_bind_le fun lead read => ?_
  refine Nat.le_trans ?_ (moves_fieldLead read).weight_le
  refine cost_bind_le (cost_atom pays budget lead.2) fun body => ?_
  refine cost_lift_bind_le fun mark read => ?_
  have fewer : mark.2.weight ≤ body.2.weight := (moves_questionMark read).weight_le
  refine Nat.le_trans ?_ (Nat.add_le_add_right fewer 2)
  unfold State.weight
  rw [Nat.add_assoc]
  refine cost_bind_le (cost_twice_le (cost_captureMarks _ _) _) fun r => ?_
  exact cost_pure_le (Nat.le_of_eq (Nat.add_assoc _ _ _))

end Loops

theorem cost_element (ctx : Context) (budget : Nat) (s : State) :
    (element ctx budget s).cost (fun r => r.2.weight + 2) ≤ s.weight + 1 := by
  induction budget generalizing s with
  | zero => exact Nat.zero_le _
  | succ budget ih =>
      rw [element]
      exact cost_turn_le (cost_elementWith ih budget s)

theorem cost_resolveAll (names : List String) (conditions : List Condition) (more : Nat) :
    (resolveAll names conditions).cost (fun _ => more) ≤ more + conditions.length := by
  induction conditions with
  | nil => exact cost_pure_le (Nat.le_refl _)
  | cons c cs ih =>
      rw [resolveAll, List.length_cons]
      refine cost_turn_le (cost_lift_bind_le fun first _ => cost_bind_le ih fun others => ?_)
      exact cost_pure_le (Nat.le_refl _)

theorem cost_pattern (ctx : Context) (tokens : List Token) :
    (pattern ctx tokens).cost (fun r => 2 * r.2.length + 2) ≤ 2 * tokens.length + 1 := by
  refine cost_bind_le (cost_element ctx _ { rest := tokens }) fun r => ?_
  refine cost_check_le (cost_check_le ?_)
  refine Nat.le_trans (cost_bind_le (cost_resolveAll _ _ (2 * r.2.rest.length + 2)) fun _ => ?_) ?_
  · exact cost_pure_le (Nat.le_refl _)
  · unfold State.weight
    omega

theorem cost_patterns (ctx : Context) (budget : Nat) (tokens : List Token) :
    (patterns ctx budget tokens).cost (fun _ => 0) ≤ 2 * tokens.length + 2 := by
  induction budget generalizing tokens with
  | zero => cases tokens <;> exact Nat.zero_le _
  | succ budget ih =>
      cases tokens with
      | nil => exact Nat.zero_le _
      | cons token tokens =>
          refine cost_turn_le (cost_bind_le (cost_pattern ctx (token :: tokens)) fun r => ?_)
          exact cost_bind_le (ih r.2) fun _ => cost_pure_le (Nat.le_refl _)

theorem turns_patterns (ctx : Context) (budget : Nat) (tokens : List Token) :
    (patterns ctx budget tokens).turns ≤ 2 * tokens.length + 2 :=
  Nat.le_trans (turns_le_cost _ _) (cost_patterns ctx budget tokens)

theorem turns_compile (vocabulary : Vocabulary) (source : Text) :
    (compile vocabulary source).turns ≤ 2 * (Token.significant source).length + 2 := by
  refine Nat.le_trans (turns_le_cost _ fun _ => 0) ?_
  refine cost_bind_le (cost_patterns _ _ _) fun found => cost_check_le ?_
  exact cost_pure_le (Nat.le_refl _)

end Counted

/-! ## Compiling -/

def State.Advances (s s' : State) : Prop := ∃ taken, taken ≠ [] ∧ s.rest = taken ++ s'.rest

theorem Moves.advances {allowed : Nat → Prop} {least : Nat} {s s' : State}
    (h : Moves allowed (least + 1) s s') : s.Advances s' := by
  obtain ⟨taken, same⟩ := h.rest
  refine ⟨taken, ?_, same.symm⟩
  rintro rfl
  have length := h.length
  rw [← same, List.nil_append] at length
  omega

theorem Answers.ne_exhausted {allowed : Nat → Prop} {after : α → Prop}
    {x : Except CompileError α} (h : Answers allowed False after x) :
    x ≠ .error .exhausted := by
  rintro rfl
  exact h

end ParseTree.Query.Read

namespace ParseTree.Query

open Read

/-- Reading goes forward through the tokens and comes to its end.  From whatever state it starts,
what is read lies ahead and is not nothing.  A budget that exceeds the tokens ahead is not used
up, at any depth and in any loop, and more of it changes nothing.  The turns are bounded by the
tokens alone, whatever the budget. -/
structure Read.Progress (ctx : Context) : Prop where
  element : ∀ {budget : Nat} {s s' : State} {e : Element},
    Read.element ctx budget s = .ok (e, s') → s.Advances s'
  group : ∀ {depth opening budget : Nat} {s s' : State} {e : Element},
    groupItems ctx (Read.element ctx depth) opening budget none s = .ok (e, s') → s.Advances s'
  node : ∀ {depth opening budget : Nat} {s s₁ s₂ : State} {test : KindTest}
    {items : List Element × List String},
    kindTest ctx s = .ok (test, s₁) →
      nodeItems ctx (Read.element ctx depth) opening budget s₁ = .ok (items, s₂) → s.Advances s₂
  choice : ∀ {depth opening budget : Nat} {s s' : State} {elements : List Element},
    branches (Read.element ctx depth) opening budget s = .ok (elements, s') → s.Advances s'
  predicate : ∀ {s s' : State},
    s.atPredicate = true → Read.predicate s = .ok s' → s.Advances s'
  elementEnds : ∀ {budget : Nat} {s : State}, s.rest.length < budget →
    Read.element ctx budget s ≠ .error .exhausted
  groupEnds : ∀ {depth opening budget : Nat} {s : State} (found : Option Element),
    s.rest.length < depth → s.rest.length < budget →
      groupItems ctx (Read.element ctx depth) opening budget found s ≠ .error .exhausted
  nodeEnds : ∀ {depth opening budget : Nat} {s : State},
    s.rest.length < depth → s.rest.length < budget →
      nodeItems ctx (Read.element ctx depth) opening budget s ≠ .error .exhausted
  choiceEnds : ∀ {depth opening budget : Nat} {s : State},
    s.rest.length < depth → s.rest.length < budget →
      branches (Read.element ctx depth) opening budget s ≠ .error .exhausted
  patternsEnd : ∀ {budget : Nat} {tokens : List Token}, tokens.length ≤ budget →
    patterns ctx budget tokens ≠ .error .exhausted
  enough : ∀ {budget : Nat} {s : State}, s.rest.length < budget →
    Read.element ctx budget s = Read.element ctx (s.rest.length + 1) s
  enoughPatterns : ∀ {budget : Nat} {tokens : List Token}, tokens.length ≤ budget →
    patterns ctx budget tokens = patterns ctx tokens.length tokens
  counted : ∀ (budget : Nat) (tokens : List Token),
    (Counted.patterns ctx budget tokens).answer = patterns ctx budget tokens
  turns : ∀ (budget : Nat) (tokens : List Token),
    (Counted.patterns ctx budget tokens).turns ≤ 2 * tokens.length + 2

theorem Read.progress (ctx : Context) : Progress ctx where
  element read := ((keeps_element trivial _ _ (State.points_true _)).of_ok read).advances
  group read := ((reads_groupItems (keeps_element trivial _) trivial _
    (State.points_true _) id).of_ok read).advances
  node kind read := by
    have others := (reads_nodeItems trivial (keeps_element trivial _) trivial
      (State.points_true _) id).of_ok read
    exact ((moves_kindTest kind).trans others).advances
  choice read := ((reads_branches (keeps_element trivial _) trivial
    (State.points_true _) id).of_ok read).advances
  predicate ahead read := (moves_predicate ahead read).advances
  elementEnds enough := ((keeps_element trivial _ _ (State.points_true _)).spent
    (Nat.not_le_of_lt enough)).ne_exhausted
  groupEnds found deep enough := (reads_groupItems (keeps_element trivial _) trivial found
    (State.points_true _) (by omega)).ne_exhausted
  nodeEnds deep enough := (reads_nodeItems trivial (keeps_element trivial _) trivial
    (State.points_true _) (by omega)).ne_exhausted
  choiceEnds deep enough := (reads_branches (keeps_element trivial _) trivial
    (State.points_true _) (by omega)).ne_exhausted
  patternsEnd enough := (@answers_patterns (fun _ => True) _ _ _ trivial _ (fun _ _ => trivial)
    (Nat.not_lt_of_le enough)).ne_exhausted
  enough := element_eq_of_lt
  enoughPatterns := patterns_eq_of_le
  counted := Counted.answer_patterns ctx
  turns := Counted.turns_patterns ctx

/-- The offsets that a refusal may report: where a token stands, blanks and comments apart, the
end of the source, and its beginning if there is no such token. -/
def Reported (source : Text) (offset : Nat) : Prop :=
  (∃ t ∈ Token.significant source, t.start = offset) ∨ offset = source.width ∨
    (Token.significant source = [] ∧ offset = 0)

theorem answers_compile (vocabulary : Vocabulary) (source : Text) :
    Answers (Reported source) False (fun _ => True) (compile vocabulary source) := by
  have tokens : ∀ t ∈ Token.significant source, Reported source t.start :=
    fun t mem => .inl ⟨t, mem, rfl⟩
  refine (answers_patterns (.inr (.inl rfl)) tokens (Nat.lt_irrefl _)).bind fun found some => ?_
  split
  · rename_i none
    exact .inr (.inr ⟨some (List.isEmpty_iff.1 none), rfl⟩)
  · trivial

/-- Compiling comes to an end on every source: no budget is used up, the turns are bounded by the
tokens, and a refusal points into the source. -/
theorem compile_finishes (vocabulary : Vocabulary) (source : Text) :
    Progress ⟨vocabulary, source.width⟩ ∧
      compile vocabulary source ≠ .error .exhausted ∧
      (Counted.compile vocabulary source).answer = compile vocabulary source ∧
      (Counted.compile vocabulary source).turns ≤ 2 * (Token.significant source).length + 2 ∧
      ∀ offset cause, compile vocabulary source = .error (.fault offset cause) →
        Reported source offset := by
  have answers := answers_compile vocabulary source
  refine ⟨Read.progress _, answers.ne_exhausted, Counted.answer_compile _ _,
    Counted.turns_compile _ _, fun offset cause refused => ?_⟩
  rw [refused] at answers
  exact answers

end ParseTree.Query
