import ParseTree.Query.Compile

/-!
# What a query reader accepts

The successful runs of the readers as rules: a state before, what was read, and
the state behind it.  The rules leave out the budget and everything that leads
to a refusal, so facts about compiled patterns follow by induction along them.
-/

namespace ParseTree.Query.Read

theorem bind_eq_ok_iff {x : Except ε α} {f : α → Except ε β} {r : β} :
    x >>= f = .ok r ↔ ∃ a, x = .ok a ∧ f a = .ok r := by
  cases x <;> simp [bind, Except.bind]

@[simp] theorem refuse_ne_ok {offset : Nat} {cause : Fault} {r : α} :
    refuse offset cause ≠ .ok r := by
  simp [refuse]

@[simp] theorem unexpected_ne_ok {token : Token} {cause : String → Fault} {r : α} :
    unexpected token cause ≠ .ok r := by
  unfold unexpected
  split <;> simp

theorem check_eq_ok_iff {wrong : Prop} [Decidable wrong] {e : ε} {f : α → Except ε β}
    {next : Except ε β} {r : β} :
    (if wrong then .error e >>= f else next) = .ok r ↔ ¬ wrong ∧ next = .ok r := by
  by_cases h : wrong <;> simp [h, bind, Except.bind]

inductive EndsGroup : State → State → Prop
  | close {s : State} {token : Token} {rest : List Token} :
      s.rest = token :: rest → token.kind = .parenClose →
      EndsGroup s { s with rest }
  | predicate {s s' s'' : State} :
      s.atPredicate → Read.predicate s = .ok s' → EndsGroup s' s'' → EndsGroup s s''

mutual

inductive ReadsElement (ctx : Context) : State → Element → State → Prop
  | marked {s₀ s₁ s₂ s₃ : State} {field : Option String} {body : Element} {optional : Bool}
      {slots : List Nat} {names : List String} {rest : List Token} :
      fieldLead ctx s₀ = .ok (field, s₁) → ReadsAtom ctx s₁ body s₂ →
      questionMark s₂ = .ok (optional, s₃) →
      captureMarks s₃.names s₃.rest = .ok (slots, names, rest) →
      ReadsElement ctx s₀
        (body.withMark
          { field
            optional := body.mark.optional || optional
            captures := body.mark.captures ++ slots })
        { s₃ with rest, names }

inductive ReadsAtom (ctx : Context) : State → Element → State → Prop
  | node {s s₁ s₂ : State} {token : Token} {rest : List Token} {test : KindTest}
      {children : List Element} {absent : List String} :
      s.rest = token :: rest → token.kind = .parenOpen → opensGroup rest = false →
      s.atPredicate = false → kindTest ctx { s with rest } = .ok (test, s₁) →
      ReadsItems ctx s₁ children absent s₂ →
      ReadsAtom ctx s (.node test children absent {}) s₂
  | group {s s' : State} {token : Token} {rest : List Token} {e : Element} :
      s.rest = token :: rest → token.kind = .parenOpen → opensGroup rest →
      ReadsGroup ctx { s with rest } e s' →
      ReadsAtom ctx s e s'
  | choice {s s' : State} {token : Token} {rest : List Token} {branches : List Element} :
      s.rest = token :: rest → token.kind = .bracketOpen →
      ReadsBranches ctx { s with rest } branches s' → branches ≠ [] →
      ReadsAtom ctx s (.choice branches {}) s'
  | anonymous {s : State} {token : Token} {rest : List Token} :
      s.rest = token :: rest → token.kind = .string →
      ctx.vocabulary.hasKind (String.ofList (unquote token.text)) false →
      ReadsAtom ctx s (.node (.anonymous (String.ofList (unquote token.text))) [] [] {})
        { s with rest }
  | wildcard {s : State} {token : Token} {rest : List Token} :
      s.rest = token :: rest → token.kind = .identifier → token.name = "_" →
      ReadsAtom ctx s (.node .any [] [] {}) { s with rest }

inductive ReadsItems (ctx : Context) : State → List Element → List String → State → Prop
  | close {s : State} {token : Token} {rest : List Token} :
      s.rest = token :: rest → token.kind = .parenClose →
      ReadsItems ctx s [] [] { s with rest }
  | absent {s s₁ s₂ : State} {token : Token} {rest : List Token} {field : String}
      {children : List Element} {absent : List String} :
      s.rest = token :: rest → token.kind = .bang →
      absentField ctx { s with rest } = .ok (field, s₁) →
      ReadsItems ctx s₁ children absent s₂ →
      ReadsItems ctx s children (field :: absent) s₂
  | predicate {s s₁ s₂ : State} {children : List Element} {absent : List String} :
      s.atPredicate → Read.predicate s = .ok s₁ → ReadsItems ctx s₁ children absent s₂ →
      ReadsItems ctx s children absent s₂
  | child {s s₁ s₂ : State} {e : Element} {children : List Element} {absent : List String} :
      s.atPredicate = false → ReadsElement ctx s e s₁ →
      ReadsItems ctx s₁ children absent s₂ →
      ReadsItems ctx s (e :: children) absent s₂

inductive ReadsGroup (ctx : Context) : State → Element → State → Prop
  | predicate {s s₁ s₂ : State} {e : Element} :
      s.atPredicate → Read.predicate s = .ok s₁ → ReadsGroup ctx s₁ e s₂ →
      ReadsGroup ctx s e s₂
  | element {s s₁ s₂ : State} {e : Element} :
      s.atPredicate = false → ReadsElement ctx s e s₁ → EndsGroup s₁ s₂ →
      ReadsGroup ctx s e s₂

inductive ReadsBranches (ctx : Context) : State → List Element → State → Prop
  | close {s : State} {token : Token} {rest : List Token} :
      s.rest = token :: rest → token.kind = .bracketClose →
      ReadsBranches ctx s [] { s with rest }
  | branch {s s₁ s₂ : State} {e : Element} {branches : List Element} :
      ReadsElement ctx s e s₁ → ReadsBranches ctx s₁ branches s₂ →
      ReadsBranches ctx s (e :: branches) s₂

end

theorem endsGroup_of_groupItems {ctx : Context} {inner : Reader Element}
    {opening budget : Nat} {s s' : State} {found e : Element}
    (h : groupItems ctx inner opening budget (some found) s = .ok (e, s')) :
    e = found ∧ EndsGroup s s' := by
  induction budget generalizing s with
  | zero => simp [groupItems] at h
  | succ budget ih =>
      rw [groupItems] at h
      split at h
      · simp at h
      · rename_i token rest here
        split at h
        · rename_i closes
          cases h
          exact ⟨rfl, .close here closes⟩
        split at h
        · rename_i atPredicate
          obtain ⟨s₁, read, h⟩ := bind_eq_ok_iff.1 h
          obtain ⟨same, ends⟩ := ih h
          exact ⟨same, .predicate atPredicate read ends⟩
        · obtain ⟨⟨other, s₁⟩, -, h⟩ := bind_eq_ok_iff.1 h
          simp [refuse, bind, Except.bind] at h

section Loops

variable {ctx : Context} {inner : Reader Element} {opening : Nat}
  (reads : ∀ {s s' : State} {e : Element}, inner s = .ok (e, s') → ReadsElement ctx s e s')

include reads

theorem readsItems_of_nodeItems {budget : Nat} {s s' : State} {children : List Element}
    {absent : List String}
    (h : nodeItems ctx inner opening budget s = .ok ((children, absent), s')) :
    ReadsItems ctx s children absent s' := by
  induction budget generalizing s children absent with
  | zero => simp [nodeItems] at h
  | succ budget ih =>
      rw [nodeItems] at h
      split at h
      · simp at h
      · rename_i token rest here
        split at h
        · rename_i closes
          cases h
          exact .close here closes
        split at h
        · rename_i bang
          obtain ⟨⟨field, s₁⟩, lead, h⟩ := bind_eq_ok_iff.1 h
          obtain ⟨⟨⟨children, absent⟩, s₂⟩, others, h⟩ := bind_eq_ok_iff.1 h
          cases h
          exact .absent here bang lead (ih others)
        split at h
        · rename_i atPredicate
          obtain ⟨s₁, read, h⟩ := bind_eq_ok_iff.1 h
          exact .predicate atPredicate read (ih h)
        · rename_i noPredicate
          obtain ⟨⟨child, s₁⟩, read, h⟩ := bind_eq_ok_iff.1 h
          obtain ⟨⟨⟨children, absent⟩, s₂⟩, others, h⟩ := bind_eq_ok_iff.1 h
          cases h
          exact .child (by simpa using noPredicate) (reads read) (ih others)

theorem readsGroup_of_groupItems {budget : Nat} {s s' : State} {e : Element}
    (h : groupItems ctx inner opening budget none s = .ok (e, s')) :
    ReadsGroup ctx s e s' := by
  induction budget generalizing s with
  | zero => simp [groupItems] at h
  | succ budget ih =>
      rw [groupItems] at h
      split at h
      · simp at h
      split at h
      · simp at h
      split at h
      · rename_i atPredicate
        obtain ⟨s₁, read, h⟩ := bind_eq_ok_iff.1 h
        exact .predicate atPredicate read (ih h)
      · rename_i noPredicate
        obtain ⟨⟨found, s₁⟩, read, h⟩ := bind_eq_ok_iff.1 h
        obtain ⟨rfl, ends⟩ := endsGroup_of_groupItems h
        exact .element (by simpa using noPredicate) (reads read) ends

theorem readsBranches_of_branches {budget : Nat} {s s' : State} {elements : List Element}
    (h : branches inner opening budget s = .ok (elements, s')) :
    ReadsBranches ctx s elements s' := by
  induction budget generalizing s elements with
  | zero => simp [branches] at h
  | succ budget ih =>
      rw [branches] at h
      split at h
      · simp at h
      · rename_i token rest here
        split at h
        · rename_i closes
          cases h
          exact .close here closes
        · obtain ⟨⟨branch, s₁⟩, read, h⟩ := bind_eq_ok_iff.1 h
          obtain ⟨⟨others, s₂⟩, behind, h⟩ := bind_eq_ok_iff.1 h
          cases h
          exact .branch (reads read) (ih behind)

theorem readsAtom_of_atom {budget : Nat} {s s' : State} {e : Element}
    (h : atom ctx inner budget s = .ok (e, s')) : ReadsAtom ctx s e s' := by
  unfold atom at h
  split at h
  · simp at h
  · rename_i token rest here
    split at h
    · rename_i opens
      split at h
      · rename_i group
        exact .group here opens group (readsGroup_of_groupItems reads h)
      split at h
      · simp at h
      · rename_i noGroup noPredicate
        obtain ⟨⟨test, s₁⟩, kind, h⟩ := bind_eq_ok_iff.1 h
        obtain ⟨⟨⟨children, absent⟩, s₂⟩, items, h⟩ := bind_eq_ok_iff.1 h
        cases h
        exact .node here opens (by simpa using noGroup) (by simpa using noPredicate) kind
          (readsItems_of_nodeItems reads items)
    · rename_i opens
      obtain ⟨⟨elements, s₁⟩, read, h⟩ := bind_eq_ok_iff.1 h
      dsimp only at h
      obtain ⟨nonempty, h⟩ := check_eq_ok_iff.1 h
      cases h
      exact .choice here opens (readsBranches_of_branches reads read) (by simpa using nonempty)
    · rename_i string
      dsimp only at h
      split at h
      · rename_i known
        cases h
        exact .anonymous here string known
      · simp at h
    · rename_i identifier
      split at h
      · rename_i name
        cases h
        exact .wildcard here identifier name
      · simp at h
    · simp at h

end Loops

theorem readsElement_of_element {ctx : Context} {budget : Nat} {s s' : State} {e : Element}
    (h : element ctx budget s = .ok (e, s')) : ReadsElement ctx s e s' := by
  induction budget generalizing s s' e with
  | zero => simp [element] at h
  | succ budget ih =>
      rw [element, elementWith] at h
      obtain ⟨⟨field, s₁⟩, lead, h⟩ := bind_eq_ok_iff.1 h
      obtain ⟨⟨body, s₂⟩, read, h⟩ := bind_eq_ok_iff.1 h
      obtain ⟨⟨optional, s₃⟩, mark, h⟩ := bind_eq_ok_iff.1 h
      obtain ⟨⟨slots, names, rest⟩, captures, h⟩ := bind_eq_ok_iff.1 h
      cases h
      exact .marked lead (readsAtom_of_atom ih read) mark captures

theorem readsElement_of_pattern {ctx : Context} {tokens rest : List Token} {p : Pattern}
    (h : pattern ctx tokens = .ok (p, rest)) :
    ∃ s : State, ReadsElement ctx { rest := tokens } p.root s ∧ s.rest = rest ∧
      s.names = p.captureNames ∧ p.root.mark.field = none ∧ p.root.mark.optional = false ∧
      s.conditions.mapM (Condition.resolve s.names) = .ok p.predicates ∧
      p.start = ctx.offset { rest := tokens } := by
  rw [pattern] at h
  obtain ⟨⟨root, s⟩, read, h⟩ := bind_eq_ok_iff.1 h
  dsimp only at h
  obtain ⟨noField, h⟩ := check_eq_ok_iff.1 h
  obtain ⟨required, h⟩ := check_eq_ok_iff.1 h
  obtain ⟨predicates, resolved, h⟩ := bind_eq_ok_iff.1 h
  cases h
  exact ⟨s, readsElement_of_element read, rfl, rfl, by simpa using noField,
    by simpa using required, resolved, rfl⟩

theorem patterns_nil (ctx : Context) (budget : Nat) : patterns ctx budget [] = .ok [] := by
  cases budget <;> rfl

theorem exists_pattern_of_mem_patterns {ctx : Context} {budget : Nat} {tokens : List Token}
    {found : List Pattern} (h : patterns ctx budget tokens = .ok found) {p : Pattern}
    (mem : p ∈ found) : ∃ before rest, pattern ctx before = .ok (p, rest) := by
  induction budget generalizing tokens found with
  | zero =>
      cases tokens with
      | nil =>
          rw [patterns_nil] at h
          cases h
          simp at mem
      | cons token tokens => simp [patterns] at h
  | succ budget ih =>
      cases tokens with
      | nil =>
          rw [patterns_nil] at h
          cases h
          simp at mem
      | cons token tokens =>
          rw [patterns] at h
          · obtain ⟨⟨first, rest⟩, read, h⟩ := bind_eq_ok_iff.1 h
            obtain ⟨others, behind, h⟩ := bind_eq_ok_iff.1 h
            cases h
            rcases List.mem_cons.1 mem with rfl | later
            · exact ⟨_, _, read⟩
            · exact ih behind later
          · simp

end Read

theorem exists_pattern_of_compile {vocabulary : Vocabulary} {source : Text}
    {found : List Pattern} (h : compile vocabulary source = .ok found) {p : Pattern}
    (mem : p ∈ found) :
    ∃ tokens rest, Read.pattern ⟨vocabulary, source.width⟩ tokens = .ok (p, rest) := by
  rw [compile] at h
  obtain ⟨patterns, read, h⟩ := Read.bind_eq_ok_iff.1 h
  dsimp only at h
  obtain ⟨-, h⟩ := Read.check_eq_ok_iff.1 h
  cases h
  exact Read.exists_pattern_of_mem_patterns read mem

end ParseTree.Query
