import ParseTree.Proofs.Query.RoundTrip

/-!
# Readings in another place

What is read off some tokens does not depend on where these stand in the source, nor on
the tokens that follow, as long as these cannot prolong an element.  So a query can be
read again as a part of a longer one: its patterns are the same and start as much later
as their tokens do.
-/

namespace ParseTree

namespace Query

def Pattern.moved (n : Nat) (p : Pattern) : Pattern := { p with start := p.start + n }

@[simp] theorem Pattern.moved_zero : Pattern.moved 0 = id := rfl

namespace Read

def CaptureRef.moved (n : Nat) (ref : CaptureRef) : CaptureRef :=
  { ref with offset := ref.offset + n }

def Argument.moved (n : Nat) : Argument → Argument
  | .text t => .text t
  | .capture ref => .capture (ref.moved n)

def Condition.moved (n : Nat) (c : Condition) : Condition :=
  { c with capture := c.capture.moved n, operand := c.operand.moved n }

def State.moved (n : Nat) (more : List Token) (s : State) : State where
  rest := s.rest.map (Lexeme.moved n) ++ more
  names := s.names
  conditions := s.conditions.map (Condition.moved n)

variable {v : Vocabulary} {length : Nat} {s s' : State} {more : List Token} (n length' : Nat)

/-! ## The small readers -/

theorem rest_moved {t : Token} {rest : List Token} (here : s.rest = t :: rest) :
    (s.moved n more).rest = t.moved n :: (rest.map (Lexeme.moved n) ++ more) := by
  rw [State.moved, here]
  rfl

theorem fieldLead_moved {field : Option String} (ends : Ends more) (nonempty : s.rest ≠ [])
    (h : fieldLead ⟨v, length⟩ s = .ok (field, s')) :
    fieldLead ⟨v, length'⟩ (s.moved n more) = .ok (field, s'.moved n more) := by
  rw [fieldLead_eq_ok_iff] at h ⊢
  obtain ⟨name, colon, rest, here, isName, isColon, known, rfl, rfl⟩ | ⟨other, rfl, rfl⟩ := h
  · exact .inl ⟨_, _, _, rest_moved n here, isName, isColon, known, rfl, rfl⟩
  · refine .inr ⟨?_, rfl, rfl⟩
    rintro ⟨name, colon, rest, same, isName, isColon⟩
    obtain ⟨t, tokens, here⟩ := List.exists_cons_of_ne_nil nonempty
    rw [rest_moved n here] at same
    cases tokens with
    | nil =>
        cases same
        exact (ends colon rfl).1 isColon
    | cons u tokens =>
        cases same
        exact other ⟨t, u, tokens, here, isName, isColon⟩

theorem questionMark_moved {optional : Bool} (ends : Ends more)
    (h : questionMark s = .ok (optional, s')) :
    questionMark (s.moved n more) = .ok (optional, s'.moved n more) := by
  rw [questionMark_eq_ok_iff] at h ⊢
  obtain ⟨t, rest, here, isQuestion, rfl, rfl⟩ | ⟨other, rfl, same⟩ := h
  · exact .inl ⟨_, _, rest_moved n here, isQuestion, rfl, rfl⟩
  · refine .inr ⟨?_, rfl, by rw [same]⟩
    intro t mem
    cases tokens : s.rest with
    | nil =>
        rw [State.moved, tokens] at mem
        obtain ⟨-, question, star, plus, -⟩ := ends t mem
        exact ⟨question, star, plus⟩
    | cons u rest =>
        rw [rest_moved n tokens] at mem
        obtain rfl := Option.some.inj mem
        exact other u (by rw [tokens]; rfl)

theorem captureMarks_moved {names names' : List String} {tokens rest : List Token}
    {slots : List Nat} (ends : Ends more)
    (h : captureMarks names tokens = .ok (slots, names', rest)) :
    captureMarks names (tokens.map (Lexeme.moved n) ++ more) =
      .ok (slots, names', rest.map (Lexeme.moved n) ++ more) := by
  induction tokens generalizing names slots with
  | nil =>
      cases h
      rw [List.map_nil, List.nil_append]
      unfold captureMarks
      split
      · exact absurd rfl (ends _ rfl).2.2.2.2
      · rfl
  | cons token tokens ih =>
      unfold captureMarks at h
      split at h
      · rename_i start text rest' same
        cases same
        dsimp only at h
        obtain ⟨nonempty, h⟩ := check_eq_ok_iff.1 h
        obtain ⟨fresh, h⟩ := check_eq_ok_iff.1 h
        obtain ⟨⟨later, names'', rest'⟩, read, h⟩ := bind_eq_ok_iff.1 h
        cases h
        rw [List.map_cons, List.cons_append, Lexeme.moved, captureMarks]
        exact check_eq_ok_iff.2 ⟨nonempty, check_eq_ok_iff.2 ⟨fresh,
          bind_eq_ok_iff.2 ⟨_, ih read, rfl⟩⟩⟩
      · rename_i other
        cases h
        unfold captureMarks
        split
        · rename_i start text rest' same
          obtain ⟨kind, start', text'⟩ := token
          cases same
          exact absurd rfl (other start' text' tokens)
        · rfl

theorem missingKind_moved {kind : Option String} (nonempty : s'.rest ≠ [])
    (h : missingKind ⟨v, length⟩ s = .ok (kind, s')) :
    missingKind ⟨v, length'⟩ (s.moved n more) = .ok (kind, s'.moved n more) := by
  unfold missingKind at h
  split at h
  · rename_i start text rest here
    dsimp only at h
    split at h
    · rename_i known
      cases h
      simp only [missingKind, rest_moved n here, Lexeme.moved]
      exact if_pos known
    · simp at h
  · rename_i start text rest here
    dsimp only at h
    split at h
    · rename_i known
      cases h
      simp only [missingKind, rest_moved n here, Lexeme.moved]
      exact if_pos known
    · simp at h
  · rename_i noString noName
    cases h
    obtain ⟨⟨sort, start, text⟩, rest, here⟩ := List.exists_cons_of_ne_nil nonempty
    apply missingKind_of_bare
    rw [rest_moved n here]
    intro u mem
    obtain rfl := Option.some.inj mem
    constructor
    · rintro rfl
      exact noName _ _ _ here
    · rintro rfl
      exact noString _ _ _ here

theorem kindTest_moved {test : KindTest} (nonempty : s'.rest ≠ [])
    (h : kindTest ⟨v, length⟩ s = .ok (test, s')) :
    kindTest ⟨v, length'⟩ (s.moved n more) = .ok (test, s'.moved n more) := by
  unfold kindTest at h
  split at h
  · rename_i start text rest here
    simp only [kindTest, rest_moved n here, Lexeme.moved]
    dsimp only at h
    split at h
    · rename_i wildcard
      cases h
      exact if_pos wildcard
    rename_i noWildcard
    rw [if_neg noWildcard]
    split at h
    · rename_i error
      cases h
      exact if_pos error
    rename_i noError
    rw [if_neg noError]
    split at h
    · rename_i missing
      obtain ⟨⟨kind, s₁⟩, read, h⟩ := bind_eq_ok_iff.1 h
      cases h
      rw [if_pos missing]
      exact bind_eq_ok_iff.2 ⟨_, missingKind_moved n length' nonempty read, rfl⟩
    rename_i noMissing
    rw [if_neg noMissing]
    split at h
    · rename_i known
      cases h
      exact if_pos known
    · simp at h
  · simp at h

theorem absentField_moved {field : String} (unnamed : v.hasField "" = false)
    (h : absentField ⟨v, length⟩ s = .ok (field, s')) :
    absentField ⟨v, length'⟩ (s.moved n more) = .ok (field, s'.moved n more) := by
  obtain ⟨t, isName, consumed⟩ := absentField_consumes unnamed h
  have known := consumed.known _ List.mem_cons_self
  have here : s.rest = t :: s'.rest := consumed.rest
  generalize s'.rest = rest at here
  obtain ⟨rfl, rfl⟩ :=
    Prod.mk.inj (Except.ok.inj (h.symm.trans (absentField_eq_ok here isName known)))
  exact @absentField_eq_ok _ _ (t.moved n) _ (rest_moved n here) isName known

theorem arguments_moved {opening opening' : Nat} {tokens rest : List Token} {found : List Argument}
    (h : arguments opening tokens = .ok (found, rest)) :
    arguments opening' (tokens.map (Lexeme.moved n) ++ more) =
      .ok (found.map (Argument.moved n), rest.map (Lexeme.moved n) ++ more) := by
  induction found generalizing tokens with
  | nil =>
      obtain ⟨t, rfl, closes⟩ := arguments_nil_eq_ok h
      exact arguments_close closes
  | cons first others ih =>
      obtain ⟨t, tokens, rfl, read, kind⟩ := arguments_cons_eq_ok h
      obtain ⟨isCapture, named, rfl⟩ | ⟨isString, rfl⟩ := kind
      · exact @arguments_capture _ (t.moved n) _ _ _ isCapture named (ih read)
      · exact @arguments_text _ (t.moved n) _ _ _ isString (ih read)

theorem predicate_moved (ahead : s.atPredicate = true) (h : predicate s = .ok s') :
    (s.moved n more).atPredicate = true ∧ predicate (s.moved n more) = .ok (s'.moved n more) := by
  obtain ⟨opening, head, rest, here, opens, isHead⟩ := atPredicate_iff.1 ahead
  have here' := @rest_moved s more n _ _ here
  refine ⟨atPredicate_iff.2 ⟨_, _, _, here', opens, isHead⟩, ?_⟩
  simp only [predicate, here] at h
  split at h
  · rename_i negated known
    obtain ⟨⟨read, rest'⟩, arguments, h⟩ := bind_eq_ok_iff.1 h
    split at h
    · rename_i capture operand rest'' same
      cases same
      cases h
      rw [predicate_eq_ok here' known (arguments_moved n arguments)]
      simp [State.moved, Condition.moved]
    · simp at h
  · simp at h

theorem EndsGroup.moved (h : EndsGroup s s') : EndsGroup (s.moved n more) (s'.moved n more) := by
  induction h with
  | close here closes => exact .close (rest_moved n here) closes
  | predicate ahead read _ ih =>
      obtain ⟨ahead', read'⟩ := predicate_moved n ahead read
      exact .predicate ahead' read' ih

theorem opensGroup_moved {rest : List Token} (h : opensGroup rest = true) :
    opensGroup (rest.map (Lexeme.moved n) ++ more) = true := by
  rw [opensGroup_iff] at h ⊢
  obtain ⟨t, mem, kind⟩ := h
  obtain ⟨rest, rfl⟩ := List.head?_eq_some_iff.1 mem
  exact ⟨t.moved n, rfl, kind⟩

/-! ## Elements -/

mutual

theorem ReadsElement.moved (unnamed : v.hasField "" = false) (ends : Ends more) :
    ∀ {s s' : State} {e : Element}, ReadsElement ⟨v, length⟩ s e s' →
    ReadsElement ⟨v, length'⟩ (s.moved n more) e (s'.moved n more)
  | _, _, _, .marked lead atom question captures => by
      have progress := (ReadsElement.marked lead atom question captures).progress unnamed
      exact .marked (fieldLead_moved n length' ends (List.ne_nil_of_length_pos (by omega)) lead)
        (atom.moved unnamed ends) (questionMark_moved n ends question)
        (captureMarks_moved n ends captures)

theorem ReadsAtom.moved (unnamed : v.hasField "" = false) (ends : Ends more) :
    ∀ {s s' : State} {e : Element}, ReadsAtom ⟨v, length⟩ s e s' →
    ReadsAtom ⟨v, length'⟩ (s.moved n more) e (s'.moved n more)
  | _, _, _, .node here opens _ _ kind items => by
      have progress := items.progress unnamed
      exact readsAtom_of_kindTest (rest_moved n here) opens
        (kindTest_moved n length' (List.ne_nil_of_length_pos (by omega)) kind)
        (items.moved unnamed ends)
  | _, _, _, .group here opens group inside =>
      .group (rest_moved n here) opens (opensGroup_moved n group) (inside.moved unnamed ends)
  | _, _, _, .choice here opens branches nonempty =>
      .choice (rest_moved n here) opens (branches.moved unnamed ends) nonempty
  | _, _, _, .anonymous here string known =>
      @ReadsAtom.anonymous _ _ (Lexeme.moved n _) _ (rest_moved n here) string known
  | _, _, _, .wildcard here identifier name => .wildcard (rest_moved n here) identifier name

theorem ReadsItems.moved (unnamed : v.hasField "" = false) (ends : Ends more) :
    ∀ {s s' : State} {children : List Element} {absent : List String},
    ReadsItems ⟨v, length⟩ s children absent s' →
    ReadsItems ⟨v, length'⟩ (s.moved n more) children absent (s'.moved n more)
  | _, _, _, _, .close here closes => .close (rest_moved n here) closes
  | _, _, _, _, .absent here bang field items =>
      .absent (rest_moved n here) bang (absentField_moved n length' unnamed field)
        (items.moved unnamed ends)
  | _, _, _, _, .predicate ahead read items => by
      obtain ⟨ahead', read'⟩ := predicate_moved n ahead read
      exact .predicate ahead' read' (items.moved unnamed ends)
  | _, _, _, _, .child _ element items => by
      have first := element.moved unnamed ends
      exact .child (first.not_atPredicate unnamed) first (items.moved unnamed ends)

theorem ReadsGroup.moved (unnamed : v.hasField "" = false) (ends : Ends more) :
    ∀ {s s' : State} {e : Element}, ReadsGroup ⟨v, length⟩ s e s' →
    ReadsGroup ⟨v, length'⟩ (s.moved n more) e (s'.moved n more)
  | _, _, _, .predicate ahead read group => by
      obtain ⟨ahead', read'⟩ := predicate_moved n ahead read
      exact .predicate ahead' read' (group.moved unnamed ends)
  | _, _, _, .element _ element behind => by
      have first := element.moved unnamed ends
      exact .element (first.not_atPredicate unnamed) first (behind.moved n)

theorem ReadsBranches.moved (unnamed : v.hasField "" = false) (ends : Ends more) :
    ∀ {s s' : State} {branches : List Element}, ReadsBranches ⟨v, length⟩ s branches s' →
    ReadsBranches ⟨v, length'⟩ (s.moved n more) branches (s'.moved n more)
  | _, _, _, .close here closes => .close (rest_moved n here) closes
  | _, _, _, .branch element branches =>
      .branch (element.moved unnamed ends) (branches.moved unnamed ends)

end

/-! ## Patterns -/

theorem resolve_moved {names : List String} {ref : CaptureRef} {slot : Nat}
    (h : resolve names ref = .ok slot) : resolve names (ref.moved n) = .ok slot := by
  rw [resolve_eq_ok_iff] at h ⊢
  exact h

theorem Condition.resolve_moved {names : List String} {c : Condition} {q : Predicate}
    (h : c.resolve names = .ok q) : (c.moved n).resolve names = .ok q := by
  obtain ⟨negated, capture, operand⟩ := c
  cases operand with
  | text t =>
      obtain ⟨_, first, h⟩ := bind_eq_ok_iff.1 h
      obtain ⟨slot, found, h⟩ := bind_eq_ok_iff.1 h
      exact bind_eq_ok_iff.2 ⟨_, first, bind_eq_ok_iff.2 ⟨slot, Read.resolve_moved n found, h⟩⟩
  | capture ref =>
      obtain ⟨compared, first, h⟩ := bind_eq_ok_iff.1 h
      obtain ⟨slot, found, h⟩ := bind_eq_ok_iff.1 h
      refine bind_eq_ok_iff.2 ⟨compared, ?_,
        bind_eq_ok_iff.2 ⟨slot, Read.resolve_moved n found, h⟩⟩
      cases other : Read.resolve names ref with
      | ok slot' => rw [Read.resolve_moved n other, ← first, other]
      | error e => simp [other, Functor.map, Except.map] at first

theorem pattern_moved (unnamed : v.hasField "" = false) (ends : Ends more)
    {tokens rest : List Token} {p : Pattern} (h : pattern ⟨v, length⟩ tokens = .ok (p, rest)) :
    pattern ⟨v, length'⟩ (tokens.map (Lexeme.moved n) ++ more) =
      .ok (p.moved n, rest.map (Lexeme.moved n) ++ more) := by
  obtain ⟨t, tokens, rfl, -⟩ := (pattern_progress unnamed h).2
  obtain ⟨root, names, predicates, start⟩ := p
  obtain ⟨s, read, rfl, rfl, noField, required, resolved, rfl⟩ := readsElement_of_pattern h
  refine pattern_of_readsElement unnamed (read.moved n length' unnamed ends) noField required ?_
  rw [mapM_eq_ok_iff] at resolved ⊢
  exact List.forall₂_map_left_iff.2 (resolved.imp fun _ _ => Condition.resolve_moved n)

theorem ReadsPatterns.moved (unnamed : v.hasField "" = false) {tokens : List Token}
    {found others : List Pattern} (first : ReadsPatterns ⟨v, length⟩ tokens found)
    (second : ReadsPatterns ⟨v, length'⟩ more others) :
    ReadsPatterns ⟨v, length'⟩ (tokens.map (Lexeme.moved n) ++ more)
      (found.map (Pattern.moved n) ++ others) := by
  induction first with
  | nil => exact second
  | cons read _ ih =>
      exact .cons (pattern_moved n length' unnamed (second.ends unnamed) read) ih

end Read

end Query

end ParseTree
