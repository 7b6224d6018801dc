import ParseTree.Proofs.Query.Acceptance

/-!
# Fields of compiled queries

Which of the fields written in a query are found on the compiled elements.  A scan
of the tokens lists all names in front of a colon and marks those that lead a
group: between them and its opening parenthesis stand predicates only.  The
compiled elements carry, in the order of writing, exactly the fields that lead no
group; a group stands for the element inside it, with the field in front of the
parenthesis in place of the one behind.
-/

namespace ParseTree.Query

mutual

def Element.preorder : Element → List Element
  | .node test children absent mark => .node test children absent mark :: preorderAll children
  | .choice branches mark => .choice branches mark :: preorderAll branches

def preorderAll : List Element → List Element
  | [] => []
  | e :: es => e.preorder ++ preorderAll es

end

def Element.fields (e : Element) : List String := e.preorder.filterMap (·.mark.field)

def Element.innerFields (e : Element) : List String := e.preorder.tail.filterMap (·.mark.field)

def fieldsAll (es : List Element) : List String := (preorderAll es).filterMap (·.mark.field)

theorem Element.preorder_eq (e : Element) : e.preorder = e :: e.preorder.tail := by
  cases e <;> rfl

theorem Element.fields_eq (e : Element) : e.fields = e.mark.field.toList ++ e.innerFields := by
  rw [Element.fields, e.preorder_eq, List.filterMap_cons, Element.innerFields]
  cases e.mark.field <;> rfl

theorem Element.innerFields_withMark (e : Element) (mark : Mark) :
    (e.withMark mark).innerFields = e.innerFields := by
  cases e <;> rfl

theorem fieldsAll_cons (e : Element) (es : List Element) :
    fieldsAll (e :: es) = e.fields ++ fieldsAll es := by
  simp [fieldsAll, Element.fields, preorderAll]

/-! ## Written fields -/

def Token.isField (t : Token) (rest : List Token) : Bool :=
  t.kind == .identifier && (rest.head?.map Lexeme.kind) == some .colon

def fieldNames : List Token → List String
  | [] => []
  | t :: rest => if t.isField rest then t.name :: fieldNames rest else fieldNames rest

inductive Spot where
  /-- Between the last opening parenthesis and here stand predicates only. -/
  | lead
  /-- Inside such a predicate. -/
  | predicate
  | elsewhere
  deriving DecidableEq, Repr

def startsPredicate (rest : List Token) : Bool := (rest.head?.map Lexeme.kind) == some .predicate

def Spot.next (spot : Spot) (t : Token) (rest : List Token) : Spot :=
  match spot, t.kind with
  | .predicate, .parenClose => .lead
  | .predicate, _ => .predicate
  | .lead, .parenOpen => if startsPredicate rest then .predicate else .lead
  | .elsewhere, .parenOpen => if startsPredicate rest then .elsewhere else .lead
  | _, _ => .elsewhere

def fieldPlaces (spot : Spot) : List Token → List (String × Spot)
  | [] => []
  | t :: rest =>
      if t.isField rest then (t.name, spot) :: fieldPlaces (spot.next t rest) rest
      else fieldPlaces (spot.next t rest) rest

/-- The written fields that lead no group. -/
def keptFields (spot : Spot) (tokens : List Token) : List String :=
  ((fieldPlaces spot tokens).filter (·.2 ≠ .lead)).map Prod.fst

theorem map_fst_fieldPlaces (spot : Spot) (tokens : List Token) :
    (fieldPlaces spot tokens).map Prod.fst = fieldNames tokens := by
  induction tokens generalizing spot with
  | nil => rfl
  | cons t rest ih =>
      rw [fieldPlaces, fieldNames]
      split
      · rw [List.map_cons, ih]
      · rw [ih]

theorem keptFields_eq_fieldNames_iff (spot : Spot) (tokens : List Token) :
    keptFields spot tokens = fieldNames tokens ↔
      ∀ place ∈ fieldPlaces spot tokens, place.2 ≠ .lead := by
  rw [← map_fst_fieldPlaces spot, keptFields]
  constructor
  · intro same place mem
    have lengths := congrArg List.length same
    rw [List.length_map, List.length_map] at lengths
    have all := List.length_filter_eq_length_iff.1 lengths
    simpa using all place mem
  · intro all
    rw [List.filter_eq_self.2]
    simpa using all

/-! ## Steps of the scan -/

section Scan

variable {t : Token} {rest : List Token} {spot : Spot}

theorem Token.isField_eq_false (h : t.kind ≠ .identifier ∨ ∀ u ∈ rest.head?, u.kind ≠ .colon) :
    t.isField rest = false := by
  rw [Token.isField, Bool.and_eq_false_iff]
  rcases h with h | h
  · exact .inl (by simpa using h)
  · refine .inr ?_
    cases rest with
    | nil => rfl
    | cons u rest => simpa using h u rfl

theorem keptFields_next (h : t.isField rest = false) :
    keptFields spot (t :: rest) = keptFields (spot.next t rest) rest := by
  simp [keptFields, fieldPlaces, h]

theorem keptFields_skip (outside : spot ≠ .predicate) (kind : t.kind ≠ .parenOpen)
    (h : t.isField rest = false) : keptFields spot (t :: rest) = keptFields .elsewhere rest := by
  rw [keptFields_next h]
  unfold Spot.next
  split <;> simp_all

theorem keptFields_sign (outside : spot ≠ .predicate)
    (kind : t.kind ≠ .identifier ∧ t.kind ≠ .parenOpen) :
    keptFields spot (t :: rest) = keptFields .elsewhere rest :=
  keptFields_skip outside kind.2 (Token.isField_eq_false (.inl kind.1))

theorem keptFields_name (outside : spot ≠ .predicate) (kind : t.kind = .identifier)
    (noColon : ∀ u ∈ rest.head?, u.kind ≠ .colon) :
    keptFields spot (t :: rest) = keptFields .elsewhere rest :=
  keptFields_skip outside (by simp [kind]) (Token.isField_eq_false (.inr noColon))

theorem keptFields_open (outside : spot ≠ .predicate) (kind : t.kind = .parenOpen)
    (h : startsPredicate rest = false) :
    keptFields spot (t :: rest) = keptFields .lead rest := by
  rw [keptFields_next (Token.isField_eq_false (.inl (by simp [kind])))]
  cases spot with
  | predicate => exact absurd rfl outside
  | lead | elsewhere => simp [Spot.next, kind, h]

theorem keptFields_field {name colon : Token} (isName : name.kind = .identifier)
    (isColon : colon.kind = .colon) :
    keptFields .elsewhere (name :: colon :: rest) = name.name :: keptFields .elsewhere rest ∧
      keptFields .lead (name :: colon :: rest) = keptFields .elsewhere rest := by
  have here : name.isField (colon :: rest) = true := by simp [Token.isField, isName, isColon]
  have noName : colon.isField rest = false := Token.isField_eq_false (.inl (by simp [isColon]))
  simp [keptFields, fieldPlaces, here, noName, Spot.next, isName, isColon]

theorem keptFields_captures {captures : List Token} (all : ∀ u ∈ captures, u.kind = .capture) :
    keptFields .elsewhere (captures ++ rest) = keptFields .elsewhere rest := by
  induction captures with
  | nil => rfl
  | cons u captures ih =>
      obtain ⟨kind, others⟩ := List.forall_mem_cons.1 all
      rw [List.cons_append, keptFields_sign (by decide) (by simp [kind]), ih others]

theorem keptFields_predicate {ts : List Token} {ms : List Mention} (h : IsPredicate ts ms)
    (outside : spot ≠ .predicate) : keptFields spot (ts ++ rest) = keptFields spot rest := by
  cases h with
  | withCapture opens isHead _ isCapture isOperand closes
  | withText opens isHead _ isCapture isOperand closes =>
      cases spot with
      | predicate => exact absurd rfl outside
      | lead | elsewhere =>
          simp [keptFields, fieldPlaces, Token.isField, Spot.next, startsPredicate, opens, isHead,
            isCapture, isOperand, closes]

theorem keptFields_kind {following ts : List Token} {ms : List Mention}
    (h : IsKind following ts ms) (outside : spot ≠ .predicate)
    (noColon : ∀ u ∈ rest.head?, u.kind ≠ .colon) :
    keptFields spot (ts ++ rest) = keptFields .elsewhere rest := by
  cases h with
  | word kind | named kind | missing kind => exact keptFields_name outside kind noColon
  | missingNamed kind _ kind' =>
      rw [List.cons_append, keptFields_name outside kind (by simp [kind'])]
      exact keptFields_name (by decide) kind' noColon
  | missingText kind _ kind' =>
      rw [List.cons_append, keptFields_name outside kind (by simp [kind'])]
      exact keptFields_sign (by decide) (by simp [kind'])

end Scan

namespace Read

theorem startsPredicate_eq_false {s : State} {t : Token} {rest : List Token}
    (here : s.rest = t :: rest) (opens : t.kind = .parenOpen) (h : s.atPredicate = false) :
    startsPredicate rest = false := by
  refine Bool.eq_false_iff.2 fun starts => ?_
  cases rest with
  | nil => cases starts
  | cons u rest =>
      have isHead : u.kind = .predicate := by simpa [startsPredicate] using starts
      simp [atPredicate_iff.2 ⟨t, u, rest, here, opens, isHead⟩] at h

theorem startsPredicate_of_opensGroup {rest : List Token} (h : opensGroup rest = true) :
    startsPredicate rest = false := by
  obtain ⟨t, mem, kind⟩ := opensGroup_iff.1 h
  have found : rest.head? = some t := mem
  rcases kind with kind | kind | kind <;> simp [startsPredicate, found, kind]

theorem marks_kept {s₁ s₂ : State} {optional : Bool} {slots : List Nat} {names : List String}
    {rest : List Token} (question : questionMark s₁ = .ok (optional, s₂))
    (captures : captureMarks s₂.names s₂.rest = .ok (slots, names, rest)) (ends : Ends rest) :
    keptFields .elsewhere s₁.rest = keptFields .elsewhere rest ∧
      ∀ t ∈ s₁.rest.head?, t.kind ≠ .colon := by
  obtain ⟨marks, taken, all, -, -⟩ := captureMarks_eq_ok captures
  have isCapture : ∀ t ∈ marks, t.kind = .capture := fun t mem => (all t mem).1
  have behind : keptFields .elsewhere s₂.rest = keptFields .elsewhere rest := by
    rw [taken, keptFields_captures isCapture]
  obtain ⟨t, rest', here, kind, -, rfl⟩ | ⟨-, -, rfl⟩ := questionMark_eq_ok_iff.1 question
  · rw [here, keptFields_sign (by decide) (by simp [kind])]
    exact ⟨behind, by simp [kind]⟩
  · refine ⟨behind, ?_⟩
    rw [taken]
    exact fun t mem => (ends.captures isCapture t mem).1

theorem EndsGroup.ends {s s' : State} (h : EndsGroup s s') : Ends s.rest := by
  cases h with
  | close here closes => exact here ▸ ends_cons (.inl closes)
  | predicate ahead =>
      obtain ⟨t, u, rest, here, opens, -⟩ := atPredicate_iff.1 ahead
      exact here ▸ (Starts.ends ⟨t, _, rfl, .inr (.inl opens)⟩)

theorem EndsGroup.kept (ctx : Context) {s s' : State} (h : EndsGroup s s') :
    keptFields .elsewhere s.rest = keptFields .elsewhere s'.rest := by
  induction h with
  | close here closes =>
      rw [here, keptFields_sign (by decide) (by simp [closes])]
  | predicate ahead read _ ih =>
      obtain ⟨ts, ms, isPredicate, consumed⟩ := isPredicate_of_predicate ctx ahead read
      rw [consumed.rest, keptFields_predicate isPredicate (by decide), ih]

theorem ReadsItems.ends {ctx : Context} (unnamed : ctx.vocabulary.hasField "" = false)
    {s s' : State} {children : List Element} {absent : List String}
    (h : ReadsItems ctx s children absent s') : Ends s.rest := by
  obtain ⟨ts, ms, closing, closes, consumed, isItems⟩ := h.isItems unnamed
  exact consumed.rest ▸ isItems.ends closes s'.rest

theorem ReadsBranches.ends {ctx : Context} (unnamed : ctx.vocabulary.hasField "" = false)
    {s s' : State} {branches : List Element} (h : ReadsBranches ctx s branches s') :
    Ends s.rest := by
  obtain ⟨ts, ms, closing, closes, consumed, isBranches, -⟩ := h.isBranches unnamed
  exact consumed.rest ▸ isBranches.ends closes s'.rest

mutual

/-- The group around an element decides about its field, so where an element leads a
group only the fields inside it are kept. -/
theorem ReadsElement.kept {ctx : Context} (unnamed : ctx.vocabulary.hasField "" = false) :
    ∀ {s s' : State} {e : Element}, ReadsElement ctx s e s' → Ends s'.rest →
    keptFields .elsewhere s.rest = e.fields ++ keptFields .elsewhere s'.rest ∧
      keptFields .lead s.rest = e.innerFields ++ keptFields .elsewhere s'.rest
  | _, _, _, .marked lead atom question captures, ends => by
      obtain ⟨behind, noColon⟩ := marks_kept question captures ends
      have inside := @ReadsAtom.kept ctx unnamed _ _ _ atom noColon
      rw [Element.fields_eq, Element.innerFields_withMark, Element.mark_withMark, ← behind]
      obtain ⟨name, colon, rest, here, isName, isColon, -, rfl, rfl⟩ | ⟨-, rfl, rfl⟩ :=
        fieldLead_eq_ok_iff.1 lead
      · -- behind the colon the atom no longer leads
        obtain ⟨kept, lost⟩ := keptFields_field isName isColon
        rw [here, kept, lost, inside (by decide)]
        exact ⟨rfl, rfl⟩
      · exact ⟨inside (by decide), inside (by decide)⟩

theorem ReadsAtom.kept {ctx : Context} (unnamed : ctx.vocabulary.hasField "" = false) :
    ∀ {s s' : State} {e : Element}, ReadsAtom ctx s e s' →
    (∀ t ∈ s'.rest.head?, t.kind ≠ .colon) → ∀ {spot : Spot}, spot ≠ .predicate →
    keptFields spot s.rest = e.innerFields ++ keptFields .elsewhere s'.rest
  | _, _, _, .node here opens _ noPredicate kind items, _, _, outside => by
      obtain ⟨ts, ms, isKind, consumed⟩ := isKind_of_kindTest kind
      have ahead := consumed.rest
      dsimp only at ahead
      rw [here, keptFields_open outside opens (startsPredicate_eq_false here opens noPredicate),
        ahead, keptFields_kind isKind (by decide) (fun t mem => (items.ends unnamed t mem).1),
        items.kept unnamed]
      rfl
  | _, _, _, .group here opens group inside, _, _, outside => by
      rw [here, keptFields_open outside opens (startsPredicate_of_opensGroup group)]
      exact inside.kept unnamed
  | _, _, _, .choice here opens branches _, _, _, outside => by
      rw [here, keptFields_sign outside (by simp [opens])]
      exact branches.kept unnamed
  | _, _, _, .anonymous here string _, _, _, outside => by
      rw [here, keptFields_sign outside (by simp [string])]
      rfl
  | _, _, _, .wildcard here identifier _, noColon, _, outside => by
      rw [here, keptFields_name outside identifier noColon]
      rfl

theorem ReadsItems.kept {ctx : Context} (unnamed : ctx.vocabulary.hasField "" = false) :
    ∀ {s s' : State} {children : List Element} {absent : List String},
    ReadsItems ctx s children absent s' →
    keptFields .elsewhere s.rest = fieldsAll children ++ keptFields .elsewhere s'.rest
  | _, _, _, _, .close here closes => by
      rw [here, keptFields_sign (by decide) (by simp [closes])]
      rfl
  | _, _, _, _, .absent here bang field items => by
      obtain ⟨name, isName, consumed⟩ := absentField_consumes unnamed field
      have ahead := consumed.rest
      dsimp only at ahead
      rw [here, keptFields_sign (by decide) (by simp [bang]), ahead, List.singleton_append,
        keptFields_name (by decide) isName fun t mem => (items.ends unnamed t mem).1,
        items.kept unnamed]
  | _, _, _, _, .predicate ahead read items => by
      obtain ⟨ts, ms, isPredicate, consumed⟩ := isPredicate_of_predicate ctx ahead read
      rw [consumed.rest, keptFields_predicate isPredicate (by decide), items.kept unnamed]
  | _, _, _, _, .child _ element items => by
      rw [(element.kept unnamed (items.ends unnamed)).1, items.kept unnamed,
        fieldsAll_cons, List.append_assoc]

theorem ReadsGroup.kept {ctx : Context} (unnamed : ctx.vocabulary.hasField "" = false) :
    ∀ {s s' : State} {e : Element}, ReadsGroup ctx s e s' →
    keptFields .lead s.rest = e.innerFields ++ keptFields .elsewhere s'.rest
  | _, _, _, .predicate ahead read group => by
      obtain ⟨ts, ms, isPredicate, consumed⟩ := isPredicate_of_predicate ctx ahead read
      rw [consumed.rest, keptFields_predicate isPredicate (by decide), group.kept unnamed]
  | _, _, _, .element _ element ends => by
      rw [(element.kept unnamed ends.ends).2, ends.kept ctx]

theorem ReadsBranches.kept {ctx : Context} (unnamed : ctx.vocabulary.hasField "" = false) :
    ∀ {s s' : State} {branches : List Element}, ReadsBranches ctx s branches s' →
    keptFields .elsewhere s.rest = fieldsAll branches ++ keptFields .elsewhere s'.rest
  | _, _, _, .close here closes => by
      rw [here, keptFields_sign (by decide) (by simp [closes])]
      rfl
  | _, _, _, .branch element branches => by
      rw [(element.kept unnamed (branches.ends unnamed)).1, branches.kept unnamed,
        fieldsAll_cons, List.append_assoc]

end

theorem patterns_kept {ctx : Context} (unnamed : ctx.vocabulary.hasField "" = false)
    {budget : Nat} {tokens : List Token} {found : List Pattern}
    (enough : tokens.length ≤ budget) (h : patterns ctx budget tokens = .ok found) :
    keptFields .elsewhere tokens = found.flatMap (·.root.fields) := by
  have reads := readsPatterns_of_patterns unnamed enough h
  clear enough h
  induction reads with
  | nil => rfl
  | cons read others ih =>
      obtain ⟨s, element, rfl, -⟩ := readsElement_of_pattern read
      rw [(element.kept unnamed (others.ends unnamed)).1, ih, List.flatMap_cons]

end Read

/-- The elements of a compiled query carry the written fields that lead no group.
So all written fields are found on them exactly if none leads a group. -/
theorem fields_of_compile {v : Vocabulary} (unnamed : v.hasField "" = false) {source : Text}
    {found : List Pattern} (h : compile v source = .ok found) :
    found.flatMap (·.root.fields) = keptFields .elsewhere (Token.significant source) ∧
      (found.flatMap (·.root.fields) = fieldNames (Token.significant source) ↔
        ∀ place ∈ fieldPlaces .elsewhere (Token.significant source), place.2 ≠ .lead) := by
  rw [compile] at h
  obtain ⟨patterns, read, h⟩ := Read.bind_eq_ok_iff.1 h
  obtain ⟨-, h⟩ := Read.check_eq_ok_iff.1 h
  cases h
  have kept := Read.patterns_kept unnamed (Nat.le_refl _) read
  rw [← kept]
  exact ⟨rfl, keptFields_eq_fieldNames_iff _ _⟩

/-- The field in front of the choice is kept, the one that leads the group inside is not. -/
theorem fields_of_compile_nested :
    let p : Pattern :=
      { root := .node (.named "sum")
          [.choice
            [.node (.named "number") [] [] { captures := [0] }, .node (.named "variable") [] [] {}]
            { field := some "left" }]
          [] {}
        captureNames := ["x"]
        predicates := [⟨false, 0, .text ['2']⟩]
        start := 0 }
    let source := Text.ofString "(sum left: [((#eq? @x \"2\") right: (number) @x) (variable)])"
    compile Vocabulary.math source = .ok [p] ∧ p.root.fields = ["left"] ∧
      fieldNames (Token.significant source) = ["left", "right"] := by
  intro p source
  have compiled : compile Vocabulary.math source = .ok [p] := rfl
  have kept := (fields_of_compile (by decide) compiled).1
  rw [List.flatMap_singleton] at kept
  exact ⟨compiled, kept.trans (by decide +kernel), by decide +kernel⟩

/-- A field behind the predicates of a group is lost. -/
theorem fields_ne_fieldNames_of_predicate_first :
    let p : Pattern :=
      { root := .node (.named "sum") [.node (.named "number") [] [] { captures := [0] }] [] {}
        captureNames := ["x"]
        predicates := [⟨false, 0, .text ['2']⟩]
        start := 0 }
    let source := Text.ofString "(sum ((#eq? @x \"2\") left: (number) @x))"
    compile Vocabulary.math source = .ok [p] ∧
      [p].flatMap (·.root.fields) ≠ fieldNames (Token.significant source) := by
  intro p source
  exact ⟨rfl, by decide +kernel⟩

end ParseTree.Query
