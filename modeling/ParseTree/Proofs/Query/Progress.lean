import ParseTree.Proofs.Query.Acceptance

/-!
# How readers move on

What a reader does with the tokens, whatever its answer.  On success it has taken tokens off
the front, and for an element at least one.  A refusal points to a token that was ahead or to
the end of the query.  The budget is used up only where it does not exceed the tokens ahead,
since every round of a loop and every inner element comes behind a token that was taken.  One
predicate on answers carries all three from reader to reader.  Nothing is asked of the
vocabulary, and which offsets may be pointed to is left open.

A budget that exceeds the tokens ahead is therefore as good as any other: more of it changes no
answer.
-/

namespace ParseTree.Query.Read

/-! ## Answers -/

/-- On success the result is as `after` says; a refusal points to an offset that is allowed; and
the budget is used up only if it was `short`. -/
def Answers (allowed : Nat → Prop) (short : Prop) (after : α → Prop) :
    Except CompileError α → Prop
  | .ok a => after a
  | .error (.fault offset _) => allowed offset
  | .error (.duplicateCapture _) => True
  | .error .exhausted => short

section Answers

variable {allowed : Nat → Prop} {short : Prop} {after : α → Prop} {later : β → Prop}

theorem Answers.bind {x : Except CompileError α} {f : α → Except CompileError β}
    (h : Answers allowed short after x) (next : ∀ a, after a → Answers allowed short later (f a)) :
    Answers allowed short later (x >>= f) := by
  cases x with
  | ok a => exact next a h
  | error e => cases e <;> exact h

theorem Answers.mono {after' : α → Prop} {x : Except CompileError α}
    (h : Answers allowed short after x) (weaker : ∀ a, after a → after' a) :
    Answers allowed short after' x := by
  cases x with
  | ok a => exact weaker a h
  | error e => cases e <;> exact h

theorem Answers.spent {short' : Prop} {x : Except CompileError α}
    (h : Answers allowed short after x) (weaker : short → short') :
    Answers allowed short' after x := by
  cases x with
  | ok a => exact h
  | error e =>
      cases e with
      | exhausted => exact weaker h
      | _ => exact h

theorem Answers.map {x : Except CompileError α} (h : Answers allowed short after x) (f : α → β) :
    Answers allowed short (fun _ => True) (f <$> x) := by
  cases x with
  | ok a => trivial
  | error e => cases e <;> exact h

theorem Answers.of_ok {x : Except CompileError α} {a : α} (h : Answers allowed short after x)
    (ok : x = .ok a) : after a := by
  subst ok
  exact h

theorem answers_refuse {offset : Nat} (h : allowed offset) (cause : Fault) :
    Answers allowed short after (refuse offset cause) := h

theorem answers_unexpected {token : Token} (h : allowed token.start) (cause : String → Fault) :
    Answers allowed short after (unexpected token cause) := by
  unfold unexpected
  split <;> exact h

theorem answers_check {wrong : Prop} [Decidable wrong] {x : Except CompileError α}
    {f : α → Except CompileError β} {next : Except CompileError β}
    (refused : Answers allowed short (fun _ => False) x)
    (right : Answers allowed short later next) :
    Answers allowed short later (if wrong then x >>= f else next) := by
  split
  · exact refused.bind fun _ impossible => impossible.elim
  · exact right

theorem answers_mapM {f : α → Except CompileError β} {as : List α}
    (h : ∀ a ∈ as, Answers allowed short (fun _ => True) (f a)) :
    Answers allowed short (fun _ => True) (as.mapM f) := by
  induction as with
  | nil => trivial
  | cons a as ih =>
      obtain ⟨first, others⟩ := List.forall_mem_cons.1 h
      rw [List.mapM_cons]
      exact first.bind fun b _ => (ih others).bind fun bs _ => trivial

end Answers

/-! ## Moving on -/

def Condition.refs (c : Condition) : List CaptureRef :=
  c.capture :: match c.operand with
    | .text _ => []
    | .capture ref => [ref]

def State.Refers (allowed : Nat → Prop) (s : State) : Prop :=
  ∀ c ∈ s.conditions, ∀ ref ∈ c.refs, allowed ref.offset

structure State.Points (allowed : Nat → Prop) (s : State) : Prop where
  ahead : ∀ t ∈ s.rest, allowed t.start
  refers : s.Refers allowed

/-- From `s` to `s'` tokens were taken off the front, at least `least` of them, and at least
one for each condition that was added. -/
structure Moves (allowed : Nat → Prop) (least : Nat) (s s' : State) : Prop where
  rest : s'.rest <:+ s.rest
  length : s'.rest.length + least ≤ s.rest.length
  conditions : s'.rest.length + s'.conditions.length ≤ s.rest.length + s.conditions.length
  refers : s'.Refers allowed

abbrev Reads (allowed : Nat → Prop) (short : Prop) (least : Nat) (s : State)
    (x : Except CompileError (α × State)) : Prop :=
  Answers allowed short (fun r => Moves allowed least s r.2) x

section Moves

variable {allowed : Nat → Prop} {short : Prop} {least more : Nat} {s s' s'' : State}

theorem Moves.points (h : Moves allowed least s s') (points : s.Points allowed) :
    s'.Points allowed :=
  ⟨fun t mem => points.ahead t (h.rest.mem mem), h.refers⟩

-- the later count stands first: a total that is a numeral then determines it
theorem Moves.trans (h : Moves allowed least s s') (h' : Moves allowed more s' s'') :
    Moves allowed (more + least) s s'' := by
  refine ⟨h'.rest.trans h.rest, ?_, Nat.le_trans h'.conditions h.conditions, h'.refers⟩
  have := h.length
  have := h'.length
  omega

theorem Moves.none (points : s.Points allowed) : Moves allowed 0 s s :=
  ⟨List.suffix_rfl, Nat.le_refl _, Nat.le_refl _, points.refers⟩

theorem Moves.stay (h : Moves allowed least s s') : Moves allowed 0 s' s' :=
  ⟨List.suffix_rfl, Nat.le_refl _, Nat.le_refl _, h.refers⟩

theorem Moves.weaken (h : Moves allowed least s s') : Moves allowed 0 s s' :=
  ⟨h.rest, Nat.le_of_add_right_le h.length, h.conditions, h.refers⟩

theorem State.Points.take (points : s.Points allowed) {taken rest : List Token}
    (here : s.rest = taken ++ rest) : Moves allowed taken.length s { s with rest } := by
  have length : s.rest.length = taken.length + rest.length := by
    rw [here, List.length_append]
  exact ⟨here ▸ List.suffix_append _ _, by dsimp only; omega, by dsimp only; omega, points.refers⟩

theorem Moves.reads {x : Except CompileError (α × State)} (h : Moves allowed least s s')
    (h' : Reads allowed short more s' x) : Reads allowed short (more + least) s x :=
  h'.mono fun _ moves => h.trans moves

theorem Reads.bind {x : Except CompileError (α × State)}
    {f : α × State → Except CompileError (β × State)} (h : Reads allowed short least s x)
    (next : ∀ a s', Moves allowed least s s' → Reads allowed short more s' (f (a, s'))) :
    Reads allowed short (more + least) s (x >>= f) :=
  Answers.bind h fun r moves => moves.reads (next r.1 r.2 moves)

theorem Reads.weaken {x : Except CompileError (α × State)} (h : Reads allowed short least s x) :
    Reads allowed short 0 s x :=
  h.mono fun _ moves => moves.weaken

theorem Reads.of_ok {x : Except CompileError (α × State)} {a : α}
    (h : Reads allowed short least s x) (ok : x = .ok (a, s')) : Moves allowed least s s' :=
  @Answers.of_ok _ allowed short (fun r => Moves allowed least s r.2) x (a, s') h ok

end Moves

/-! ## Single readers -/

section Readers

variable {allowed : Nat → Prop} {short : Prop} {ctx : Context} {s : State}

theorem State.Points.start {token : Token} {rest : List Token} (points : s.Points allowed)
    (here : s.rest = token :: rest) : allowed token.start :=
  points.ahead token (here ▸ List.mem_cons_self)

theorem State.Points.next {token : Token} {rest : List Token} (points : s.Points allowed)
    (here : s.rest = token :: rest) : Moves allowed 1 s { s with rest } :=
  @State.Points.take allowed s points [token] rest here

theorem State.Points.offset (points : s.Points allowed) (ends : allowed ctx.length) :
    allowed (ctx.offset s) := by
  unfold Context.offset
  split
  · exact ends
  · rename_i token rest here
    exact points.start here

theorem reads_known {known : Prop} [Decidable known] {token : Token} {rest : List Token}
    (points : s.Points allowed) (here : s.rest = token :: rest) (a : α) (cause : Fault) :
    Reads allowed short 1 s
      (if known then .ok (a, { s with rest }) else refuse token.start cause) := by
  split
  · exact points.next here
  · exact answers_refuse (points.start here) _

theorem reads_fieldLead (points : s.Points allowed) :
    Reads allowed short 0 s (fieldLead ctx s) := by
  unfold fieldLead
  split
  · rename_i start text start' text' rest here
    dsimp only
    split
    · exact (@State.Points.take allowed s points [_, _] rest here).weaken
    · exact answers_refuse (points.start here) _
  · exact Moves.none points

theorem reads_questionMark (points : s.Points allowed) :
    Reads allowed short 0 s (questionMark s) := by
  unfold questionMark
  split
  · rename_i start text rest here
    exact (points.next here).weaken
  · rename_i start text rest here
    exact answers_refuse (points.start here) _
  · rename_i start text rest here
    exact answers_refuse (points.start here) _
  · exact Moves.none points

theorem answers_captureMarks {names : List String} {tokens : List Token}
    (points : ∀ t ∈ tokens, allowed t.start) :
    Answers allowed short (fun r => r.2.2 <:+ tokens) (captureMarks names tokens) := by
  induction tokens generalizing names with
  | nil => exact List.suffix_rfl
  | cons token tokens ih =>
      obtain ⟨first, others⟩ := List.forall_mem_cons.1 points
      unfold captureMarks
      split
      · rename_i start text rest same
        cases same
        refine answers_check (answers_refuse first _) (answers_check trivial ?_)
        refine (ih others).bind ?_
        rintro ⟨slots, names', rest'⟩ suffix
        exact suffix.trans (List.suffix_cons _ _)
      · exact List.suffix_rfl

theorem reads_missingKind (points : s.Points allowed) :
    Reads allowed short 0 s (missingKind ctx s) := by
  unfold missingKind
  split
  · rename_i start text rest here
    exact (reads_known points here _ _).weaken
  · rename_i start text rest here
    exact (reads_known points here _ _).weaken
  · exact Moves.none points

theorem reads_kindTest (ends : allowed ctx.length) (points : s.Points allowed) :
    Reads allowed short 1 s (kindTest ctx s) := by
  unfold kindTest
  split
  · rename_i start text rest here
    have next := points.next here
    have points' := next.points points
    dsimp only
    split
    · exact next
    split
    · exact next
    split
    · exact next.reads ((reads_missingKind points').bind fun kind s' moves => moves.stay)
    · exact reads_known points here _ _
  · exact answers_refuse (points.offset ends) _

theorem reads_absentField (ends : allowed ctx.length) (points : s.Points allowed) :
    Reads allowed short 0 s (absentField ctx s) := by
  unfold absentField
  split
  rename_i name s' same
  have moves : Moves allowed 0 s s' := by
    split at same <;> cases same
    · rename_i here
      exact (points.next here).weaken
    · exact Moves.none points
  split
  · exact moves
  · exact answers_refuse (points.offset ends) _

theorem answers_arguments {opening : Nat} (opens : allowed opening) {tokens : List Token}
    (points : ∀ t ∈ tokens, allowed t.start) :
    Answers allowed short
      (fun r => r.2 <:+ tokens ∧ ∀ ref, .capture ref ∈ r.1 → allowed ref.offset)
      (arguments opening tokens) := by
  induction tokens with
  | nil => exact answers_refuse opens _
  | cons token tokens ih =>
      obtain ⟨first, others⟩ := List.forall_mem_cons.1 points
      unfold arguments
      split
      · exact ⟨List.suffix_cons _ _, by simp⟩
      · refine answers_check (answers_refuse first _) ((ih others).bind ?_)
        rintro ⟨behind, rest⟩ ⟨suffix, refers⟩
        refine ⟨suffix.trans (List.suffix_cons _ _), ?_⟩
        rintro ref (_ | ⟨_, mem⟩)
        · exact first
        · exact refers ref mem
      · refine (ih others).bind ?_
        rintro ⟨behind, rest⟩ ⟨suffix, refers⟩
        refine ⟨suffix.trans (List.suffix_cons _ _), ?_⟩
        rintro ref (_ | ⟨_, mem⟩)
        exact refers ref mem
      · exact answers_unexpected first _

theorem State.Refers.concat {capture : CaptureRef} {operand : Argument} {negated : Bool}
    (h : s.Refers allowed)
    (refers : ∀ ref, .capture ref ∈ [.capture capture, operand] → allowed ref.offset)
    (rest : List Token) :
    State.Refers allowed
      { s with rest, conditions := s.conditions ++ [⟨negated, capture, operand⟩] } := by
  intro c mem
  rcases List.mem_append.1 mem with earlier | last
  · exact h c earlier
  · rw [List.mem_singleton.1 last]
    intro ref listed
    refine refers ref ?_
    cases operand <;> simpa [Condition.refs] using listed

theorem answers_predicate (points : s.Points allowed) (ahead : s.atPredicate = true) :
    Answers allowed short (Moves allowed 1 s) (predicate s) := by
  obtain ⟨opening, head, rest, here, -, -⟩ := atPredicate_iff.1 ahead
  have opens := points.start here
  have taken := @State.Points.take allowed s points [opening, head] rest here
  unfold predicate
  rw [here]
  dsimp only
  split
  · refine (answers_arguments opens (taken.points points).ahead).bind ?_
    rintro ⟨args, rest'⟩ ⟨suffix, refers⟩
    split
    · rename_i capture operand rest'' same
      cases same
      have shorter := suffix.length_le
      have length := taken.length
      simp only [List.length_cons, List.length_nil] at shorter length
      refine ⟨suffix.trans taken.rest, ?_, ?_, points.refers.concat refers _⟩
      · dsimp only
        omega
      · dsimp only
        rw [List.length_append, List.length_singleton]
        omega
    · exact answers_refuse opens _
  · exact answers_refuse (points.ahead head (by simp [here])) _

/-! ## Loops and elements -/

/-- The reader of inner elements keeps to the tokens and takes one at least.  Its budget is used
up only if there are as many tokens ahead. -/
def Keeps (allowed : Nat → Prop) (depth : Nat) (inner : Reader Element) : Prop :=
  ∀ s : State, s.Points allowed → Reads allowed (depth ≤ s.rest.length) 1 s (inner s)

theorem Moves.spent {least depth budget : Nat} {s' : State}
    (h : Moves allowed (least + 1) s s') (spent : min depth (budget + 1) ≤ s.rest.length → short)
    (few : min depth budget ≤ s'.rest.length) : short := by
  have length := h.length
  exact spent (by omega)

variable {inner : Reader Element} {depth opening budget : Nat}

theorem reads_nodeItems (ends : allowed ctx.length) (keeps : Keeps allowed depth inner)
    (opens : allowed opening) (points : s.Points allowed)
    (spent : min depth budget ≤ s.rest.length → short) :
    Reads allowed short 1 s (nodeItems ctx inner opening budget s) := by
  induction budget generalizing s with
  | zero => exact spent (by omega)
  | succ budget ih =>
      rw [nodeItems]
      split
      · exact answers_refuse opens _
      · rename_i token rest here
        have next := points.next here
        split
        · exact next
        split
        · refine next.reads ((reads_absentField ends (next.points points)).bind ?_)
          intro field s' moves
          have later := next.trans moves
          refine Reads.bind (ih (later.points points) (later.spent spent)).weaken ?_
          exact fun items s'' moves' => moves'.stay
        split
        · rename_i atPredicate
          refine (answers_predicate points atPredicate).bind fun s' moves => ?_
          exact moves.reads (ih (moves.points points) (moves.spent spent)).weaken
        · refine Reads.bind ((keeps s points).spent fun few => spent (by omega)) ?_
          intro child s' moves
          refine Reads.bind (ih (moves.points points) (moves.spent spent)).weaken ?_
          exact fun items s'' moves' => moves'.stay

theorem reads_groupItems (keeps : Keeps allowed depth inner) (opens : allowed opening)
    (found : Option Element) (points : s.Points allowed)
    (spent : min depth budget ≤ s.rest.length → short) :
    Reads allowed short 1 s (groupItems ctx inner opening budget found s) := by
  induction budget generalizing s found with
  | zero => exact spent (by omega)
  | succ budget ih =>
      rw [groupItems]
      split
      · exact answers_refuse opens _
      · rename_i token rest here
        split
        · split
          · exact points.next here
          · exact answers_refuse opens _
        split
        · rename_i atPredicate
          refine (answers_predicate points atPredicate).bind fun s' moves => ?_
          exact moves.reads (ih found (moves.points points) (moves.spent spent)).weaken
        · refine Reads.bind ((keeps s points).spent fun few => spent (by omega)) ?_
          intro element s' moves
          refine answers_check (answers_refuse (points.start here) _) ?_
          exact (ih (some element) (moves.points points) (moves.spent spent)).weaken

theorem reads_branches (keeps : Keeps allowed depth inner) (opens : allowed opening)
    (points : s.Points allowed) (spent : min depth budget ≤ s.rest.length → short) :
    Reads allowed short 1 s (branches inner opening budget s) := by
  induction budget generalizing s with
  | zero => exact spent (by omega)
  | succ budget ih =>
      rw [branches]
      split
      · exact answers_refuse opens _
      · rename_i token rest here
        split
        · exact points.next here
        · refine Reads.bind ((keeps s points).spent fun few => spent (by omega)) ?_
          intro branch s' moves
          refine Reads.bind (ih (moves.points points) (moves.spent spent)).weaken ?_
          exact fun others s'' moves' => moves'.stay

/-- The token that opens a loop is taken before the budget is touched. -/
theorem reads_atom (ends : allowed ctx.length) (keeps : Keeps allowed depth inner)
    (points : s.Points allowed) (spent : min depth budget < s.rest.length → short) :
    Reads allowed short 1 s (atom ctx inner budget s) := by
  unfold atom
  split
  · exact answers_refuse ends _
  · rename_i token rest here
    have opens := points.start here
    have next := points.next here
    have points' := next.points points
    have behind : min depth budget ≤ rest.length → short := fun few =>
      spent (by rw [here, List.length_cons]; omega)
    dsimp only
    split
    · split
      · exact next.reads (reads_groupItems keeps opens none points' behind).weaken
      split
      · exact answers_refuse opens _
      · refine next.reads (Reads.bind (reads_kindTest ends points').weaken ?_)
        intro test s₁ moves
        have fewer : s₁.rest.length ≤ rest.length := moves.length
        refine Reads.bind (reads_nodeItems ends keeps opens (moves.points points') ?_).weaken
          fun items s₂ moves' => moves'.stay
        exact fun few => behind (Nat.le_trans few fewer)
    · refine next.reads (Reads.bind (reads_branches keeps opens points' behind).weaken ?_)
      intro elements s₁ moves
      exact answers_check (answers_refuse opens _) moves.stay
    · exact reads_known points here _ _
    · exact reads_known points here _ _
    · exact answers_unexpected opens _

theorem reads_elementWith (ends : allowed ctx.length) (keeps : Keeps allowed depth inner)
    (points : s.Points allowed) (spent : min depth budget < s.rest.length → short) :
    Reads allowed short 1 s (elementWith ctx inner budget s) := by
  unfold elementWith
  refine Reads.bind (reads_fieldLead points) fun field s₁ moves₁ => ?_
  have points₁ := moves₁.points points
  have fewer : s₁.rest.length ≤ s.rest.length := moves₁.length
  refine Reads.bind (reads_atom ends keeps points₁ fun few => spent (by omega)) ?_
  intro body s₂ moves₂
  have points₂ := moves₂.points points₁
  refine Reads.bind (reads_questionMark points₂) fun optional s₃ moves₃ => ?_
  refine (answers_captureMarks (moves₃.points points₂).ahead).bind ?_
  rintro ⟨slots, names, rest⟩ suffix
  exact ⟨suffix, suffix.length_le, Nat.add_le_add_right suffix.length_le _, moves₃.refers⟩

theorem keeps_element (ends : allowed ctx.length) (budget : Nat) :
    Keeps allowed budget (element ctx budget) := by
  induction budget with
  | zero => exact fun s points => Nat.zero_le _
  | succ budget ih => exact fun s points => reads_elementWith ends ih points (by omega)

/-! ## Patterns -/

theorem answers_resolve {names : List String} {ref : CaptureRef} (h : allowed ref.offset) :
    Answers allowed short (fun _ => True) (resolve names ref) := by
  unfold resolve
  split
  · trivial
  · exact answers_refuse h _

theorem answers_condition {names : List String} {c : Condition}
    (h : ∀ ref ∈ c.refs, allowed ref.offset) :
    Answers allowed short (fun _ => True) (c.resolve names) := by
  obtain ⟨negated, capture, operand⟩ := c
  have first := h capture List.mem_cons_self
  cases operand with
  | text t =>
      exact (answers_resolve first).bind fun slot _ => trivial
  | capture ref =>
      have second := h ref (List.mem_cons_of_mem _ List.mem_cons_self)
      refine ((answers_resolve second).map _).bind fun operand _ => ?_
      exact (answers_resolve first).bind fun slot _ => trivial

theorem answers_pattern (ends : allowed ctx.length) {tokens : List Token}
    (points : ∀ t ∈ tokens, allowed t.start) :
    Answers allowed short (fun r => r.2 <:+ tokens ∧ r.2.length < tokens.length)
      (pattern ctx tokens) := by
  have start : State.Points allowed { rest := tokens } := ⟨points, by simp [State.Refers]⟩
  have root := keeps_element ends (tokens.length + 1) _ start
  refine Answers.bind (root.spent fun few => absurd few (Nat.not_succ_le_self _)) ?_
  rintro ⟨root, s⟩ moves
  have offset := start.offset ends
  refine answers_check (answers_refuse offset _) (answers_check (answers_refuse offset _) ?_)
  refine (answers_mapM fun c mem => answers_condition (moves.refers c mem)).bind fun _ _ => ?_
  exact ⟨moves.rest, moves.length⟩

theorem answers_patterns (ends : allowed ctx.length) {tokens : List Token}
    (points : ∀ t ∈ tokens, allowed t.start) (spent : budget < tokens.length → short) :
    Answers allowed short (fun found => found = [] → tokens = []) (patterns ctx budget tokens) := by
  induction budget generalizing tokens with
  | zero =>
      cases tokens with
      | nil => exact fun _ => rfl
      | cons token tokens => exact spent (Nat.zero_lt_succ _)
  | succ budget ih =>
      cases tokens with
      | nil => exact fun _ => rfl
      | cons token tokens =>
          refine (answers_pattern ends points).bind ?_
          rintro ⟨first, rest⟩ ⟨suffix, shorter⟩
          refine Answers.bind (ih (fun t mem => points t (suffix.mem mem)) fun few => ?_) ?_
          · exact spent (Nat.lt_of_le_of_lt few shorter)
          · exact fun others _ none => absurd none (List.cons_ne_nil _ _)

end Readers

/-! ## Budgets -/

theorem bind_congr_ok {x : Except ε α} {f g : α → Except ε β}
    (same : ∀ a, x = .ok a → f a = g a) : x >>= f = x >>= g := by
  cases x with
  | ok a => exact same a rfl
  | error e => rfl

theorem State.points_true (s : State) : s.Points fun _ => True := by
  constructor <;> simp [State.Refers]

section Moving

variable {ctx : Context} {s s' : State}

theorem moves_fieldLead {field : Option String} (read : fieldLead ctx s = .ok (field, s')) :
    Moves (fun _ => True) 0 s s' :=
  (@reads_fieldLead _ True _ _ s.points_true).of_ok read

theorem moves_kindTest {test : KindTest} (read : kindTest ctx s = .ok (test, s')) :
    Moves (fun _ => True) 1 s s' :=
  (@reads_kindTest _ True _ _ trivial s.points_true).of_ok read

theorem moves_absentField {field : String} (read : absentField ctx s = .ok (field, s')) :
    Moves (fun _ => True) 0 s s' :=
  (@reads_absentField _ True _ _ trivial s.points_true).of_ok read

theorem moves_questionMark {optional : Bool} (read : questionMark s = .ok (optional, s')) :
    Moves (fun _ => True) 0 s s' :=
  (@reads_questionMark _ True _ s.points_true).of_ok read

theorem moves_predicate (ahead : s.atPredicate = true) (read : predicate s = .ok s') :
    Moves (fun _ => True) 1 s s' :=
  (@answers_predicate _ True _ s.points_true ahead).of_ok read

end Moving

section Budgets

variable {ctx : Context} {inner inner' : Reader Element} {n depth opening : Nat} {s : State}

theorem nodeItems_congr (keeps : Keeps (fun _ => True) depth inner)
    (same : ∀ s : State, s.rest.length < n → inner' s = inner s) {budget : Nat}
    (fits : s.rest.length < n) (enough : s.rest.length < budget) :
    nodeItems ctx inner' opening (budget + 1) s = nodeItems ctx inner opening budget s := by
  induction budget generalizing s with
  | zero => omega
  | succ budget ih =>
      rw [nodeItems, nodeItems]
      split
      · rfl
      · rename_i token rest here
        have next := s.points_true.next here
        split
        · rfl
        split
        · refine bind_congr_ok ?_
          rintro ⟨field, s'⟩ read
          have length := (next.trans (moves_absentField read)).length
          dsimp only
          rw [ih (by omega) (by omega)]
        split
        · rename_i atPredicate
          refine bind_congr_ok fun s' read => ?_
          have length := (moves_predicate atPredicate read).length
          rw [ih (by omega) (by omega)]
        · rw [same s fits]
          refine bind_congr_ok ?_
          rintro ⟨child, s'⟩ read
          have length := ((keeps s s.points_true).of_ok read).length
          dsimp only
          rw [ih (by omega) (by omega)]

theorem groupItems_congr (keeps : Keeps (fun _ => True) depth inner)
    (same : ∀ s : State, s.rest.length < n → inner' s = inner s) {budget : Nat}
    (found : Option Element) (fits : s.rest.length < n) (enough : s.rest.length < budget) :
    groupItems ctx inner' opening (budget + 1) found s =
      groupItems ctx inner opening budget found s := by
  induction budget generalizing s found with
  | zero => omega
  | succ budget ih =>
      rw [groupItems, groupItems]
      split
      · rfl
      split
      · rfl
      split
      · rename_i atPredicate
        refine bind_congr_ok fun s' read => ?_
        have length := (moves_predicate atPredicate read).length
        rw [ih found (by omega) (by omega)]
      · rw [same s fits]
        refine bind_congr_ok ?_
        rintro ⟨element, s'⟩ read
        have length := ((keeps s s.points_true).of_ok read).length
        dsimp only
        rw [ih (some element) (by omega) (by omega)]

theorem branches_congr (keeps : Keeps (fun _ => True) depth inner)
    (same : ∀ s : State, s.rest.length < n → inner' s = inner s) {budget : Nat}
    (fits : s.rest.length < n) (enough : s.rest.length < budget) :
    branches inner' opening (budget + 1) s = branches inner opening budget s := by
  induction budget generalizing s with
  | zero => omega
  | succ budget ih =>
      rw [branches, branches]
      split
      · rfl
      split
      · rfl
      · rw [same s fits]
        refine bind_congr_ok ?_
        rintro ⟨branch, s'⟩ read
        have length := ((keeps s s.points_true).of_ok read).length
        dsimp only
        rw [ih (by omega) (by omega)]

theorem atom_congr (keeps : Keeps (fun _ => True) depth inner)
    (same : ∀ s : State, s.rest.length < n → inner' s = inner s)
    (fits : s.rest.length < n + 1) : atom ctx inner' (n + 1) s = atom ctx inner n s := by
  unfold atom
  split
  · rfl
  · rename_i token rest here
    have behind : rest.length < n := by
      rw [here, List.length_cons] at fits
      omega
    dsimp only
    split
    · rw [groupItems_congr keeps same none behind behind]
      split
      · rfl
      split
      · rfl
      · refine bind_congr_ok ?_
        rintro ⟨test, s'⟩ read
        have length := (moves_kindTest read).length
        dsimp only at length ⊢
        rw [nodeItems_congr keeps same (by omega) (by omega)]
    · rw [branches_congr keeps same behind behind]
    all_goals rfl

theorem element_succ {budget : Nat} (enough : s.rest.length < budget) :
    element ctx (budget + 1) s = element ctx budget s := by
  induction budget generalizing s with
  | zero => omega
  | succ budget ih =>
      rw [element, element, elementWith, elementWith]
      refine bind_congr_ok ?_
      rintro ⟨field, s'⟩ read
      have length := (moves_fieldLead read).length
      dsimp only
      rw [atom_congr (keeps_element trivial budget) (fun s fits => ih fits) (by omega)]

theorem element_eq_of_lt {budget : Nat} (enough : s.rest.length < budget) :
    element ctx budget s = element ctx (s.rest.length + 1) s := by
  induction enough with
  | refl => rfl
  | step enough ih => rw [element_succ enough, ih]

theorem length_of_pattern {tokens rest : List Token} {p : Pattern}
    (read : pattern ctx tokens = .ok (p, rest)) : rest.length < tokens.length := by
  have answers := @answers_pattern (fun _ => True) True ctx trivial tokens fun _ _ => trivial
  exact (answers.of_ok read).2

theorem patterns_cons (ctx : Context) (budget : Nat) (token : Token) (tokens : List Token) :
    patterns ctx (budget + 1) (token :: tokens) = (do
      let (first, rest) ← pattern ctx (token :: tokens)
      let others ← patterns ctx budget rest
      .ok (first :: others)) := rfl

theorem patterns_succ {budget : Nat} {tokens : List Token} (enough : tokens.length ≤ budget) :
    patterns ctx (budget + 1) tokens = patterns ctx budget tokens := by
  induction budget generalizing tokens with
  | zero =>
      have none := List.length_eq_zero_iff.1 (Nat.le_zero.1 enough)
      rw [none, patterns_nil, patterns_nil]
  | succ budget ih =>
      cases tokens with
      | nil => rw [patterns_nil, patterns_nil]
      | cons token tokens =>
          rw [patterns_cons, patterns_cons]
          refine bind_congr_ok ?_
          rintro ⟨first, rest⟩ read
          have shorter := length_of_pattern read
          dsimp only
          rw [ih (by omega)]

theorem patterns_eq_of_le {budget : Nat} {tokens : List Token} (enough : tokens.length ≤ budget) :
    patterns ctx budget tokens = patterns ctx tokens.length tokens := by
  induction enough with
  | refl => rfl
  | step enough ih => rw [patterns_succ enough, ih]

end Budgets

end ParseTree.Query.Read
