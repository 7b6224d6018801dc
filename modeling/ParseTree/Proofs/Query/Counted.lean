import ParseTree.Query.Compile

/-!
# Readers that count

Every reader that calls another or goes round in a loop, once more and with a count beside its
answer: a turn for each round of a loop, for each element that is begun and for each pattern.
Nothing else differs.  From every state and with every budget a counting reader answers what
the reader answers.
-/

namespace ParseTree.Query.Read

structure Counted (α : Type) where
  answer : Except CompileError α
  turns : Nat

namespace Counted

def lift (x : Except CompileError α) : Counted α := ⟨x, 0⟩

def turn (x : Counted α) : Counted α := ⟨x.answer, 1 + x.turns⟩

/-- Behind a refusal nothing is read and nothing is counted. -/
def andThen (x : Counted α) (f : α → Counted β) : Counted β :=
  match x.answer with
  | .ok a => ⟨(f a).answer, x.turns + (f a).turns⟩
  | .error e => ⟨.error e, x.turns⟩

instance : Monad Counted where
  pure a := lift (.ok a)
  bind := andThen

/-! ## The readers -/

def arguments (opening : Nat) : List Token → Counted (List Argument × List Token)
  | [] => turn (lift (refuse opening .unclosedPredicate))
  | token :: rest => turn <|
      match token.kind with
      | .parenClose => pure ([], rest)
      | .capture => do
          if token.nameAfterSign = "" then lift (refuse token.start .emptyCaptureName)
          let (others, rest) ← arguments opening rest
          pure (.capture ⟨token.nameAfterSign, token.start⟩ :: others, rest)
      | .string => do
          let (others, rest) ← arguments opening rest
          pure (.text (unquote token.text) :: others, rest)
      | _ => lift (unexpected token .unexpectedInPredicate)

def predicate (s : State) : Counted State :=
  match s.rest with
  | opening :: head :: rest => do
      let some negated := negation? head.nameAfterSign
        | lift (refuse head.start (.unknownPredicate head.nameAfterSign))
      let found ← arguments opening.start rest
      lift <| match found with
        | ([.capture capture, operand], rest) =>
            .ok { s with rest, conditions := s.conditions ++ [⟨negated, capture, operand⟩] }
        | _ => refuse opening.start (.predicateArguments head.nameAfterSign)
  | _ => pure s

def captureMarks (names : List String) : List Token → Counted (List Nat × List String × List Token)
  | ⟨.capture, start, text⟩ :: rest => turn do
      let name := String.ofList (text.drop 1)
      if name = "" then lift (refuse start .emptyCaptureName)
      if names.contains name then lift (.error (.duplicateCapture name))
      let (slots, names', rest) ← captureMarks (names ++ [name]) rest
      pure (names.length :: slots, names', rest)
  | rest => pure ([], names, rest)

section Loops

variable (ctx : Context) (inner : State → Counted (Element × State)) (opening : Nat)

def nodeItems : Nat → State → Counted ((List Element × List String) × State)
  | 0, _ => lift (.error .exhausted)
  | budget + 1, s => turn <|
      match s.rest with
      | [] => lift (refuse opening .unclosedParen)
      | token :: rest =>
          if token.kind = .parenClose then pure (([], []), { s with rest })
          else if token.kind = .bang then do
            let (field, s) ← lift (absentField ctx { s with rest })
            let ((children, absent), s) ← nodeItems budget s
            pure ((children, field :: absent), s)
          else if s.atPredicate then do
            let s ← predicate s
            nodeItems budget s
          else do
            let (child, s) ← inner s
            let ((children, absent), s) ← nodeItems budget s
            pure ((child :: children, absent), s)

def groupItems : Nat → Option Element → State → Counted (Element × State)
  | 0, _, _ => lift (.error .exhausted)
  | budget + 1, found, s => turn <|
      match s.rest with
      | [] => lift (refuse opening .unclosedParen)
      | token :: rest =>
          if token.kind = .parenClose then
            match found with
            | some element => pure (element, { s with rest })
            | none => lift (refuse opening .emptyGroup)
          else if s.atPredicate then do
            let s ← predicate s
            groupItems budget found s
          else do
            let (element, s) ← inner s
            if found.isSome then lift (refuse token.start .sequence)
            groupItems budget (some element) s

def branches : Nat → State → Counted (List Element × State)
  | 0, _ => lift (.error .exhausted)
  | budget + 1, s => turn <|
      match s.rest with
      | [] => lift (refuse opening .unclosedBracket)
      | token :: rest =>
          if token.kind = .bracketClose then pure ([], { s with rest })
          else do
            let (branch, s) ← inner s
            let (others, s) ← branches budget s
            pure (branch :: others, s)

end Loops

def atom (ctx : Context) (inner : State → Counted (Element × State)) (budget : Nat) (s : State) :
    Counted (Element × State) :=
  match s.rest with
  | [] => lift (refuse ctx.length .endOfQuery)
  | token :: rest =>
      let after := { s with rest }
      match token.kind with
      | .parenOpen =>
          if opensGroup rest then groupItems inner token.start budget none after
          else if s.atPredicate then lift (refuse token.start .predicateFirst)
          else do
            let (test, s) ← lift (kindTest ctx after)
            let ((children, absent), s) ← nodeItems ctx inner token.start budget s
            pure (.node test children absent {}, s)
      | .bracketOpen => do
          let (elements, s) ← branches inner token.start budget after
          if elements.isEmpty then lift (refuse token.start .emptyChoice)
          pure (.choice elements {}, s)
      | .string =>
          let text := String.ofList (unquote token.text)
          if ctx.vocabulary.hasKind text false then pure (.node (.anonymous text) [] [] {}, after)
          else lift (refuse token.start (.unknownAnonymous text))
      | .identifier =>
          if token.name = "_" then pure (.node .any [] [] {}, after)
          else lift (refuse token.start (.bareKind token.name))
      | _ => lift (unexpected token .unexpected)

def elementWith (ctx : Context) (inner : State → Counted (Element × State)) (budget : Nat)
    (s : State) : Counted (Element × State) := do
  let (field, s) ← lift (fieldLead ctx s)
  let (body, s) ← atom ctx inner budget s
  let (optional, s) ← lift (questionMark s)
  let (slots, names, rest) ← captureMarks s.names s.rest
  let mark : Mark :=
    { field
      optional := body.mark.optional || optional
      captures := body.mark.captures ++ slots }
  pure (body.withMark mark, { s with rest, names })

def element (ctx : Context) : Nat → State → Counted (Element × State)
  | 0, _ => lift (.error .exhausted)
  | budget + 1, s => turn (elementWith ctx (element ctx budget) budget s)

def resolveAll (names : List String) : List Condition → Counted (List Predicate)
  | [] => pure []
  | c :: cs => turn do
      let first ← lift (c.resolve names)
      let others ← resolveAll names cs
      pure (first :: others)

def pattern (ctx : Context) (tokens : List Token) : Counted (Pattern × List Token) := do
  let start := ctx.offset { rest := tokens }
  let (root, s) ← element ctx (tokens.length + 1) { rest := tokens }
  if root.mark.field.isSome then lift (refuse start .fieldAtTopLevel)
  if root.mark.optional then lift (refuse start .optionalAtTopLevel)
  let predicates ← resolveAll s.names s.conditions
  pure (⟨root, s.names, predicates, start⟩, s.rest)

def patterns (ctx : Context) : Nat → List Token → Counted (List Pattern)
  | _, [] => pure []
  | 0, _ => lift (.error .exhausted)
  | budget + 1, tokens => turn do
      let (first, rest) ← pattern ctx tokens
      let others ← patterns ctx budget rest
      pure (first :: others)

def compile (vocabulary : Vocabulary) (source : Text) : Counted (List Pattern) := do
  let tokens := Token.significant source
  let found ← patterns ⟨vocabulary, source.width⟩ tokens.length tokens
  if found.isEmpty then lift (.error (.fault 0 .noPatterns))
  pure found

/-! ## Their answers -/

theorem answer_turn (x : Counted α) : (turn x).answer = x.answer := rfl

theorem answer_bind {x : Counted α} {f : α → Counted β} {y : Except CompileError α}
    {g : α → Except CompileError β} (first : x.answer = y) (next : ∀ a, (f a).answer = g a) :
    (x >>= f).answer = y >>= g := by
  subst first
  change (andThen x f).answer = _
  unfold andThen
  cases x.answer with
  | ok a => exact next a
  | error e => rfl

theorem answer_arguments (opening : Nat) (tokens : List Token) :
    (arguments opening tokens).answer = Read.arguments opening tokens := by
  induction tokens with
  | nil => rfl
  | cons token tokens ih =>
      rw [arguments, Read.arguments, answer_turn]
      cases token.kind with
      | capture =>
          dsimp only
          split
          · rfl
          · exact answer_bind ih fun _ => rfl
      | string => exact answer_bind ih fun _ => rfl
      | _ => rfl

theorem answer_predicate (s : State) : (predicate s).answer = Read.predicate s := by
  unfold predicate Read.predicate
  rcases s.rest with _ | ⟨opening, _ | ⟨head, rest⟩⟩
  · rfl
  · rfl
  · dsimp only
    cases negation? head.nameAfterSign with
    | none => rfl
    | some negated => exact answer_bind (answer_arguments _ _) fun _ => rfl

theorem answer_captureMarks (names : List String) (tokens : List Token) :
    (captureMarks names tokens).answer = Read.captureMarks names tokens := by
  fun_induction captureMarks names tokens with
  | case1 names start text rest ih =>
      rw [Read.captureMarks, answer_turn]
      dsimp only
      split
      · rfl
      split
      · rfl
      · exact answer_bind ih fun _ => rfl
  | case2 names tokens none =>
      rw [Read.captureMarks]
      · rfl
      · exact none

section Loops

variable {ctx : Context} {inner : Reader Element} {counted : State → Counted (Element × State)}
  {opening : Nat} (same : ∀ s, (counted s).answer = inner s)

include same

theorem answer_nodeItems (budget : Nat) (s : State) :
    (nodeItems ctx counted opening budget s).answer =
      Read.nodeItems ctx inner opening budget s := by
  induction budget generalizing s with
  | zero => rfl
  | succ budget ih =>
      rw [nodeItems, Read.nodeItems, answer_turn]
      cases s.rest with
      | nil => rfl
      | cons token rest =>
          dsimp only
          split
          · rfl
          split
          · exact answer_bind rfl fun r => answer_bind (ih r.2) fun _ => rfl
          split
          · exact answer_bind (answer_predicate s) ih
          · exact answer_bind (same s) fun r => answer_bind (ih r.2) fun _ => rfl

theorem answer_groupItems (budget : Nat) (found : Option Element) (s : State) :
    (groupItems counted opening budget found s).answer =
      Read.groupItems ctx inner opening budget found s := by
  induction budget generalizing found s with
  | zero => rfl
  | succ budget ih =>
      rw [groupItems, Read.groupItems, answer_turn]
      cases s.rest with
      | nil => rfl
      | cons token rest =>
          dsimp only
          split
          · cases found <;> rfl
          split
          · exact answer_bind (answer_predicate s) (ih found)
          · refine answer_bind (same s) fun r => ?_
            split
            · rfl
            · exact ih (some r.1) r.2

theorem answer_branches (budget : Nat) (s : State) :
    (branches counted opening budget s).answer = Read.branches inner opening budget s := by
  induction budget generalizing s with
  | zero => rfl
  | succ budget ih =>
      rw [branches, Read.branches, answer_turn]
      cases s.rest with
      | nil => rfl
      | cons token rest =>
          dsimp only
          split
          · rfl
          · exact answer_bind (same s) fun r => answer_bind (ih r.2) fun _ => rfl

theorem answer_atom (budget : Nat) (s : State) :
    (atom ctx counted budget s).answer = Read.atom ctx inner budget s := by
  unfold atom Read.atom
  cases s.rest with
  | nil => rfl
  | cons token rest =>
      dsimp only
      cases token.kind with
      | parenOpen =>
          dsimp only
          split
          · exact answer_groupItems same budget none _
          split
          · rfl
          · refine answer_bind rfl fun r => ?_
            exact answer_bind (answer_nodeItems same budget r.2) fun _ => rfl
      | bracketOpen =>
          refine answer_bind (answer_branches same budget _) fun r => ?_
          split <;> rfl
      | string | identifier =>
          dsimp only
          split <;> rfl
      | _ => rfl

theorem answer_elementWith (budget : Nat) (s : State) :
    (elementWith ctx counted budget s).answer = Read.elementWith ctx inner budget s := by
  unfold elementWith Read.elementWith
  refine answer_bind rfl fun lead => answer_bind (answer_atom same budget lead.2) fun body => ?_
  exact answer_bind rfl fun mark => answer_bind (answer_captureMarks _ _) fun _ => rfl

end Loops

theorem answer_element (ctx : Context) (budget : Nat) (s : State) :
    (element ctx budget s).answer = Read.element ctx budget s := by
  induction budget generalizing s with
  | zero => rfl
  | succ budget ih => exact answer_elementWith ih budget s

theorem answer_resolveAll (names : List String) (conditions : List Condition) :
    (resolveAll names conditions).answer = conditions.mapM (Condition.resolve names) := by
  induction conditions with
  | nil => rfl
  | cons c cs ih =>
      rw [resolveAll, answer_turn, List.mapM_cons]
      exact answer_bind rfl fun first => answer_bind ih fun others => rfl

theorem answer_pattern (ctx : Context) (tokens : List Token) :
    (pattern ctx tokens).answer = Read.pattern ctx tokens := by
  unfold pattern Read.pattern
  refine answer_bind (answer_element _ _ _) fun r => ?_
  dsimp only
  split
  · rfl
  split
  · rfl
  · exact answer_bind (answer_resolveAll _ _) fun _ => rfl

theorem answer_patterns (ctx : Context) (budget : Nat) (tokens : List Token) :
    (patterns ctx budget tokens).answer = Read.patterns ctx budget tokens := by
  induction budget generalizing tokens with
  | zero => cases tokens <;> rfl
  | succ budget ih =>
      cases tokens with
      | nil => rfl
      | cons token tokens =>
          refine answer_bind (answer_pattern ctx (token :: tokens)) fun r => ?_
          exact answer_bind (ih r.2) fun _ => rfl

theorem answer_compile (vocabulary : Vocabulary) (source : Text) :
    (compile vocabulary source).answer = Query.compile vocabulary source := by
  refine answer_bind (answer_patterns _ _ _) fun found => ?_
  split <;> rfl

end Counted

end ParseTree.Query.Read
