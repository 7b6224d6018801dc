import Mathlib.Data.List.Pairwise
import Mathlib.Logic.ExistsUnique
import ParseTree.Proofs.Arith.Geometry

/-!
# Leaves of arithmetic trees

The leaves of a tree that are not missing are the tokens of the text, one by one
and in order, up to the parenthesis that is nested too deeply; from there on all
tokens are one error leaf.  Which parenthesis that is can be told from the tokens
alone, by counting the parentheses that are open and remembering whether an
operand is due: an operand where none is due ends every expression before it,
and with them the parentheses they opened.
-/

namespace ParseTree

def Label.bare (label : Label) : Label := { label with field := none }

namespace Tree

def isSolidLeaf (t : Tree) : Bool := t.children.isEmpty && !t.value.missing

def leaves (t : Tree) : List Label := (t.subtrees.filter isSolidLeaf).map (·.value.bare)

theorem leaves_leaf {label : Label} (present : label.missing = false) :
    (leaf label).leaves = [label.bare] := by
  simp [leaves, leaf, Rose.subtrees_node, isSolidLeaf, Rose.children, Rose.value, present]

theorem leaves_missing (kind : String) (named : Bool) (offset : Nat) :
    (missing kind named offset).leaves = [] := by
  simp [leaves, missing, leaf, Rose.subtrees_node, isSolidLeaf, Rose.value]

theorem leaves_node (label : Label) (t : Tree) (ts : List Tree) :
    leaves (.node label (t :: ts)) = (t :: ts).flatMap leaves := by
  have inner : isSolidLeaf (.node label (t :: ts)) = false := rfl
  rw [leaves, Rose.subtrees_node, List.filter_cons_of_neg (by simp [inner]),
    List.filter_flatMap, List.map_flatMap]
  rfl

theorem leaves_withField (field : String) (t : Tree) : (t.withField field).leaves = t.leaves := by
  obtain ⟨label, ts⟩ := t
  cases ts with
  | nil =>
      cases present : label.missing <;>
        simp [leaves, withField, Rose.subtrees_node, isSolidLeaf, Rose.children, Rose.value,
          Label.bare, present]
  | cons t ts => rw [withField, leaves_node, leaves_node]

end Tree

namespace Arena

def solidLeaves (a : Arena) : List Nat :=
  (a.descendants 0).filter fun id => (a.children id).isEmpty && !(a.label id).missing

def Holds (a : Arena) (id offset : Nat) : Prop :=
  (a.range id).start ≤ offset ∧ offset < (a.range id).stop

theorem range_bare (a : Arena) (id : Nat) : (a.label id).bare.range = a.range id := rfl

theorem map_range_bare (a : Arena) (ids : List Nat) :
    (ids.map fun id => (a.label id).bare).map Label.range = ids.map a.range := by
  rw [List.map_map]
  rfl

theorem map_bare_solidLeaves (a : Arena) :
    a.solidLeaves.map (fun id => (a.label id).bare) = (a.unfold 0).leaves := by
  have solid : Tree.isSolidLeaf ∘ a.unfold =
      fun id => (a.children id).isEmpty && !(a.label id).missing := by
    funext id
    rw [Function.comp_apply, unfold_eq, Tree.isSolidLeaf, Rose.children, List.isEmpty_map,
      Rose.value]
  have label : (fun t : Tree => t.value.bare) ∘ a.unfold = fun id => (a.label id).bare := by
    funext id
    rw [Function.comp_apply, unfold_eq, Rose.value]
  rw [Tree.leaves, subtrees_unfold, List.filter_map, List.map_map, solid, label, solidLeaves]

end Arena

namespace Arith

structure Nesting where
  depth : Nat := 0
  due : Bool := true
  deriving DecidableEq, Repr

namespace Nesting

/-- The parentheses that are still open when an operand begins. -/
def operandDepth (s : Nesting) : Nat := if s.due then s.depth else 0

def next (s : Nesting) : TokenKind → Option Nesting
  | .number | .variable | .unknown => some ⟨s.operandDepth, false⟩
  | .operator _ => some ⟨s.depth, true⟩
  | .openParen => if maxNesting ≤ s.operandDepth then none else some ⟨s.operandDepth + 1, true⟩
  | .closeParen => some ⟨s.depth - 1, false⟩

/-- The tokens before the parenthesis that is nested too deeply, and those from
it on. -/
def cut (s : Nesting) : List Token → List Token × List Token
  | [] => ([], [])
  | token :: tokens =>
      match s.next token.kind with
      | none => ([], token :: tokens)
      | some s' => (token :: (s'.cut tokens).1, (s'.cut tokens).2)

end Nesting

def Token.label (token : Token) : Label :=
  match token.kind with
  | .number => { kind := "number", range := token.range }
  | .variable => { kind := "variable", range := token.range }
  | .unknown => { kind := "ERROR", error := true, range := token.range }
  | .operator op => { kind := op.symbol, named := false, range := token.range }
  | .openParen => { kind := "(", named := false, range := token.range }
  | .closeParen => { kind := ")", named := false, range := token.range }

def deepLabel (opening : Token) (behind : List Token) : Label :=
  { kind := "ERROR", error := true,
    range := ⟨opening.range.start, (behind.map (·.range.stop)).getLastD opening.range.stop⟩ }

theorem Token.range_label (token : Token) : token.label.range = token.range := by
  obtain ⟨kind, range⟩ := token
  cases kind <;> rfl

theorem Token.map_range_label (tokens : List Token) :
    (tokens.map Token.label).map Label.range = tokens.map (·.range) := by
  rw [List.map_map]
  apply List.map_congr_left
  intro token _
  exact token.range_label

theorem label_of_leaf? {token : Token} {t : Tree} (h : leaf? token = some t) :
    t.leaves = [token.label] := by
  obtain ⟨kind, range⟩ := token
  cases kind <;> cases h <;> exact Tree.leaves_leaf rfl

namespace Nesting

def leaves (s : Nesting) : List Token → List Label
  | [] => []
  | token :: tokens =>
      match s.next token.kind with
      | none => [deepLabel token tokens]
      | some s' => token.label :: s'.leaves tokens

theorem leaves_of_next {s s' : Nesting} {token : Token} (tokens : List Token)
    (h : s.next token.kind = some s') :
    s.leaves (token :: tokens) = token.label :: s'.leaves tokens := by
  rw [leaves, h]

theorem leaves_congr {s s' : Nesting} {tokens : List Token}
    (h : ∀ token rest, tokens = token :: rest → s.next token.kind = s'.next token.kind) :
    s.leaves tokens = s'.leaves tokens := by
  cases tokens with
  | nil => rfl
  | cons token rest => rw [leaves, leaves, h token rest rfl]

theorem kind_of_next {s : Nesting} {kind : TokenKind} (h : s.next kind = none) :
    kind = .openParen := by
  cases kind <;> simp_all [next]

theorem leaves_eq_cut (s : Nesting) (tokens : List Token) :
    (s.cut tokens).1 ++ (s.cut tokens).2 = tokens ∧
    ((s.cut tokens).2 = [] ∧ s.leaves tokens = (s.cut tokens).1.map Token.label ∨
      ∃ opening behind, (s.cut tokens).2 = opening :: behind ∧ opening.kind = .openParen ∧
        s.leaves tokens = (s.cut tokens).1.map Token.label ++ [deepLabel opening behind]) := by
  induction tokens generalizing s with
  | nil => exact ⟨rfl, Or.inl ⟨rfl, rfl⟩⟩
  | cons token tokens ih =>
      rw [cut, leaves]
      cases step : s.next token.kind with
      | none => exact ⟨rfl, Or.inr ⟨token, tokens, rfl, kind_of_next step, rfl⟩⟩
      | some s' =>
          obtain ⟨whole, shallow | ⟨opening, behind, rest, kind, made⟩⟩ := ih s'
          · refine ⟨congrArg (token :: ·) whole, Or.inl ⟨shallow.1, ?_⟩⟩
            exact congrArg (token.label :: ·) shallow.2
          · refine ⟨congrArg (token :: ·) whole, Or.inr ⟨opening, behind, rest, kind, ?_⟩⟩
            exact congrArg (token.label :: ·) made

end Nesting

/-- The count agrees with the parser at the next token.  Before an operand it
need not: the parser still has to give up the parentheses that are open. -/
def Cursor.Follows (c : Cursor) (s : Nesting) : Prop :=
  ∀ token rest, c.rest = token :: rest →
    if (leaf? token).isSome ∨ token.kind = .openParen then s.due = false else s.depth = c.depth

theorem Cursor.follows_of_depth {c : Cursor} {s : Nesting} (settled : s.due = false)
    (depth : s.depth = c.depth) : c.Follows s := by
  intro token rest here
  split
  · exact settled
  · exact depth

theorem Cursor.Follows.depth_of_operator {c : Cursor} {s : Nesting} (h : c.Follows s)
    {op : Operator} {range : ByteRange} {rest : List Token}
    (here : c.rest = ⟨.operator op, range⟩ :: rest) : s.depth = c.depth := by
  simpa [leaf?] using h _ _ here

theorem Cursor.Follows.depth_of_closeParen {c : Cursor} {s : Nesting} (h : c.Follows s)
    {range : ByteRange} {rest : List Token}
    (here : c.rest = ⟨.closeParen, range⟩ :: rest) : s.depth = c.depth := by
  simpa [leaf?] using h _ _ here

theorem Cursor.Follows.restart {c : Cursor} {s : Nesting} (h : c.Follows s)
    (outside : c.depth = 0) : s.leaves c.rest = Nesting.leaves {} c.rest := by
  apply Nesting.leaves_congr
  intro token rest here
  have agree := h token rest here
  obtain ⟨depth, due⟩ := s
  obtain ⟨kind, range⟩ := token
  cases kind <;> simp_all [leaf?, Nesting.next, Nesting.operandDepth]

theorem Cursor.Follows.closing {c c' : Cursor} {s : Nesting} (h : c.Follows s)
    (stops : c.Stops 1) {innerEnd : Nat} {close : Tree}
    (closes : Arith.closing innerEnd { c with depth := c.depth - 1 } = (close, c')) :
    ∃ s' : Nesting, c'.Follows s' ∧ s.leaves c.rest = close.leaves ++ s'.leaves c'.rest := by
  rcases closing_cases closes with ⟨range, behind, here, rfl, rfl⟩ | ⟨other, rfl, rfl⟩
  · have atClose : c.rest = ⟨.closeParen, range⟩ :: behind := here
    have depth : s.depth = c.depth := h.depth_of_closeParen atClose
    refine ⟨⟨s.depth - 1, false⟩, Cursor.follows_of_depth rfl ?_, ?_⟩
    · simp [Cursor.consume, depth]
    · rw [atClose, Nesting.leaves_of_next behind rfl, anonymousLeaf, Tree.leaves_leaf rfl]
      rfl
  · refine ⟨s, ?_, ?_⟩
    -- neither an operator nor a closing parenthesis comes next
    · intro token rest here
      have agree := h token rest here
      have noClose := other token rest here
      obtain ⟨kind, range⟩ := token
      cases kind with
      | operator op => exact absurd here (stops.rest_ne op range rest)
      | closeParen => exact absurd rfl noClose
      | _ => simpa [leaf?] using agree
    · rw [Tree.leaves_missing, List.nil_append]

theorem Reads.leaves_eq {p : Nat} {c c' : Cursor} {t : Tree} (h : Reads p c t c') {s : Nesting}
    (due : s.due = true) (depth : s.depth = c.depth) :
    ∃ s' : Nesting, c'.Follows s' ∧ s.leaves c.rest = t.leaves ++ s'.leaves c'.rest := by
  induction h generalizing s with
  | @absent _ c lacks =>
      refine ⟨s, ?_, ?_⟩
      · intro token rest here
        obtain ⟨noLeaf, noParen⟩ := lacks token rest here
        simpa [noLeaf, noParen] using depth
      · rw [Cursor.missingNumber, Tree.leaves_missing, List.nil_append]
  | @leaf _ c token rest t here isLeaf =>
      have step : s.next token.kind = some ⟨s.depth, false⟩ := by
        unfold leaf? at isLeaf
        split at isLeaf <;> simp_all [Nesting.next, Nesting.operandDepth]
      refine ⟨⟨s.depth, false⟩, Cursor.follows_of_depth rfl depth, ?_⟩
      rw [here, Nesting.leaves_of_next rest step, label_of_leaf? isLeaf]
      rfl
  | @tooDeep _ c token rest here kind deep =>
      have step : s.next token.kind = none := by
        simp [kind, Nesting.next, Nesting.operandDepth, due, depth, deep]
      refine ⟨s, ?_, ?_⟩
      · intro _ _ nothing
        cases nothing
      · rw [here, Nesting.leaves, step, errorLeaf, Tree.leaves_leaf rfl,
          Cursor.lastEnd_exhaust here]
        rfl
  | @parens _ c c₁ c₂ token rest body close here kind shallow inner stops closes ih =>
      have step : s.next token.kind = some ⟨c.depth + 1, true⟩ := by
        simp [kind, Nesting.next, Nesting.operandDepth, due, depth, shallow]
      have opening : (anonymousLeaf "(" token.range).leaves = [token.label] := by
        rw [anonymousLeaf, Tree.leaves_leaf rfl, Token.label, kind]
        rfl
      obtain ⟨s₁, follows, made⟩ := @ih ⟨c.depth + 1, true⟩ rfl rfl
      obtain ⟨s₂, follows₂, made₂⟩ := follows.closing stops closes
      refine ⟨s₂, follows₂, ?_⟩
      calc s.leaves c.rest
          = token.label :: Nesting.leaves ⟨c.depth + 1, true⟩ rest := by
            rw [here, Nesting.leaves_of_next rest step]
        _ = token.label :: (body.leaves ++ (close.leaves ++ s₂.leaves c₂.rest)) := by
            rw [← made₂, ← made]
            rfl
        _ = _ := by
            rw [Tree.branch, Tree.leaves_node]
            simp [opening]
  | @binary _ c c₁ c₂ left right op range rest readLeft here _ _ _ ihLeft ihRight =>
      obtain ⟨s₁, follows₁, made₁⟩ := ihLeft due depth
      have depth₁ := follows₁.depth_of_operator here
      obtain ⟨s₂, follows₂, made₂⟩ := @ihRight ⟨s₁.depth, true⟩ rfl depth₁
      have symbol : (anonymousLeaf op.symbol range).leaves = [Token.label ⟨.operator op, range⟩] :=
        Tree.leaves_leaf rfl
      refine ⟨s₂, follows₂, ?_⟩
      calc s.leaves c.rest
          = left.leaves ++ (Token.label ⟨.operator op, range⟩ ::
              Nesting.leaves ⟨s₁.depth, true⟩ rest) := by
            rw [made₁, here, Nesting.leaves_of_next rest rfl]
        _ = left.leaves ++ (Token.label ⟨.operator op, range⟩ ::
              (right.leaves ++ s₂.leaves c₂.rest)) := by
            rw [← made₂]
            rfl
        _ = _ := by
            rw [Arith.binary, Tree.branch, Tree.leaves_node]
            simp [symbol, Tree.leaves_withField]

theorem ReadsOthers.leaves_eq {c c' : Cursor} {ts : List Tree} (h : ReadsOthers c ts c')
    {s : Nesting} (follows : c.Follows s) (outside : c.depth = 0) :
    s.leaves c.rest = ts.flatMap Tree.leaves := by
  induction h generalizing s with
  | done empty => rw [empty]; rfl
  | @close c _ range rest ts here _ ih =>
      have depth : s.depth = c.depth := follows.depth_of_closeParen here
      have behind := @ih ⟨s.depth - 1, false⟩
        (Cursor.follows_of_depth rfl (by simp [Cursor.consume, depth, outside])) outside
      have stray : (anonymousLeaf ")" range).leaves = [Token.label ⟨.closeParen, range⟩] :=
        Tree.leaves_leaf rfl
      rw [here, Nesting.leaves_of_next rest rfl, List.flatMap_cons, ← behind, stray]
      rfl
  | @expression c c₁ c₂ t ts _ read _ _ ih =>
      obtain ⟨s₁, follows₁, made⟩ := read.leaves_eq (s := {}) rfl outside.symm
      rw [follows.restart outside, made, List.flatMap_cons,
        ih follows₁ (read.depth.trans outside)]

theorem leaves_parse (text : Text) :
    (parse text).leaves = Nesting.leaves {} (Token.tokenize text) := by
  obtain ⟨first, c₁, others, c₂, read, -, leftover, whole⟩ :=
    reads_parseTokens (Token.tokenize text) text.width
  obtain ⟨s₁, follows, made⟩ := read.leaves_eq (s := {}) rfl rfl
  have behind := leftover.leaves_eq follows read.depth
  rw [parse, whole, show Nesting.leaves {} (Token.tokenize text) = _ from made, behind]
  cases others with
  | nil => exact Tree.leaves_node _ _ _
  | cons t ts =>
      rw [List.isEmpty_cons, if_neg Bool.false_ne_true, Tree.leaves_node, errorBranch]
      simp [Tree.leaves_node]

theorem Spaced.of_mem {text : Text} {last : Nat} {tokens : List Token}
    (h : Spaced text last tokens) {token : Token} (mem : token ∈ tokens) :
    last ≤ token.range.start ∧
      token.range.stop ≤ (tokens.map (·.range.stop)).getLastD last := by
  induction tokens generalizing last with
  | nil => cases mem
  | cons first tokens ih =>
      obtain ⟨-, before, -, nonempty, behind⟩ := h
      rw [List.map_cons, List.getLastD_cons]
      rcases List.mem_cons.1 mem with rfl | later
      · exact ⟨before, behind.getLastD.2⟩
      · obtain ⟨starts, stops⟩ := ih behind later
        exact ⟨by omega, stops⟩

theorem Spaced.pairwise_leaves {text : Text} {last : Nat} {tokens : List Token}
    (h : Spaced text last tokens) (s : Nesting) :
    (∀ label ∈ s.leaves tokens, last ≤ label.range.start) ∧
      (s.leaves tokens).Pairwise fun l m => l.range.stop ≤ m.range.start := by
  induction tokens generalizing last s with
  | nil => simp [Nesting.leaves]
  | cons token tokens ih =>
      obtain ⟨-, before, -, nonempty, behind⟩ := h
      rw [Nesting.leaves]
      cases s.next token.kind with
      | none =>
          refine ⟨?_, List.pairwise_singleton _ _⟩
          intro label mem
          rw [List.mem_singleton.1 mem]
          exact before
      | some s' =>
          obtain ⟨starts, ordered⟩ := ih behind s'
          refine ⟨?_, List.pairwise_cons.2 ⟨?_, ordered⟩⟩
          · intro label mem
            rcases List.mem_cons.1 mem with rfl | later
            · rwa [Token.range_label]
            · have := starts label later
              omega
          · intro label mem
            rw [Token.range_label]
            exact starts label mem

theorem Spaced.exists_leaf {text : Text} {last : Nat} {tokens : List Token}
    (h : Spaced text last tokens) (s : Nesting) {token : Token} (mem : token ∈ tokens) :
    ∃ label ∈ s.leaves tokens, label.range.start ≤ token.range.start ∧
      token.range.stop ≤ label.range.stop := by
  induction tokens generalizing last s with
  | nil => cases mem
  | cons first tokens ih =>
      obtain ⟨-, before, -, nonempty, behind⟩ := h
      rw [Nesting.leaves]
      cases s.next first.kind with
      | none =>
          refine ⟨deepLabel first tokens, List.mem_singleton_self _, ?_⟩
          rcases List.mem_cons.1 mem with rfl | later
          · exact ⟨Nat.le_refl _, behind.getLastD.2⟩
          · obtain ⟨starts, stops⟩ := behind.of_mem later
            exact ⟨by dsimp only [deepLabel]; omega, stops⟩
      | some s' =>
          rcases List.mem_cons.1 mem with rfl | later
          · refine ⟨token.label, List.mem_cons_self, ?_⟩
            rw [Token.range_label]
            exact ⟨Nat.le_refl _, Nat.le_refl _⟩
          · obtain ⟨label, made, inside⟩ := ih behind s' later
            exact ⟨label, List.mem_cons_of_mem _ made, inside⟩

theorem labels_solidLeaves (text : Text) :
    (arena text).solidLeaves.map (fun id => ((arena text).label id).bare) =
      Nesting.leaves {} (Token.tokenize text) := by
  rw [Arena.map_bare_solidLeaves, arena, (Arena.unfold_ofTree (sound_parse text).1.within).1,
    leaves_parse]

theorem exists_final {label : Label} {opening : Token} {behind : List Token}
    (h : label.bare = deepLabel opening behind) :
    label.kind = "ERROR" ∧ label.error = true ∧
      ∃ final, (opening :: behind).getLast? = some final ∧
        label.range = ⟨opening.range.start, final.range.stop⟩ := by
  refine ⟨congrArg Label.kind h, congrArg Label.error h, behind.getLastD opening, ?_, ?_⟩
  · rw [List.getLast?_cons, List.getLastD_eq_getLast?]
  · have range : label.bare.range = (deepLabel opening behind).range := by rw [h]
    exact range.trans (by rw [deepLabel, List.getLastD_map])

theorem ranges_of_shallow {text : Text} (h : (Nesting.cut {} (Token.tokenize text)).2 = []) :
    (arena text).solidLeaves.map (arena text).range = (Token.tokenize text).map (·.range) := by
  obtain ⟨whole, ⟨-, leaves⟩ | ⟨opening, behind, deep, -⟩⟩ :=
    Nesting.leaves_eq_cut {} (Token.tokenize text)
  · rw [h, List.append_nil] at whole
    rw [whole, ← labels_solidLeaves] at leaves
    have ranges := congrArg (List.map Label.range) leaves
    rwa [Arena.map_range_bare, Token.map_range_label] at ranges
  · rw [deep] at h
    cases h

theorem solidLeaves_of_deep {text : Text} {kept behind : List Token} {opening : Token}
    (h : Nesting.cut {} (Token.tokenize text) = (kept, opening :: behind)) :
    Token.tokenize text = kept ++ opening :: behind ∧ opening.kind = .openParen ∧
      ∃ leaves last, (arena text).solidLeaves = leaves ++ [last] ∧
        leaves.map (arena text).range = kept.map (·.range) ∧
        ((arena text).label last).bare = deepLabel opening behind := by
  obtain ⟨whole, ⟨shallow, -⟩ | ⟨_, _, deep, kind, made⟩⟩ :=
    Nesting.leaves_eq_cut {} (Token.tokenize text)
  · rw [h] at shallow
    cases shallow
  · rw [h] at whole deep made
    cases deep
    rw [← labels_solidLeaves] at made
    obtain ⟨leaves, others, split, first, second⟩ := List.map_eq_append_iff.1 made
    obtain ⟨last, rfl, label⟩ := List.map_eq_singleton_iff.1 second
    have ranges := congrArg (List.map Label.range) first
    rw [Arena.map_range_bare, Token.map_range_label] at ranges
    exact ⟨whole.symm, kind, leaves, last, split, ranges, label⟩

theorem eq_of_holds {text : Text} {i j offset : Nat} (memI : i ∈ (arena text).solidLeaves)
    (memJ : j ∈ (arena text).solidLeaves) (holdsI : (arena text).Holds i offset)
    (holdsJ : (arena text).Holds j offset) : i = j := by
  have ordered := ((spaced_tokenize text).pairwise_leaves {}).2
  rw [← labels_solidLeaves, List.pairwise_map] at ordered
  have apart : (arena text).solidLeaves.Pairwise fun i j =>
      ¬((arena text).Holds i offset ∧ (arena text).Holds j offset) := by
    refine ordered.imp ?_
    intro i j before both
    rw [Arena.range_bare, Arena.range_bare] at before
    have inside := both.1.2
    have behind := both.2.1
    omega
  by_contra different
  have symmetric : Std.Symm fun i j =>
      ¬((arena text).Holds i offset ∧ (arena text).Holds j offset) :=
    ⟨fun _ _ not both => not both.symm⟩
  exact apart.forall memI memJ different ⟨holdsI, holdsJ⟩

theorem exists_holds {before : Text} {c : Char} (solid : Text.isLayout c = false) (after : Text)
    {offset : Nat} (starts : before.width ≤ offset) (stops : offset < before.width + c.utf8Size) :
    ∃ id ∈ (arena (before ++ c :: after)).solidLeaves,
      (arena (before ++ c :: after)).Holds id offset := by
  obtain ⟨token, mem, first, last⟩ := (covers_tokenize (before ++ c :: after)).exists_token solid
  obtain ⟨label, made, start, stop⟩ := (spaced_tokenize (before ++ c :: after)).exists_leaf {} mem
  rw [← labels_solidLeaves] at made
  obtain ⟨id, leaf, rfl⟩ := List.mem_map.1 made
  rw [Arena.range_bare] at start stop
  refine ⟨id, leaf, ?_, ?_⟩
  · exact Nat.le_trans (Nat.le_trans start (by omega)) starts
  · exact Nat.lt_of_lt_of_le (by omega) stop

/-- No text is lost or repeated: the leaves are the tokens, save that a
parenthesis nested too deeply makes one error leaf of itself and all tokens
behind it.  So every byte lies in exactly one leaf unless it is layout. -/
theorem solidLeaves_arena (text : Text) :
    ((Nesting.cut {} (Token.tokenize text)).2 = [] →
      (arena text).solidLeaves.map (arena text).range = (Token.tokenize text).map (·.range)) ∧
    (∀ kept opening behind, Nesting.cut {} (Token.tokenize text) = (kept, opening :: behind) →
      Token.tokenize text = kept ++ opening :: behind ∧ opening.kind = .openParen ∧
        ∃ leaves last final, (arena text).solidLeaves = leaves ++ [last] ∧
          leaves.map (arena text).range = kept.map (·.range) ∧
          ((arena text).label last).kind = "ERROR" ∧ ((arena text).label last).error = true ∧
          (Token.tokenize text).getLast? = some final ∧
          (arena text).range last = ⟨opening.range.start, final.range.stop⟩) ∧
    (∀ (before after : Text) (c : Char), text = before ++ c :: after →
      ∀ offset, before.width ≤ offset → offset < before.width + c.utf8Size →
        (Text.isLayout c = false →
          ∃! id, id ∈ (arena text).solidLeaves ∧ (arena text).Holds id offset) ∧
        ((∀ id ∈ (arena text).solidLeaves, ¬(arena text).Holds id offset) →
          Text.isLayout c = true)) := by
  refine ⟨ranges_of_shallow, ?_, ?_⟩
  · intro kept opening behind deep
    obtain ⟨whole, kind, leaves, last, split, ranges, label⟩ := solidLeaves_of_deep deep
    obtain ⟨error, isError, final, isLast, range⟩ := exists_final label
    refine ⟨whole, kind, leaves, last, final, split, ranges, error, isError, ?_, range⟩
    rw [whole, List.getLast?_append, isLast, Option.some_or]
  · rintro before after c rfl offset starts stops
    constructor
    · intro solid
      obtain ⟨id, mem, holds⟩ := exists_holds solid after starts stops
      exact ⟨id, ⟨mem, holds⟩, fun other found => eq_of_holds found.1 mem found.2 holds⟩
    · intro nowhere
      by_contra solid
      rw [Bool.not_eq_true] at solid
      obtain ⟨id, mem, holds⟩ := exists_holds solid after starts stops
      exact nowhere id mem holds

example : (Nesting.cut {} (Token.tokenize (List.replicate 257 '('))).2.length = 1 := by
  decide +kernel

end Arith

end ParseTree
