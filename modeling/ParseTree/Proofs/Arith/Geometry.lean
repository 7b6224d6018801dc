import ParseTree.Proofs.Arena.Geometry
import ParseTree.Proofs.Arith.Reading
import ParseTree.Proofs.Arith.Tokens
import ParseTree.Proofs.Query.Captures
import ParseTree.Proofs.Session.Editing

/-!
# Geometry of arithmetic trees

The parser builds sound trees out of any text.  The invariant that carries the
induction relates the end of the token consumed last to what is read next: a
tree begins at or behind the end before it was read and stops at or before the
end after it.  Missing nodes are put at such ends, so they never leave their
place between their neighbours.
-/

namespace ParseTree.Arith

variable {text : Text}

theorem sound_leaf {label : Label} (start : text.isBoundary label.range.start = true)
    (stop : text.isBoundary label.range.stop = true) (present : label.missing = false)
    (nonempty : label.range.start < label.range.stop) : (Tree.leaf label).Sound text :=
  ⟨start, stop, fun missing => by simp [present] at missing, fun _ _ => nonempty,
    Nat.le_of_lt nonempty⟩

theorem sound_missing {kind : String} {named : Bool} {offset : Nat}
    (h : text.isBoundary offset = true) : (Tree.missing kind named offset).Sound text := by
  refine ⟨h, h, fun _ => rfl, ?_, Nat.le_refl offset⟩
  intro _ present
  cases present

theorem range_withField (field : String) (t : Tree) : (t.withField field).range = t.range := by
  cases t
  rfl

theorem sound_withField {field : String} {t : Tree} (h : t.Sound text) :
    (t.withField field).Sound text := by
  cases t
  exact h

theorem lined_foldl_max {last stop : Nat} {ts : List Tree}
    (boundary : text.isBoundary last = true) (h : Tree.Lined text last stop ts) :
    Tree.Lined text last ((ts.map (·.range.stop)).foldl max last) ts ∧
      (ts.map (·.range.stop)).foldl max last ≤ stop ∧
      text.isBoundary ((ts.map (·.range.stop)).foldl max last) = true := by
  induction ts generalizing last with
  | nil => exact ⟨Nat.le_refl last, h, boundary⟩
  | cons t ts ih =>
      obtain ⟨before, sound, behind⟩ := h
      have ordered := sound.ordered
      have furthest : max last t.range.stop = t.range.stop := by omega
      obtain ⟨label, children⟩ := t
      obtain ⟨lined, within, edge⟩ := ih sound.2.1 behind
      rw [List.map_cons, List.foldl_cons, furthest]
      exact ⟨⟨before, sound, lined⟩, within, edge⟩

theorem sound_span {label : Label} {t : Tree} {ts : List Tree} {start stop : Nat}
    (span : label.range = Tree.spanOf (t :: ts)) (present : label.missing = false)
    (h : Tree.Lined text start stop (t :: ts)) :
    Tree.Sound text (.node label (t :: ts)) ∧ start ≤ label.range.start ∧
      label.range.stop ≤ stop := by
  obtain ⟨before, sound, behind⟩ := h
  obtain ⟨inner, children⟩ := t
  obtain ⟨lined, within, edge⟩ := lined_foldl_max sound.2.1 behind
  rw [span]
  refine ⟨⟨?_, ?_, fun missing => by simp [present] at missing, ?_, ?_⟩, before, within⟩
  · rw [span]
    exact sound.1
  · rw [span]
    exact edge
  · intro empty
    cases empty
  · rw [span]
    exact ⟨Nat.le_refl _, sound, lined⟩

theorem sound_branch (kind : String) {t : Tree} {ts : List Tree} {start stop : Nat}
    (h : Tree.Lined text start stop (t :: ts)) :
    (Tree.branch kind (t :: ts)).Sound text ∧
      start ≤ (Tree.branch kind (t :: ts)).range.start ∧
      (Tree.branch kind (t :: ts)).range.stop ≤ stop :=
  sound_span rfl rfl h

theorem leaf?_eq_some {token : Token} {t : Tree} (h : leaf? token = some t) :
    ∃ label, t = .leaf label ∧ label.range = token.range ∧ label.missing = false := by
  unfold leaf? at h
  split at h
  · cases h
    exact ⟨_, rfl, rfl, rfl⟩
  · cases h
    exact ⟨_, rfl, rfl, rfl⟩
  · cases h
    exact ⟨_, rfl, rfl, rfl⟩
  all_goals cases h

theorem Spaced.getLastD {last : Nat} {tokens : List Token} (h : Spaced text last tokens) :
    text.isBoundary ((tokens.map (·.range.stop)).getLastD last) = true ∧
      last ≤ (tokens.map (·.range.stop)).getLastD last := by
  induction tokens generalizing last with
  | nil => exact ⟨h, Nat.le_refl last⟩
  | cons token tokens ih =>
      obtain ⟨-, before, -, nonempty, behind⟩ := h
      obtain ⟨boundary, after⟩ := ih behind
      rw [List.map_cons, List.getLastD_cons]
      exact ⟨boundary, by omega⟩

theorem Spaced.consume {c : Cursor} {token : Token} {rest : List Token}
    (h : Spaced text c.lastEnd c.rest) (here : c.rest = token :: rest) :
    c.lastEnd ≤ token.range.start ∧ text.isBoundary token.range.start = true ∧
      token.range.start < token.range.stop ∧ text.isBoundary token.range.stop = true ∧
      Spaced text (c.consume token rest).lastEnd (c.consume token rest).rest := by
  rw [here] at h
  obtain ⟨-, before, start, nonempty, behind⟩ := h
  exact ⟨before, start, nonempty, behind.isBoundary, behind⟩

theorem Reads.sound {p : Nat} {c c' : Cursor} {t : Tree} (h : Reads p c t c')
    (spaced : Spaced text c.lastEnd c.rest) :
    t.Sound text ∧ c.lastEnd ≤ t.range.start ∧ t.range.stop ≤ c'.lastEnd ∧
      Spaced text c'.lastEnd c'.rest := by
  induction h with
  | absent =>
      exact ⟨sound_missing spaced.isBoundary, Nat.le_refl _, Nat.le_refl _, spaced⟩
  | leaf here isLeaf =>
      obtain ⟨before, start, nonempty, stop, behind⟩ := spaced.consume here
      obtain ⟨label, rfl, range, present⟩ := leaf?_eq_some isLeaf
      rw [← range] at before start nonempty stop
      refine ⟨sound_leaf start stop present nonempty, before, ?_, behind⟩
      exact Nat.le_of_eq (congrArg ByteRange.stop range)
  | @tooDeep _ c token rest here _ _ =>
      obtain ⟨before, start, nonempty, stop, behind⟩ := spaced.consume here
      obtain ⟨edge, after⟩ := behind.getLastD
      simp only [Cursor.consume, ← Cursor.lastEnd_exhaust here] at edge after
      exact ⟨sound_leaf start edge rfl (by dsimp only; omega), before, Nat.le_refl _, edge⟩
  | @parens _ c c₁ c₂ token rest body close here _ _ _ _ closes ih =>
      obtain ⟨before, start, nonempty, stop, behind⟩ := spaced.consume here
      obtain ⟨sound, inner, reach, behind⟩ := ih behind
      have opening : (anonymousLeaf "(" token.range).Sound text :=
        sound_leaf start stop rfl nonempty
      have inside : token.range.stop ≤ body.range.start := inner
      -- a missing parenthesis stands at the end of the body, a present one behind it
      have closed : close.Sound text ∧ body.range.stop ≤ close.range.start ∧
          close.range.stop ≤ c₂.lastEnd ∧ Spaced text c₂.lastEnd c₂.rest := by
        rcases closing_cases closes with ⟨range, rest', at_close, rfl, rfl⟩ | ⟨-, rfl, rfl⟩
        · obtain ⟨before', start', nonempty', stop', behind'⟩ := behind.consume at_close
          exact ⟨sound_leaf start' stop' rfl nonempty', Nat.le_trans reach before',
            Nat.le_refl _, behind'⟩
        · obtain ⟨label, children⟩ := body
          exact ⟨sound_missing sound.2.1, Nat.le_refl _, reach, behind⟩
      have line : Tree.Lined text c.lastEnd c₂.lastEnd
          [anonymousLeaf "(" token.range, body, close] :=
        ⟨before, opening, inside, sound, closed.2.1, closed.1, closed.2.2.1⟩
      obtain ⟨whole, starts, stops⟩ := sound_branch "parenthesized_expression" line
      exact ⟨whole, starts, stops, closed.2.2.2⟩
  | @binary _ c c₁ c₂ left right op range rest _ here _ _ _ ihLeft ihRight =>
      obtain ⟨leftSound, starts, leftEnds, behindLeft⟩ := ihLeft spaced
      obtain ⟨before, start, nonempty, stop, behind⟩ := behindLeft.consume here
      obtain ⟨rightSound, rightStarts, ends, behindRight⟩ := ihRight behind
      have symbol : (anonymousLeaf op.symbol range).Sound text :=
        sound_leaf start stop rfl nonempty
      have line : Tree.Lined text c.lastEnd c₂.lastEnd
          [left.withField "left", anonymousLeaf op.symbol range, right.withField "right"] := by
        refine ⟨?_, sound_withField leftSound, ?_, symbol, ?_, sound_withField rightSound, ?_⟩
        · rwa [range_withField]
        · rw [range_withField]
          exact Nat.le_trans leftEnds before
        · rw [range_withField]
          exact rightStarts
        · rwa [range_withField]
      obtain ⟨whole, starts, stops⟩ := sound_branch op.kind line
      exact ⟨whole, starts, stops, behindRight⟩

theorem ReadsOthers.lined {c c' : Cursor} {ts : List Tree} (h : ReadsOthers c ts c')
    (spaced : Spaced text c.lastEnd c.rest) :
    Tree.Lined text c.lastEnd c'.lastEnd ts ∧ text.isBoundary c'.lastEnd = true := by
  induction h with
  | done => exact ⟨Nat.le_refl _, spaced.isBoundary⟩
  | close here _ ih =>
      obtain ⟨before, start, nonempty, stop, behind⟩ := spaced.consume here
      obtain ⟨lined, edge⟩ := ih behind
      exact ⟨⟨before, sound_leaf start stop rfl nonempty, lined⟩, edge⟩
  | expression _ read _ _ ih =>
      obtain ⟨sound, starts, ends, behind⟩ := read.sound spaced
      obtain ⟨lined, edge⟩ := ih behind
      exact ⟨⟨starts, sound, lined.of_le ends⟩, edge⟩

theorem sound_parse (text : Text) :
    (parse text).Sound text ∧ (parse text).range = ⟨0, text.width⟩ := by
  obtain ⟨first, c₁, others, c₂, read, -, leftover, whole⟩ :=
    reads_parseTokens (Token.tokenize text) text.width
  obtain ⟨sound, -, ends, behind⟩ := read.sound (spaced_tokenize text)
  obtain ⟨lined, edge⟩ := leftover.lined behind
  have inside := Text.le_width_of_isBoundary edge
  rw [parse, whole]
  refine ⟨⟨Text.isBoundary_zero text, Text.isBoundary_width text, ?_, ?_, ?_⟩, rfl⟩
  · intro missing
    cases missing
  · intro empty
    split at empty <;> cases empty
  · cases others with
    | nil =>
        exact ⟨Nat.zero_le _, sound, Nat.le_trans ends (Nat.le_trans lined.ordered inside)⟩
    | cons t ts =>
        have error : (errorBranch (t :: ts)).Sound text ∧
            c₁.lastEnd ≤ (errorBranch (t :: ts)).range.start ∧
            (errorBranch (t :: ts)).range.stop ≤ c₂.lastEnd :=
          sound_span rfl rfl lined
        exact ⟨Nat.zero_le _, sound, Nat.le_trans ends error.2.1, error.1,
          Nat.le_trans error.2.2 inside⟩

theorem unfold_arena (text : Text) : (arena text).unfold 0 = parse text :=
  (Arena.unfold_ofTree (sound_parse text).1.within).1

theorem descendants_arena (text : Text) :
    (arena text).descendants 0 = List.range (arena text).size :=
  (Arena.unfold_ofTree (sound_parse text).1.within).2

theorem geometry_of_parse (text : Text) : (arena text).Geometry text :=
  (sound_parse text).1.geometry (sound_parse text).2

theorem start_eq_positionAt {text : Text} {id : Nat} (inside : id < (arena text).size) :
    ((arena text).entry id).start = text.positionAt ((arena text).range id).start := by
  rw [arena] at inside ⊢
  rw [Arena.range]
  exact (Arena.positions_ofTree inside).1

/-- The arena of any text lies over the text as it should: so every node and
every capture has a range that can be edited, and building the arena neither
cuts a range nor meets one that escapes the range above it. -/
theorem arena_geometry (text : Text) :
    (arena text).Geometry text ∧
    (∀ id < (arena text).size, ∀ p : Parsed, p.text = text →
      p.document.check ((arena text).range id) = .ok () ∧
        ∀ engine : Engine, engine.Serves p.language → ∀ replacement,
          ∃ p', p.edit engine ((arena text).range id) replacement = (.ok (), p')) ∧
    (∀ (q : Query) (settings : QuerySettings), ∀ id < (arena text).size,
      ∀ m ∈ q.matchesAt (arena text) text id settings, ∀ capture ∈ m.captures,
        ∀ p : Parsed, p.text = text →
          p.document.check ((arena text).range capture.2) = .ok () ∧
            ∀ engine : Engine, engine.Serves p.language → ∀ replacement,
              ∃ p', p.edit engine ((arena text).range capture.2) replacement = (.ok (), p')) ∧
    (arena text = ((Builder.ofText text).pushAll (Builder.pushes none 0 (parse text))).finish ∧
      (Builder.ofText text).AcceptsAll (Builder.pushes none 0 (parse text))) := by
  obtain ⟨sound, whole⟩ := sound_parse text
  have geometry : (arena text).Geometry text := sound.geometry whole
  have editable : ∀ id < (arena text).size, ∀ p : Parsed, p.text = text →
      p.document.check ((arena text).range id) = .ok () ∧
        ∀ engine : Engine, engine.Serves p.language → ∀ replacement,
          ∃ p', p.edit engine ((arena text).range id) replacement = (.ok (), p') := by
    intro id inside p same
    have accepted : p.document.check ((arena text).range id) = .ok () := by
      refine Document.check_eq_ok_iff.2 ⟨geometry.ordered id inside, ?_⟩
      rw [show p.document.text = text from same]
      exact geometry.boundaries id inside
    exact ⟨accepted, fun _ served => Parsed.exists_edit_of_check accepted served⟩
  refine ⟨geometry, editable, ?_, ?_, ?_⟩
  · intro q settings id inside m found capture captured
    exact editable capture.2 (Query.capture_lt_size inside found captured)
  · rw [arena, Arena.ofTree, Builder.addTree_eq_pushAll]
    rfl
  · apply Builder.acceptsAll_pushes sound rfl
    intro id none
    cases none

end ParseTree.Arith
