import ParseTree.Arith.Token
import ParseTree.Proofs.Text.Boundary
import ParseTree.Proofs.Text.Scan

/-!
# Where the tokens stand

The tokens of a text stand in it one behind the other, none of them empty, with
nothing but layout around them.  Order, boundaries and the coverage of the text
all follow from this.
-/

namespace ParseTree

namespace Arith

/-- The tokens stand in `text`, which begins at `offset`; all else is layout. -/
def Covers : Nat → Text → List Token → Prop
  | _, text, [] => ∀ c ∈ text, Text.isLayout c = true
  | offset, text, token :: tokens =>
      ∃ blank body rest, text = blank ++ body ++ rest ∧
        (∀ c ∈ blank, Text.isLayout c = true) ∧ body ≠ [] ∧
        token.range.start = offset + blank.width ∧
        token.range.stop = token.range.start + body.width ∧
        Covers token.range.stop rest tokens

theorem Covers.after_blank {offset : Nat} {blank text : Text} {tokens : List Token}
    (layout : ∀ c ∈ blank, Text.isLayout c = true)
    (h : Covers (offset + blank.width) text tokens) : Covers offset (blank ++ text) tokens := by
  have both : ∀ more : Text, (∀ c ∈ more, Text.isLayout c = true) →
      ∀ c ∈ blank ++ more, Text.isLayout c = true := by
    intro more moreLayout c mem
    rcases List.mem_append.1 mem with here | there
    · exact layout c here
    · exact moreLayout c there
  cases tokens with
  | nil => exact both text h
  | cons token tokens =>
      obtain ⟨more, body, rest, rfl, moreLayout, nonempty, start, stop, behind⟩ := h
      refine ⟨blank ++ more, body, rest, by simp, both more moreLayout, nonempty, ?_, stop,
        behind⟩
      rw [start, Text.width_append]
      omega

theorem Covers.join {offset : Nat} {text : Text} {t u : Token} {tokens : List Token}
    (h : Covers offset text (t :: u :: tokens)) : Covers offset text (t.join u :: tokens) := by
  obtain ⟨blank, body, _, rfl, layout, nonempty, start, stop, behind⟩ := h
  obtain ⟨gap, body', rest, rfl, -, -, start', stop', behind'⟩ := behind
  refine ⟨blank, body ++ gap ++ body', rest, by simp, layout, by simp [nonempty], start, ?_,
    behind'⟩
  simp only [Token.join, Text.width_append]
  omega

theorem Covers.coalesce (loose : Token → Bool) {offset : Nat} {text : Text}
    {tokens : List Token} (h : Covers offset text tokens) :
    Covers offset text (coalesce loose Token.join tokens) := by
  induction tokens generalizing offset text with
  | nil => exact h
  | cons t ts ih =>
      obtain ⟨blank, body, rest, rfl, layout, nonempty, start, stop, behind⟩ := h
      have joined : Covers offset (blank ++ body ++ rest)
          (t :: ParseTree.coalesce loose Token.join ts) :=
        ⟨blank, body, rest, rfl, layout, nonempty, start, stop, ih behind⟩
      rw [ParseTree.coalesce]
      cases later : ParseTree.coalesce loose Token.join ts with
      | nil => rwa [later] at joined
      | cons u us =>
          rw [later] at joined
          dsimp only
          split
          · exact joined.join
          · exact joined

theorem layout_of_lexicalRule {c : Char} {rest : Text} {length : Nat}
    (h : lexicalRule c rest = (none, length)) :
    ∀ d ∈ c :: rest.take length, Text.isLayout d = true := by
  unfold lexicalRule at h
  split at h
  · rename_i layout
    simp only [Prod.mk.injEq, true_and] at h
    subst h
    intro d mem
    rcases List.mem_cons.1 mem with rfl | later
    · exact layout
    · rw [← List.prefix_iff_eq_take.1 (List.takeWhile_prefix _)] at later
      exact List.all_eq_true.1 List.all_takeWhile d later
  · split at h
    · simp at h
    split at h
    · simp at h
    split at h <;> simp at h

theorem covers_scanFrom (offset : Nat) (text : Text) :
    Covers offset text
      ((Lexeme.scanFrom lexicalRule offset 0 text).filterMap Token.ofLexeme?) := by
  induction size : text.length using Nat.strongRecOn generalizing offset text with
  | ind length ih =>
      cases text with
      | nil => simp [Lexeme.scanFrom, Covers]
      | cons c rest =>
          obtain ⟨⟨kind, more⟩, rule⟩ : ∃ cut, lexicalRule c rest = cut := ⟨_, rfl⟩
          have cut : c :: rest = (c :: rest.take more) ++ rest.drop more := by simp
          have behind := ih (rest.drop more).length
            (by rw [← size, List.length_drop, List.length_cons]; omega)
            (offset + Text.width (c :: rest.take more)) (rest.drop more) rfl
          rw [Lexeme.scanFrom_cons rule]
          cases kind with
          | none =>
              rw [List.filterMap_cons_none rfl, cut]
              exact behind.after_blank (layout_of_lexicalRule rule)
          | some kind =>
              rw [List.filterMap_cons]
              exact ⟨[], c :: rest.take more, rest.drop more, by simp, by simp, by simp, rfl,
                rfl, behind⟩

theorem covers_tokenize (text : Text) : Covers 0 text (Token.tokenize text) :=
  (covers_scanFrom 0 text).coalesce Token.isUnknown

/-- From the boundary `last` on, tokens follow one another, none of them empty
and each between two boundaries. -/
def Spaced (text : Text) : Nat → List Token → Prop
  | last, [] => text.isBoundary last = true
  | last, token :: tokens =>
      text.isBoundary last = true ∧ last ≤ token.range.start ∧
        text.isBoundary token.range.start = true ∧ token.range.start < token.range.stop ∧
        Spaced text token.range.stop tokens

theorem Spaced.isBoundary {text : Text} {last : Nat} {tokens : List Token}
    (h : Spaced text last tokens) : text.isBoundary last = true := by
  cases tokens with
  | nil => exact h
  | cons => exact h.1

theorem Covers.spaced {before text : Text} {tokens : List Token}
    (h : Covers before.width text tokens) : Spaced (before ++ text) before.width tokens := by
  induction tokens generalizing before text with
  | nil => exact Text.isBoundary_append before text
  | cons token tokens ih =>
      obtain ⟨blank, body, rest, rfl, layout, nonempty, start, stop, behind⟩ := h
      have size := Text.width_pos nonempty
      have startWidth : token.range.start = (before ++ blank).width := by simp [start]
      have stopWidth : token.range.stop = (before ++ blank ++ body).width := by
        rw [stop, startWidth]
        simp [Nat.add_assoc]
      refine ⟨Text.isBoundary_append _ _, by omega, ?_, by omega, ?_⟩
      · rw [startWidth]
        simpa using Text.isBoundary_append (before ++ blank) (body ++ rest)
      · rw [stopWidth] at behind ⊢
        simpa using ih behind

theorem spaced_tokenize (text : Text) : Spaced text 0 (Token.tokenize text) := by
  simpa using @Covers.spaced [] text _ (covers_tokenize text)

theorem Spaced.pairwise_stop {text : Text} {last : Nat} {tokens : List Token}
    (h : Spaced text last tokens) :
    (∀ token ∈ tokens, last ≤ token.range.stop) ∧
      tokens.Pairwise fun t u => t.range.stop ≤ u.range.stop := by
  induction tokens generalizing last with
  | nil => simp
  | cons token tokens ih =>
      obtain ⟨-, before, -, nonempty, behind⟩ := h
      obtain ⟨stops, ordered⟩ := ih behind
      refine ⟨List.forall_mem_cons.2 ⟨by omega, ?_⟩, List.pairwise_cons.2 ⟨stops, ordered⟩⟩
      intro later mem
      have := stops later mem
      omega

theorem append_cons_eq_append {before after xs ys : List α} {c : α}
    (h : before ++ c :: after = xs ++ ys) :
    (∃ more, xs = before ++ c :: more) ∨
      ∃ gap, before = xs ++ gap ∧ ys = gap ++ c :: after := by
  rcases List.append_eq_append_iff.1 h with ⟨more, rfl, behind⟩ | ⟨gap, rfl, rfl⟩
  · cases more with
    | nil => exact Or.inr ⟨[], by simp, by simpa using behind.symm⟩
    | cons d more =>
        obtain ⟨rfl, -⟩ := List.cons.inj behind
        exact Or.inl ⟨more, rfl⟩
  · exact Or.inr ⟨gap, rfl, rfl⟩

theorem Covers.exists_token {offset : Nat} {before after : Text} {c : Char}
    {tokens : List Token} (h : Covers offset (before ++ c :: after) tokens)
    (solid : Text.isLayout c = false) :
    ∃ token ∈ tokens, token.range.start ≤ offset + before.width ∧
      offset + before.width + c.utf8Size ≤ token.range.stop := by
  induction tokens generalizing offset before with
  | nil =>
      have layout := h c (by simp)
      rw [layout] at solid
      cases solid
  | cons token tokens ih =>
      obtain ⟨blank, body, rest, split, layout, nonempty, start, stop, behind⟩ := h
      rw [List.append_assoc] at split
      rcases append_cons_eq_append split with ⟨more, rfl⟩ | ⟨gap, rfl, later⟩
      · have inBlank := layout c (by simp)
        rw [inBlank] at solid
        cases solid
      · rcases append_cons_eq_append later.symm with ⟨more, rfl⟩ | ⟨gap', rfl, rfl⟩
        · refine ⟨token, List.mem_cons_self, ?_, ?_⟩
          · rw [start, Text.width_append]
            omega
          · rw [stop, start]
            simp only [Text.width_append, Text.width_cons]
            omega
        · obtain ⟨found, mem, before, after⟩ := ih behind
          refine ⟨found, List.mem_cons_of_mem _ mem, ?_, ?_⟩ <;>
            simp only [Text.width_append] at * <;> omega

end Arith

end ParseTree
