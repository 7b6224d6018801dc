import ParseTree.Proofs.Session.Diagnostics
import ParseTree.Proofs.Text.Replacement

/-!
# Contexts of diagnostics

A diagnostic shows the text of its node, cut short if it is long.  Whether a text is long is
decided by its bytes, and how much of it is kept by its characters.  For characters of one
byte the two agree.  A text of wider characters may be long by its bytes and yet be kept
whole, and then the dots behind it stand for nothing.
-/

namespace ParseTree

theorem Text.length_le_width (text : Text) : text.length ≤ text.width := by
  induction text with
  | nil => rfl
  | cons c text ih =>
      have size := c.utf8Size_pos
      rw [List.length_cons, width_cons]
      omega

theorem Arena.Geometry.slice?_range {a : Arena} {text : Text} (h : a.Geometry text) {id : Nat}
    (inside : id < a.size) : text.slice? (a.range id) = some (a.textOf text id) := by
  have accepted : (Document.mk text).check (a.range id) = .ok () :=
    Document.check_eq_ok_iff.2 ⟨h.ordered id inside, h.boundaries id inside⟩
  obtain ⟨before, body, after, whole, range⟩ := Document.exists_cuts_of_check accepted
  have found : text.slice? (a.range id) = some body := by
    rw [show text = before ++ body ++ after from whole, range]
    exact Text.slice?_append before body after
  rw [Arena.textOf, found]
  rfl

namespace Diagnostic

/-- The context is the whole snippet, or a part of it with dots for the rest. -/
def Honest (snippet context : Text) : Prop :=
  context = snippet ∨
    ∃ head, head <+: snippet ∧ head ≠ snippet ∧ context = head ++ ['.', '.', '.']

/-- Too wide for a context, but with no more characters than a cut leaves. -/
def Misjudged (snippet : Text) : Prop := 50 < snippet.width ∧ snippet.length ≤ 47

theorem context_ofNode (a : Arena) (source : Text) (id : Nat) :
    (ofNode a source id).context = contextOf (a.textOf source id) := rfl

theorem contextOf_of_le {snippet : Text} (narrow : snippet.width ≤ 50) :
    contextOf snippet = snippet :=
  if_neg (Nat.not_lt.2 narrow)

theorem contextOf_of_lt {snippet : Text} (wide : 50 < snippet.width) :
    contextOf snippet = snippet.take 47 ++ ['.', '.', '.'] :=
  if_pos wide

theorem length_contextOf_le (snippet : Text) : (contextOf snippet).length ≤ 50 := by
  by_cases wide : 50 < snippet.width
  · rw [contextOf_of_lt wide, List.length_append, List.length_take]
    simp only [List.length_cons, List.length_nil]
    omega
  · have bound := snippet.length_le_width
    rw [contextOf_of_le (by omega)]
    omega

theorem contextOf_of_misjudged {snippet : Text} (h : Misjudged snippet) :
    contextOf snippet = snippet ++ ['.', '.', '.'] := by
  rw [contextOf_of_lt h.1, List.take_of_length_le h.2]

/-- Dots behind a whole text are no cut: what stands before them is as long as the text. -/
theorem not_honest_append_dots (snippet : Text) :
    ¬ Honest snippet (snippet ++ ['.', '.', '.']) := by
  rintro (whole | ⟨head, -, part, cut⟩)
  · have length := congrArg List.length whole
    simp at length
  · exact part (List.append_cancel_right cut).symm

theorem honest_contextOf_iff {snippet : Text} :
    Honest snippet (contextOf snippet) ↔ ¬ Misjudged snippet := by
  constructor
  · intro honest misjudged
    rw [contextOf_of_misjudged misjudged] at honest
    exact not_honest_append_dots snippet honest
  · intro judged
    by_cases wide : 50 < snippet.width
    · have long : 47 < snippet.length := by
        by_contra short
        exact judged ⟨wide, by omega⟩
      refine Or.inr ⟨snippet.take 47, List.take_prefix _ _, ?_, contextOf_of_lt wide⟩
      intro whole
      have length := congrArg List.length whole
      rw [List.length_take] at length
      omega
    · exact Or.inl (contextOf_of_le (by omega))

end Diagnostic

namespace Parser

/-- No context is longer than the limit.  A context is honest about the text of its node
except where that text is misjudged, and there it is the whole text with dots behind it. -/
theorem contexts_of_diagnostics (engine : Engine) (settings : ParserSettings) (text : Text) :
    ∃ p, parse engine { language := .math, settings } text = .ok p ∧
      ∀ d ∈ p.diagnostics,
        ∃ snippet, text.slice? d.range = some snippet ∧ d.context.length ≤ 50 ∧
          (Diagnostic.Honest snippet d.context ↔ ¬ Diagnostic.Misjudged snippet) ∧
          (Diagnostic.Misjudged snippet → d.context = snippet ++ ['.', '.', '.']) := by
  refine ⟨_, parse_formula engine settings text, ?_⟩
  intro d mem
  rw [diagnostics_ofFormula] at mem
  obtain ⟨node, faulty, rfl⟩ := List.mem_map.1 mem
  have inside : node < (Arith.arena text).size :=
    Arena.lt_size_of_mem_descendants (Arith.arena text).nonempty (List.mem_of_mem_filter faulty)
  refine ⟨(Arith.arena text).textOf text node, ?_⟩
  rw [Diagnostic.range_ofNode, Diagnostic.context_ofNode]
  exact ⟨(Arith.geometry_of_parse text).slice?_range inside, Diagnostic.length_contextOf_le _,
    Diagnostic.honest_contextOf_iff, Diagnostic.contextOf_of_misjudged⟩

/-- Of sixty characters forty-seven are shown. -/
theorem contexts_of_diagnostics_long :
    let text := Text.ofString "1 + " ++ List.replicate 60 '$'
    let context := List.replicate 47 '$' ++ ['.', '.', '.']
    ∃ p, parse (.blank fun _ => ⟨[], [], []⟩) { language := .math } text = .ok p ∧
      ∃ d ∈ p.diagnostics, d.context = context ∧
        ∃ snippet, text.slice? d.range = some snippet ∧ d.context.length ≤ 50 ∧
          Diagnostic.Honest snippet d.context := by
  intro text context
  have listed : (Parsed.ofFormula {} text).diagnostics =
      [⟨⟨4, 64⟩, 1, 5, context, "syntax error"⟩] := by decide +kernel
  have mem : ⟨⟨4, 64⟩, 1, 5, context, "syntax error"⟩ ∈
      (Parsed.ofFormula {} text).diagnostics := by
    rw [listed]
    exact List.mem_singleton_self _
  obtain ⟨p, parsed, contexts⟩ :=
    contexts_of_diagnostics (.blank fun _ => ⟨[], [], []⟩) {} text
  cases parsed
  obtain ⟨snippet, slice, length, honest, -⟩ := contexts _ mem
  have cut : text.slice? ⟨4, 64⟩ = some (List.replicate 60 '$') := by decide +kernel
  cases slice.symm.trans cut
  have judged : ¬ Diagnostic.Misjudged (List.replicate 60 '$') := fun h => absurd h.2 (by decide)
  exact ⟨_, rfl, _, mem, rfl, _, slice, length, honest.2 judged⟩

/-- Twenty-six characters of two bytes are shown with dots behind them, although nothing is
cut off. -/
theorem context_not_honest_of_two_bytes :
    let text : Text := List.replicate 26 'é'
    ∃ p, parse (.blank fun _ => ⟨[], [], []⟩) { language := .math } text = .ok p ∧
      p.diagnostics = [⟨⟨0, 52⟩, 1, 1, text ++ ['.', '.', '.'], "syntax error"⟩] ∧
      text.slice? ⟨0, 52⟩ = some text ∧
      ¬ Diagnostic.Honest text (text ++ ['.', '.', '.']) := by
  intro text
  exact ⟨.ofFormula {} text, rfl, by decide +kernel, by decide +kernel,
    Diagnostic.not_honest_append_dots text⟩

end Parser

end ParseTree
