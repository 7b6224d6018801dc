import Mathlib.Data.List.Infix
import ParseTree.Proofs.Session.Editing

/-!
# Coherence of sessions

What a session holds, told without parsers and documents: the language in use, and the
language and text of the tree.  Parsing sets the text and takes over the language in use;
an edit between characters splices the text.  Whatever the steps and settings were, the
session agrees with this as long as the engine serves the languages, and with any engine
a tree of arithmetic is the one that a fresh parse of its text gives.
-/

namespace ParseTree

namespace Text

def boundaries (text : Text) : List Nat := text.inits.map width

def upTo : Text → Nat → Text
  | [], _ => []
  | c :: rest, offset =>
      if c.utf8Size ≤ offset then c :: upTo rest (offset - c.utf8Size) else []

def beyond (text : Text) (offset : Nat) : Text := text.drop (text.upTo offset).length

/-- The ends are in order, inside the text and between characters. -/
def Admits (text : Text) (range : ByteRange) : Prop :=
  range.start ≤ range.stop ∧ range.stop ≤ text.width ∧ range.start ∈ text.boundaries ∧
    range.stop ∈ text.boundaries

instance (text : Text) (range : ByteRange) : Decidable (text.Admits range) :=
  inferInstanceAs (Decidable (_ ∧ _ ∧ _ ∧ _))

def replaced (text : Text) (range : ByteRange) (replacement : Text) : Text :=
  text.upTo range.start ++ replacement ++ text.beyond range.stop

def edited (text : Text) (range : ByteRange) (replacement : Text) : Text :=
  if text.Admits range then text.replaced range replacement else text

/-- Why a range that is not admitted is refused: for its bounds, or else for the first of
its ends that is not between characters. -/
def refusal (text : Text) (range : ByteRange) : RangeError :=
  if range.start ≤ range.stop ∧ range.stop ≤ text.width then
    .splitsCharacter (if range.start ∈ text.boundaries then range.stop else range.start)
  else .outOfBounds range.start range.stop text.width

theorem mem_boundaries_iff {text : Text} {offset : Nat} :
    offset ∈ text.boundaries ↔ text.isBoundary offset = true := by
  rw [isBoundary_iff, boundaries, List.mem_map]
  constructor
  · rintro ⟨before, isPrefix, rfl⟩
    obtain ⟨after, rfl⟩ := (List.mem_inits _ _).1 isPrefix
    exact ⟨before, after, rfl, rfl⟩
  · rintro ⟨before, after, rfl, rfl⟩
    exact ⟨before, (List.mem_inits _ _).2 ⟨after, rfl⟩, rfl⟩

theorem upTo_append (before after : Text) : (before ++ after).upTo before.width = before := by
  induction before with
  | nil =>
      cases after with
      | nil => rfl
      | cons c after =>
          have positive := c.utf8Size_pos
          exact if_neg (by simp; omega)
  | cons c before ih =>
      rw [List.cons_append, upTo, width_cons, if_pos (Nat.le_add_right _ _),
        Nat.add_sub_cancel_left, ih]

theorem beyond_append (before after : Text) : (before ++ after).beyond before.width = after := by
  rw [beyond, upTo_append, List.drop_left]

theorem replaced_append (before deleted after replacement : Text) :
    (before ++ deleted ++ after).replaced ⟨before.width, before.width + deleted.width⟩
        replacement =
      before ++ replacement ++ after := by
  have head : (before ++ deleted ++ after).upTo before.width = before := by
    rw [List.append_assoc, upTo_append]
  rw [replaced, head, ← width_append, beyond_append]

end Text

namespace Document

theorem check_of_admits {d : Document} {range : ByteRange} (h : d.text.Admits range) :
    d.check range = .ok () := by
  obtain ⟨ordered, -, start, stop⟩ := h
  exact check_eq_ok_iff.2
    ⟨ordered, Text.mem_boundaries_iff.1 start, Text.mem_boundaries_iff.1 stop⟩

theorem check_of_not_admits {d : Document} {range : ByteRange} (h : ¬ d.text.Admits range) :
    d.check range = .error (d.text.refusal range) := by
  unfold check Text.refusal
  by_cases bounds : range.start ≤ range.stop ∧ range.stop ≤ d.text.width
  · have inside : ¬ (range.start > range.stop ∨ range.stop > d.length) := by
      rw [length]
      omega
    rw [if_neg inside, if_pos bounds]
    by_cases start : range.start ∈ d.text.boundaries
    · have stop : range.stop ∉ d.text.boundaries := fun stop =>
        h ⟨bounds.1, bounds.2, start, stop⟩
      rw [if_pos start]
      rw [Text.mem_boundaries_iff] at start stop
      rw [if_neg (by simp [start]), if_pos (by simp [stop])]
    · rw [if_neg start]
      rw [Text.mem_boundaries_iff] at start
      rw [if_pos (by simp [start])]
  · have outside : range.start > range.stop ∨ range.stop > d.length := by
      rw [length]
      omega
    rw [if_pos outside, if_neg bounds]
    rfl

end Document

/-! ## Parsing -/

def Parsed.Fresh (p : Parsed) : Prop := p.language = .math → p.arena = Arith.arena p.text

namespace Parser

variable {engine : Engine} {p : Parser} {q : Parsed} {text : Text}

def Gives (p : Parser) (text : Text) (q : Parsed) : Prop :=
  q.language = p.language ∧ q.text = text ∧ q.Fresh

theorem gives_load {b : Backend} {request : Request} (same : b.language = p.language)
    (h : p.load engine b request = .ok q) : p.Gives request.text q := by
  unfold load at h
  split at h
  · rename_i arena answered
    cases h
    have fresh := Backend.arena_of_answer answered
    exact ⟨same, rfl, fresh⟩
  · cases h

theorem gives_parse (h : p.parse engine text = .ok q) : p.Gives text q := by
  unfold parse at h
  split at h
  · rename_i backend started
    exact gives_load (Backend.language_of_start started) h
  · cases h

theorem gives_reparse {previous : Parsed} (h : p.reparse engine previous text = .ok q) :
    p.Gives text q := by
  unfold reparse at h
  split at h
  · rename_i same
    exact gives_load same h
  · exact gives_parse h

theorem gives_parseWith {previous : Option Parsed}
    (h : p.parseWith engine previous text = .ok q) : p.Gives text q := by
  cases previous with
  | none => exact gives_parse h
  | some previous => exact gives_reparse h

theorem exists_load {b : Backend} (served : engine.Serves b.language) (request : Request) :
    ∃ q, p.load engine b request = .ok q := by
  obtain ⟨arena, answered⟩ := Backend.exists_answer served request
  rw [load, answered]
  exact ⟨_, rfl⟩

theorem exists_parse (served : engine.Serves p.language) (text : Text) :
    ∃ q, p.parse engine text = .ok q := by
  rw [parse, Backend.start_of_serves served]
  exact exists_load served _

theorem exists_reparse (served : engine.Serves p.language) (previous : Parsed) (text : Text) :
    ∃ q, p.reparse engine previous text = .ok q := by
  unfold reparse
  split
  · rename_i same
    have same : previous.backend.language = p.language := same
    exact exists_load (same ▸ served) _
  · exact exists_parse served text

theorem exists_parseWith (served : engine.Serves p.language) (previous : Option Parsed)
    (text : Text) : ∃ q, p.parseWith engine previous text = .ok q := by
  cases previous with
  | none => exact exists_parse served text
  | some previous => exact exists_reparse served previous text

end Parser

/-- All that can come of an edit: it is refused for its range, it is made, or it is undone
because the engine does not serve the language. -/
inductive Parsed.Edited (engine : Engine) (p : Parsed) (range : ByteRange) (replacement : Text) :
    Except Error Unit × Parsed → Prop
  | refused : ¬ p.text.Admits range →
      Edited engine p range replacement (.error (.range (p.text.refusal range)), p)
  | made {q : Parsed} : p.text.Admits range → q.language = p.language →
      q.text = p.text.replaced range replacement → q.Fresh →
      Edited engine p range replacement (.ok (), q)
  | undone {e : Error} {q : Parsed} : p.text.Admits range → ¬ engine.Serves p.language →
      q.language = p.language → q.arena = p.arena →
      ((p.text.replaced range replacement).width ≤ wordLimit → q.text = p.text) →
      Edited engine p range replacement (.error e, q)

theorem Parsed.edited (engine : Engine) (p : Parsed) (range : ByteRange) (replacement : Text) :
    p.Edited engine range replacement (p.edit engine range replacement) := by
  by_cases admits : p.text.Admits range
  · obtain ⟨before, deleted, after, whole, rfl⟩ :=
      Document.exists_cuts_of_check (Document.check_of_admits admits)
    have whole : p.text = before ++ deleted ++ after := whole
    have replaced := Text.replaced_append before deleted after replacement
    obtain ⟨request, new, edited⟩ := @exists_edit_append engine p _ _ _ whole replacement
    rw [← whole, ← new] at replaced
    cases answered : p.backend.answer engine request with
    | ok arena =>
        rw [answered] at edited
        rw [edited]
        have fresh := Backend.arena_of_answer answered
        exact .made admits rfl replaced.symm fresh
    | error e =>
        rw [answered] at edited
        obtain ⟨text, edited, restored⟩ := edited
        rw [edited]
        refine .undone admits ?_ rfl rfl fun fits => restored (replaced ▸ fits)
        intro served
        obtain ⟨arena, answer⟩ := Backend.exists_answer served request
        rw [answer] at answered
        cases answered
  · rw [edit_of_check_error (Document.check_of_not_admits admits)]
    exact .refused admits

/-! ## Steps -/

structure View where
  language : Language
  held : Option (Language × Text) := none
  deriving DecidableEq, Repr

namespace View

def spliced (v : View) (range : ByteRange) (replacement : Text) : View :=
  { v with held := v.held.map fun held => (held.1, held.2.edited range replacement) }

def next (v : View) : Step → View
  | .parse text | .parseWith text => { v with held := some (v.language, text) }
  | .reparse text => { v with held := v.held.map fun _ => (v.language, text) }
  | .edit range replacement => v.spliced range replacement
  | .delete range => v.spliced range []
  | .useLanguage language => { v with language }
  | .useSettings _ => v

end View

def Step.isSettings : Step → Bool
  | .useSettings _ => true
  | _ => false

theorem View.foldl_next_filter (v : View) (steps : List Step) :
    (steps.filter fun step => !step.isSettings).foldl next v = steps.foldl next v := by
  induction steps generalizing v with
  | nil => rfl
  | cons step steps ih =>
      cases step with
      | useSettings settings => exact ih v
      | _ => exact ih _

namespace Session

variable {engine : Engine} {s s' : Session} {v : View}

theorem update_of_none (held : s.parsed = none) (change : Parsed → Except Error Unit × Parsed) :
    s.update change = (.error .nothingParsed, s) := by
  rw [update, held]

theorem update_of_some {p : Parsed} (held : s.parsed = some p)
    (change : Parsed → Except Error Unit × Parsed) :
    s.update change =
      ((change p).1.mapError .refused, { s with parsed := some (change p).2 }) := by
  rw [update, held]

/-! ### With any engine -/

def Fresh (s : Session) : Prop := ∀ p ∈ s.parsed, p.Fresh

theorem fresh_hold {left : Option Parsed} (kept : ∀ p ∈ left, p.Fresh)
    {answer : Except Error Parsed} (fresh : ∀ p, answer = .ok p → p.Fresh) :
    (s.hold left answer).2.Fresh := by
  cases answer with
  | error e => exact kept
  | ok q =>
      intro p held
      cases held
      exact fresh _ rfl

theorem Fresh.edit (h : s.Fresh) (range : ByteRange) (replacement : Text) :
    (s.update fun p => p.edit engine range replacement).2.Fresh := by
  cases held : s.parsed with
  | none => rwa [update_of_none held]
  | some p =>
      rw [update_of_some held]
      have edited := p.edited engine range replacement
      generalize p.edit engine range replacement = outcome at edited ⊢
      intro q changed
      obtain rfl := Option.some.inj changed
      cases edited with
      | refused => exact h p held
      | made _ _ _ fresh => exact fresh
      | undone _ unserved language =>
          intro math
          rw [← language, math] at unserved
          exact (unserved engine.serves_math).elim

theorem Fresh.after (h : s.Fresh) (step : Step) : (s.after engine step).Fresh := by
  have nothing : ∀ p ∈ (none : Option Parsed), p.Fresh := nofun
  cases step with
  | parse text => exact fresh_hold h fun _ parsed => (Parser.gives_parse parsed).2.2
  | parseWith text => exact fresh_hold nothing fun _ parsed => (Parser.gives_parseWith parsed).2.2
  | reparse text =>
      unfold Session.after step
      cases s.parsed with
      | none => exact h
      | some p => exact fresh_hold nothing fun _ parsed => (Parser.gives_reparse parsed).2.2
  | edit range replacement => exact h.edit range replacement
  | delete range => exact h.edit range []
  | useLanguage language => exact h
  | useSettings settings => exact h

theorem update_edit_of_not_admits {p : Parsed} (held : s.parsed = some p) {range : ByteRange}
    (outside : ¬ p.text.Admits range) (replacement : Text) :
    s.update (fun p => p.edit engine range replacement) =
      (.error (.refused (.range (p.text.refusal range))), s) := by
  have refused := Document.check_of_not_admits outside
  rw [update_of_some held, Parsed.edit_of_check_error refused, ← held]
  rfl

theorem ok_update_edit_iff {p : Parsed} (held : s.parsed = some p)
    (served : engine.Serves p.language) (range : ByteRange) (replacement : Text) :
    (s.update fun p => p.edit engine range replacement).1 = .ok () ↔ p.text.Admits range := by
  constructor
  · intro accepted
    by_contra outside
    rw [update_edit_of_not_admits held outside] at accepted
    cases accepted
  · intro admits
    obtain ⟨q, edited⟩ :=
      Parsed.exists_edit_of_check (Document.check_of_admits admits) served replacement
    rw [update_of_some held, edited]
    rfl

/-- Also an edit that the engine does not follow leaves language, text and tree. -/
theorem kept_of_update_edit {p : Parsed} (held : s.parsed = some p) {range : ByteRange}
    {replacement : Text} {e : StepError}
    (refused : s.update (fun p => p.edit engine range replacement) = (.error e, s'))
    (fits : (p.text.replaced range replacement).width ≤ wordLimit) :
    s'.parser = s.parser ∧ ∃ p', s'.parsed = some p' ∧ p'.language = p.language ∧
      p'.text = p.text ∧ p'.arena = p.arena := by
  rw [update_of_some held] at refused
  have edited := p.edited engine range replacement
  generalize p.edit engine range replacement = outcome at edited refused
  cases edited with
  | refused =>
      cases refused
      exact ⟨rfl, p, rfl, rfl, rfl, rfl⟩
  | made => cases refused
  | @undone _ q _ _ language arena text =>
      cases refused
      exact ⟨rfl, q, rfl, language, text fits, arena⟩

theorem fresh_run (engine : Engine) (parser : Parser) (steps : List Step) :
    (run engine { parser } steps).Fresh := by
  have start : Fresh { parser } := nofun
  rw [run]
  generalize ({ parser } : Session) = s at start ⊢
  induction steps generalizing s with
  | nil => exact start
  | cons step steps ih => exact ih _ (start.after step)

/-! ### With an engine that serves all languages -/

structure Shows (s : Session) (v : View) : Prop where
  language : s.parser.language = v.language
  held : (s.parsed.map fun p => (p.language, p.text)) = v.held

theorem Shows.hold (h : s.Shows v) (left : Option Parsed) {answer : Except Error Parsed}
    {text : Text} {q : Parsed} (parsed : answer = .ok q) (gives : s.parser.Gives text q) :
    (s.hold left answer).2.Shows { v with held := some (v.language, text) } := by
  obtain ⟨language, same, -⟩ := gives
  rw [parsed]
  refine ⟨h.language, ?_⟩
  rw [← h.language, ← language, ← same]
  rfl

theorem Shows.edit (h : s.Shows v) (served : ∀ language, engine.Serves language)
    (range : ByteRange) (replacement : Text) :
    (s.update fun p => p.edit engine range replacement).2.Shows
      (v.spliced range replacement) := by
  obtain ⟨language, seen⟩ := h
  unfold View.spliced
  cases held : s.parsed with
  | none =>
      rw [update_of_none held, ← seen, held]
      exact ⟨language, by rw [held]; rfl⟩
  | some p =>
      rw [update_of_some held, ← seen, held]
      refine ⟨language, ?_⟩
      have edited := p.edited engine range replacement
      generalize p.edit engine range replacement = outcome at edited ⊢
      cases edited with
      | refused outside => simp [Text.edited, if_neg outside]
      | made admits language text => simp [Text.edited, if_pos admits, language, text]
      | undone _ unserved => exact (unserved (served _)).elim

theorem Shows.after (h : s.Shows v) (served : ∀ language, engine.Serves language) (step : Step) :
    (s.after engine step).Shows (v.next step) := by
  cases step with
  | parse text =>
      obtain ⟨q, parsed⟩ := Parser.exists_parse (served s.parser.language) text
      exact h.hold _ parsed (Parser.gives_parse parsed)
  | parseWith text =>
      obtain ⟨q, parsed⟩ := Parser.exists_parseWith (served s.parser.language) s.parsed text
      exact h.hold _ parsed (Parser.gives_parseWith parsed)
  | reparse text =>
      unfold Session.after Session.step View.next
      rw [← h.held]
      cases held : s.parsed with
      | none => exact ⟨h.language, by rw [held]; rfl⟩
      | some previous =>
          obtain ⟨q, parsed⟩ := Parser.exists_reparse (served s.parser.language) previous text
          exact h.hold _ parsed (Parser.gives_reparse parsed)
  | edit range replacement => exact h.edit served range replacement
  | delete range => exact h.edit served range []
  | useLanguage language => exact ⟨rfl, h.held⟩
  | useSettings settings => exact ⟨h.language, h.held⟩

theorem shows_run (served : ∀ language, engine.Serves language) (parser : Parser)
    (steps : List Step) :
    (run engine { parser } steps).Shows
      (steps.foldl View.next { language := parser.language }) := by
  have start : Shows { parser } { language := parser.language } := ⟨rfl, rfl⟩
  rw [run]
  generalize ({ parser } : Session) = s, ({ language := parser.language } : View) = v at start ⊢
  induction steps generalizing s v with
  | nil => exact start
  | cons step steps ih => exact ih _ _ (start.after served step)

theorem hold_ne_error {left : Option Parsed} {answer : Except Error Parsed} {q : Parsed}
    (parsed : answer = .ok q) {e : StepError} : s.hold left answer ≠ (.error e, s') := by
  rw [parsed]
  nofun

theorem eq_of_update_edit (served : ∀ language, engine.Serves language) {range : ByteRange}
    {replacement : Text} {e : StepError}
    (refused : s.update (fun p => p.edit engine range replacement) = (.error e, s')) : s' = s := by
  cases held : s.parsed with
  | none =>
      rw [update_of_none held] at refused
      cases refused
      rfl
  | some p =>
      by_cases admits : p.text.Admits range
      · have accepted := (ok_update_edit_iff held (served _) range replacement).2 admits
        rw [refused] at accepted
        cases accepted
      · rw [update_edit_of_not_admits held admits] at refused
        cases refused
        rfl

theorem eq_of_refused (served : ∀ language, engine.Serves language) {step : Step} {e : StepError}
    (refused : s.step engine step = (.error e, s')) : s' = s := by
  cases step with
  | parse text =>
      obtain ⟨q, parsed⟩ := Parser.exists_parse (served s.parser.language) text
      exact (hold_ne_error parsed refused).elim
  | parseWith text =>
      obtain ⟨q, parsed⟩ := Parser.exists_parseWith (served s.parser.language) s.parsed text
      exact (hold_ne_error parsed refused).elim
  | reparse text =>
      unfold step at refused
      cases held : s.parsed with
      | none =>
          rw [held] at refused
          cases refused
          rfl
      | some previous =>
          rw [held] at refused
          obtain ⟨q, parsed⟩ := Parser.exists_reparse (served s.parser.language) previous text
          exact (hold_ne_error parsed refused).elim
  | edit range replacement => exact eq_of_update_edit served refused
  | delete range => exact eq_of_update_edit served refused
  | useLanguage language => cases refused
  | useSettings settings => cases refused

/-- All but the settings, and of trees those of arithmetic. -/
def content (s : Session) : Language × Option (Language × Text × Option Arena) :=
  (s.parser.language,
    s.parsed.map fun p => (p.language, p.text, if p.language = .math then some p.arena else none))

theorem Shows.content_eq (h : s.Shows v) (fresh : s.Fresh) :
    s.content =
      (v.language, v.held.map fun held =>
        (held.1, held.2, if held.1 = .math then some (Arith.arena held.2) else none)) := by
  obtain ⟨language, seen⟩ := h
  rw [content, language, ← seen]
  cases held : s.parsed with
  | none => rfl
  | some p =>
      have fresh : p.Fresh := fresh p held
      by_cases math : p.language = .math
      · simp [math, fresh math]
      · simp [math]

theorem content_run_eq (served : ∀ language, engine.Serves language) {parser parser' : Parser}
    {steps steps' : List Step} (language : parser'.language = parser.language)
    (same : (steps'.filter fun step => !step.isSettings) =
      steps.filter fun step => !step.isSettings) :
    (run engine { parser := parser' } steps').content =
      (run engine { parser } steps).content := by
  have views : steps'.foldl View.next { language := parser'.language } =
      steps.foldl View.next { language := parser.language } := by
    rw [← View.foldl_next_filter, same, View.foldl_next_filter, language]
  rw [(shows_run served parser' steps').content_eq (fresh_run engine parser' steps'), views,
    (shows_run served parser steps).content_eq (fresh_run engine parser steps)]

/-- After any run a tree of arithmetic is that of a fresh parse.  An edit is accepted exactly
for a range between characters and is refused for the first thing that is wrong with the
range; where it is refused, also for want of an answer from the engine, language, text and
tree stay.  If the engine serves all languages, the session shows what the steps ask for,
every refused step leaves it as it was, and settings do not show. -/
theorem run_coherent (engine : Engine) (parser : Parser) (steps : List Step) :
    let s := run engine { parser } steps
    let v := steps.foldl View.next { language := parser.language }
    (∀ p ∈ s.parsed, p.language = .math → p.arena = Arith.arena p.text) ∧
    (∀ p ∈ s.parsed, ∀ range replacement,
      (engine.Serves p.language →
        ((s.step engine (.edit range replacement)).1 = .ok () ↔ p.text.Admits range) ∧
        ((s.step engine (.delete range)).1 = .ok () ↔ p.text.Admits range)) ∧
      (¬ p.text.Admits range →
        s.step engine (.edit range replacement) =
          (.error (.refused (.range (p.text.refusal range))), s) ∧
        s.step engine (.delete range) =
          (.error (.refused (.range (p.text.refusal range))), s)) ∧
      (∀ e s', s.step engine (.edit range replacement) = (.error e, s') →
        (p.text.replaced range replacement).width ≤ wordLimit →
        s'.parser = s.parser ∧ ∃ p', s'.parsed = some p' ∧ p'.language = p.language ∧
          p'.text = p.text ∧ p'.arena = p.arena)) ∧
    ((∀ language, engine.Serves language) →
      (s.parser.language = v.language ∧
        (s.parsed.map fun p => (p.language, p.text)) = v.held) ∧
      (∀ step e s', s.step engine step = (.error e, s') → s' = s) ∧
      ∀ parser' steps', parser'.language = parser.language →
        (steps'.filter fun step => !step.isSettings) =
          (steps.filter fun step => !step.isSettings) →
        (run engine { parser := parser' } steps').content = s.content) := by
  intro s v
  refine ⟨fresh_run engine parser steps, ?_, ?_⟩
  · intro p held range replacement
    refine ⟨fun served => ?_, fun outside => ?_, fun e s' refused fits => ?_⟩
    · exact ⟨ok_update_edit_iff held served range replacement,
        ok_update_edit_iff held served range []⟩
    · exact ⟨update_edit_of_not_admits held outside replacement,
        update_edit_of_not_admits held outside []⟩
    · exact kept_of_update_edit held refused fits
  · intro served
    obtain ⟨language, held⟩ := shows_run served parser steps
    exact ⟨⟨language, held⟩, fun _ _ _ => eq_of_refused served,
      fun _ _ => content_run_eq served⟩

/-- The second edit would cut the letter of two bytes, and the other language comes too
late for the tree. -/
theorem run_coherent_two_bytes :
    let engine := Engine.blank fun _ => ⟨[], [], []⟩
    let edits : List Step := [.edit ⟨1, 2⟩ ['é', '*'], .edit ⟨2, 3⟩ ['x'], .useLanguage .rust]
    let s := run engine {}
      (.parse ['1', '+', '2'] :: .useSettings ⟨false⟩ :: (edits ++ [.delete ⟨0, 1⟩]))
    ∃ p ∈ s.parsed, p.language = .math ∧ p.text = ['é', '*', '2'] ∧
      p.arena = Arith.arena ['é', '*', '2'] ∧ s.parser.language = .rust ∧
      s.step engine (.edit ⟨0, 1⟩ []) = (.error (.refused (.range (.splitsCharacter 1))), s) ∧
      s.step engine (.delete ⟨2, 5⟩) = (.error (.refused (.range (.outOfBounds 2 5 4))), s) ∧
      (run engine {} (.parse ['1', '+', '2'] :: (edits ++ [.delete ⟨0, 1⟩]))).content =
        s.content := by
  intro engine edits s
  obtain ⟨math, answers, served⟩ := run_coherent engine {}
    (.parse ['1', '+', '2'] :: .useSettings ⟨false⟩ :: (edits ++ [.delete ⟨0, 1⟩]))
  obtain ⟨⟨language, held⟩, -, settings⟩ := served (Engine.serves_blank _)
  obtain ⟨p, mem, same⟩ := Option.map_eq_some_iff.1 held
  obtain ⟨isMath, text⟩ := Prod.mk.inj same
  have text : p.text = ['é', '*', '2'] := text.trans (by decide +kernel)
  have first := ((answers p mem ⟨0, 1⟩ []).2.1 (by rw [text]; decide +kernel)).1
  have second := ((answers p mem ⟨2, 5⟩ []).2.1 (by rw [text]; decide +kernel)).2
  rw [text] at first second
  exact ⟨p, mem, isMath, text, text ▸ math p mem isMath, language, first, second,
    settings {} _ rfl rfl⟩

end Session

end ParseTree
