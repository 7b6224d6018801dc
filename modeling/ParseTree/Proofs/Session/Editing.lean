import ParseTree.Proofs.Text.Replacement
import ParseTree.Session

/-!
# Edits of parsed documents

An edit with a range that is accepted asks the backend for the new text.  For arithmetic the
answer is known, and for the other languages it is that of the engine.  An edit to which the
backend has no answer puts back what was removed, so a refused edit changes nothing that can
be seen, whatever the reason is.
-/

namespace ParseTree

/-- Arithmetic is always served; another language is if the engine accepts its grammar and
makes something of every text. -/
def Engine.Serves (engine : Engine) (language : Language) : Prop :=
  language = .math ∨
    engine.rejection? language = none ∧ ∀ asked, (engine.parse? language asked).isSome = true

theorem Engine.serves_math (engine : Engine) : engine.Serves .math := Or.inl rfl

theorem Engine.serves_blank (names : Language → Vocabulary) (language : Language) :
    (blank names).Serves language :=
  Or.inr ⟨rfl, fun _ => rfl⟩

namespace Backend

variable {engine : Engine} {b : Backend}

@[simp] theorem language_ask (b : Backend) (request : Request) :
    (b.ask request).language = b.language := rfl

theorem start_of_serves {language : Language} (served : engine.Serves language) :
    start engine language = .ok { language } := by
  rcases served with rfl | ⟨accepted, -⟩
  · rfl
  · cases language <;> simp only [start, accepted]

theorem language_of_start {language : Language} (started : start engine language = .ok b) :
    b.language = language := by
  unfold start at started
  split at started
  · cases started
    rfl
  · split at started <;> cases started
    rfl

theorem answer_math (math : b.language = .math) (request : Request) :
    b.answer engine request = .ok (Arith.arena request.text) := by
  rw [answer, math]

theorem arena_of_answer {request : Request} {arena : Arena}
    (answered : b.answer engine request = .ok arena) (math : b.language = .math) :
    arena = Arith.arena request.text :=
  Except.ok.inj (answered.symm.trans (answer_math math request))

theorem exists_answer (served : engine.Serves b.language) (request : Request) :
    ∃ arena, b.answer engine request = .ok arena := by
  rcases served with math | ⟨-, parses⟩
  · exact ⟨_, answer_math math request⟩
  · obtain ⟨arena, found⟩ := Option.isSome_iff_exists.1 (parses (request :: b.asked))
    unfold answer
    split
    · exact ⟨_, rfl⟩
    · exact ⟨arena, by rw [found]⟩

end Backend

namespace Parsed

variable {engine : Engine} {p : Parsed}

def follow (p : Parsed) (request : Request) (text : Text) (arena : Arena) : Parsed :=
  { p with document := ⟨text⟩, arena, backend := p.backend.ask request }

theorem edit_of_check_error {range : ByteRange} {cause : RangeError}
    (refused : p.document.check range = .error cause) (replacement : Text) :
    p.edit engine range replacement = (.error (.range cause), p) := by
  rw [edit, Document.slice, refused]
  rfl

theorem restore_append {before deleted after replacement : Text}
    (fits : (before ++ replacement ++ after).width ≤ wordLimit) :
    restore ⟨before ++ replacement ++ after⟩
        (Change.record (before ++ deleted ++ after)
          ⟨before.width, before.width + deleted.width⟩ replacement) deleted =
      ⟨before ++ deleted ++ after⟩ := by
  rw [Change.record_append fits, restore, Change.exchange]
  dsimp only
  rw [Document.replace_append]

theorem exists_edit_append {before deleted after : Text}
    (whole : p.text = before ++ deleted ++ after) (replacement : Text) :
    let range := ⟨before.width, before.width + deleted.width⟩
    ∃ request : Request, request.text = before ++ replacement ++ after ∧
      match p.backend.answer engine request with
      | .ok arena =>
          p.edit engine range replacement = (.ok (), p.follow request request.text arena)
      | .error e =>
          ∃ text, p.edit engine range replacement = (.error e, p.follow request text p.arena) ∧
            (request.text.width ≤ wordLimit → text = p.text) := by
  intro range
  have document : p.document = ⟨before ++ deleted ++ after⟩ := congrArg Document.mk whole
  let change := Change.record (before ++ deleted ++ after) range replacement
  let request : Request := ⟨before ++ replacement ++ after, p.settings.hint change⟩
  refine ⟨request, rfl, ?_⟩
  have spliced : p.edit engine range replacement =
      match p.backend.answer engine request with
      | .ok arena => (.ok (), p.follow request request.text arena)
      | .error e =>
          (.error e, p.follow request (restore ⟨request.text⟩ change deleted).text p.arena) := by
    rw [edit, document, Document.slice_append, Document.replace_append]
    rfl
  split
  · rename_i arena answered
    rw [spliced, answered]
  · rename_i e answered
    rw [answered] at spliced
    exact ⟨_, spliced, fun fits => by rw [restore_append fits, whole]⟩

theorem exists_edit_of_check {range : ByteRange} (accepted : p.document.check range = .ok ())
    (served : engine.Serves p.language) (replacement : Text) :
    ∃ p', p.edit engine range replacement = (.ok (), p') := by
  obtain ⟨before, deleted, after, whole, rfl⟩ := Document.exists_cuts_of_check accepted
  obtain ⟨request, -, edited⟩ := @exists_edit_append engine p _ _ _ whole replacement
  obtain ⟨arena, answered⟩ := Backend.exists_answer served request
  rw [answered] at edited
  exact ⟨_, edited⟩

end Parsed

end ParseTree
