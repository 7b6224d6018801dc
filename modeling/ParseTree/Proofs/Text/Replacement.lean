import ParseTree.Proofs.Text.Change
import ParseTree.Proofs.Text.Position

/-!
# What a replacement reports

A replacement exchanges one part of a text for another behind a common head, and
`Change.exchange` writes down what it should report: offsets as widths, positions as
counts of bytes.  Documents report exactly this.  So the coordinates agree with both
texts, although the new one is never looked at; the same replacement backwards reports
the same change with its two ends exchanged; and replacements of separate parts can be
made in either order.
-/

namespace ParseTree

namespace Change

def exchange (before deleted inserted : Text) : Change where
  start := before.width
  oldEnd := before.width + deleted.width
  newEnd := before.width + inserted.width
  startPosition := .behind before.bytes
  oldEndPosition := .behind (before ++ deleted).bytes
  newEndPosition := .behind (before ++ inserted).bytes

def inverse (e : Change) : Change where
  start := e.start
  oldEnd := e.newEnd
  newEnd := e.oldEnd
  startPosition := e.startPosition
  oldEndPosition := e.newEndPosition
  newEndPosition := e.oldEndPosition

/-- The coordinates of a change are those of its ends in the two texts, and the widths
that it states are exact: no difference is cut off at zero and no sum at the limit. -/
structure Agrees (e : Change) (old new : Text) : Prop where
  startInOld : e.startPosition = old.rowColumn e.start
  startInNew : e.startPosition = new.rowColumn e.start
  oldEnd : e.oldEndPosition = old.rowColumn e.oldEnd
  newEnd : e.newEndPosition = new.rowColumn e.newEnd
  inside : e.oldEnd ≤ old.width
  deleted : e.start + e.deletedWidth = e.oldEnd
  inserted : e.start + e.insertedWidth = e.newEnd
  width : new.width = old.width - e.deletedWidth + e.insertedWidth

theorem inverse_exchange (before deleted inserted : Text) :
    (exchange before deleted inserted).inverse = exchange before inserted deleted := rfl

theorem record_append {before deleted after replacement : Text}
    (fits : (before ++ replacement ++ after).width ≤ wordLimit) :
    record (before ++ deleted ++ after) ⟨before.width, before.width + deleted.width⟩ replacement =
      exchange before deleted replacement := by
  have short : (before ++ replacement).width ≤ wordLimit := by
    rw [Text.width_append] at fits
    omega
  have start : (before ++ deleted ++ after).positionAt before.width = .behind before.bytes := by
    rw [Text.positionAt_eq_rowColumn (by simp), List.append_assoc, Text.rowColumn_append]
  have stop : (before ++ deleted ++ after).positionAt (before.width + deleted.width) =
      .behind (before ++ deleted).bytes := by
    rw [Text.positionAt_eq_rowColumn (by simp), ← Text.width_append, Text.rowColumn_append]
  have sum : addWord before.width replacement.width = before.width + replacement.width :=
    Nat.min_eq_left (Text.width_append .. ▸ short)
  have reached := Position.advance_behind short
  rw [Text.positionAt] at start stop
  simp only [record, exchange, start, stop, sum, reached]

theorem exchange_agrees (before deleted inserted after : Text) :
    (exchange before deleted inserted).Agrees (before ++ deleted ++ after)
      (before ++ inserted ++ after) where
  startInOld := by
    rw [List.append_assoc]
    exact (Text.rowColumn_append ..).symm
  startInNew := by
    rw [List.append_assoc]
    exact (Text.rowColumn_append ..).symm
  oldEnd := by
    simp only [exchange, ← Text.width_append, Text.rowColumn_append]
  newEnd := by
    simp only [exchange, ← Text.width_append, Text.rowColumn_append]
  inside := by
    simp only [exchange, Text.width_append]
    omega
  deleted := by
    simp only [exchange, deletedWidth]
    omega
  inserted := by
    simp only [exchange, insertedWidth]
    omega
  width := by
    simp only [exchange, deletedWidth, insertedWidth, Text.width_append]
    omega

end Change

namespace Document

theorem exists_cuts_of_check {d : Document} {range : ByteRange} (h : d.check range = .ok ()) :
    ∃ before body after, d.text = before ++ body ++ after ∧
      range = ⟨before.width, before.width + body.width⟩ := by
  obtain ⟨d', replaced⟩ := exists_replace_of_check h []
  obtain ⟨before, body, after, whole, cut, -, -⟩ := replace_eq_ok_iff.1 replaced
  exact ⟨before, body, after, whole, cut⟩

theorem slice_append (before body after : Text) :
    slice ⟨before ++ body ++ after⟩ ⟨before.width, before.width + body.width⟩ = .ok body := by
  rw [slice, check_append, Text.slice?_append]
  rfl

/-- The change reported for a replacement, and the one found between two texts, give the
rows and columns of their ends in both texts.  Offsets are words, so the new text has to
be short enough for its offsets. -/
theorem change_agrees :
    (∀ (d : Document) (range : ByteRange) (replacement : Text), d.check range = .ok () →
      ∃ d' e, d.replace range replacement = .ok (d', e) ∧
        (d'.length ≤ wordLimit →
          e.start = range.start ∧ e.oldEnd = range.stop ∧
            e.insertedWidth = replacement.width ∧ e.Agrees d.text d'.text)) ∧
    ∀ old new : Text, new.width ≤ wordLimit → (Change.between old new).Agrees old new := by
  constructor
  · rintro ⟨text⟩ range replacement accepted
    obtain ⟨before, deleted, after, whole, rfl⟩ := exists_cuts_of_check accepted
    obtain rfl : text = before ++ deleted ++ after := whole
    refine ⟨_, _, replace_append before deleted after replacement, fun fits => ?_⟩
    rw [Change.record_append fits]
    exact ⟨rfl, rfl, Nat.add_sub_cancel_left .., Change.exchange_agrees ..⟩
  · intro old new fits
    obtain ⟨head, deleted, inserted, tail, rfl, rfl, -, -, changed⟩ :=
      Change.exists_between old new
    rw [changed, Change.record_append fits]
    exact Change.exchange_agrees ..

/-- The replacement ends at the start of a row behind a letter of two bytes. -/
theorem change_agrees_rows :
    let d : Document := ⟨['é', '\n', 'b', '\n', 'c']⟩
    d.check ⟨2, 4⟩ = .ok () ∧
      ∃ d' e, d.replace ⟨2, 4⟩ ['\n', 'x', '\n', '\n'] = .ok (d', e) ∧
        d'.length ≤ wordLimit ∧ e.Agrees d.text d'.text ∧
        e.newEndPosition = ⟨3, 0⟩ ∧ e.oldEndPosition = ⟨1, 1⟩ := by
  intro d
  have accepted : d.check ⟨2, 4⟩ = .ok () := by decide +kernel
  obtain ⟨d', e, replaced, agrees⟩ :=
    change_agrees.1 d ⟨2, 4⟩ ['\n', 'x', '\n', '\n'] accepted
  have computed : d.replace ⟨2, 4⟩ ['\n', 'x', '\n', '\n'] =
      .ok (⟨['é', '\n', 'x', '\n', '\n', '\n', 'c']⟩,
        ⟨2, 4, 6, ⟨0, 2⟩, ⟨1, 1⟩, ⟨3, 0⟩⟩) := by rfl
  cases replaced.symm.trans computed
  have fits : Document.length ⟨['é', '\n', 'x', '\n', '\n', '\n', 'c']⟩ ≤ wordLimit := by
    decide +kernel
  exact ⟨accepted, _, _, computed, fits, (agrees fits).2.2.2, rfl, rfl⟩

/-- Every replacement can be undone: what it removed takes its place again, and the change
that this reports is the first one backwards. -/
theorem replace_inverse {d : Document} {range : ByteRange} (accepted : d.check range = .ok ())
    (fits : d.length ≤ wordLimit) (replacement : Text) :
    ∃ removed d' e, d.slice range = .ok removed ∧
      d.replace range replacement = .ok (d', e) ∧
      (d'.length ≤ wordLimit →
        d'.replace ⟨e.start, e.newEnd⟩ removed = .ok (d, e.inverse)) := by
  obtain ⟨text⟩ := d
  obtain ⟨before, removed, after, whole, rfl⟩ := exists_cuts_of_check accepted
  obtain rfl : text = before ++ removed ++ after := whole
  refine ⟨removed, _, _, slice_append .., replace_append before removed after replacement, ?_⟩
  intro short
  have undone := replace_append before replacement after removed
  rw [Change.record_append fits] at undone
  rw [Change.record_append short, Change.inverse_exchange]
  exact undone

/-- A row is put in front of the letter of two bytes that is left. -/
theorem replace_inverse_rows :
    let d : Document := ⟨['é', '\n', 'b', 'ü']⟩
    d.check ⟨2, 4⟩ = .ok () ∧ d.length ≤ wordLimit ∧
      ∃ removed d' e, d.slice ⟨2, 4⟩ = .ok removed ∧
        d.replace ⟨2, 4⟩ ['\n', '\n'] = .ok (d', e) ∧ d'.length ≤ wordLimit ∧
        d'.replace ⟨e.start, e.newEnd⟩ removed = .ok (d, e.inverse) := by
  intro d
  have accepted : d.check ⟨2, 4⟩ = .ok () := by decide +kernel
  have fits : d.length ≤ wordLimit := by decide +kernel
  obtain ⟨removed, d', e, cut, replaced, undone⟩ :=
    replace_inverse accepted fits ['\n', '\n']
  have short : d'.length ≤ wordLimit := by
    have computed : (d.replace ⟨2, 4⟩ ['\n', '\n']).map (·.1) =
        .ok ⟨['é', '\n', '\n', 'ü']⟩ := by rfl
    rw [replaced] at computed
    cases computed
    decide +kernel
  exact ⟨accepted, fits, removed, d', e, cut, replaced, short, undone short⟩

theorem exists_replace_of_cuts {d d' : Document} {before body after replacement : Text}
    (old : d.text = before ++ body ++ after) (new : d'.text = before ++ replacement ++ after) :
    ∃ e, d.replace ⟨before.width, before.width + body.width⟩ replacement = .ok (d', e) :=
  ⟨_, replace_eq_ok_iff.2 ⟨before, body, after, old, rfl, congrArg mk new, rfl⟩⟩

/-- Replacements of separate parts can be made in either order, if the range of the later
part is moved by what the earlier one gains or loses. -/
theorem replace_comm_of_le {d : Document} {first second : ByteRange}
    (acceptsFirst : d.check first = .ok ()) (acceptsSecond : d.check second = .ok ())
    (apart : first.stop ≤ second.start) (p q : Text) :
    let moved := fun offset => offset - (first.stop - first.start) + p.width
    ∃ behind front both,
      (∃ e, d.replace second q = .ok (behind, e)) ∧
      (∃ e, behind.replace first p = .ok (both, e)) ∧
      (∃ e, d.replace first p = .ok (front, e)) ∧
      ∃ e, front.replace ⟨moved second.start, moved second.stop⟩ q = .ok (both, e) := by
  intro moved
  obtain ⟨before, x, rest, whole, rfl⟩ := exists_cuts_of_check acceptsFirst
  obtain ⟨head, y, after, whole', rfl⟩ := exists_cuts_of_check acceptsSecond
  have cut : before ++ x ++ rest = head ++ (y ++ after) := by
    rw [← whole, whole', List.append_assoc]
  obtain ⟨middle, rfl, rfl⟩ := Text.exists_between_cuts cut (by simpa using apart)
  have range : (⟨moved (before ++ x ++ middle).width,
        moved ((before ++ x ++ middle).width + y.width)⟩ : ByteRange) =
      ⟨(before ++ p ++ middle).width, (before ++ p ++ middle).width + y.width⟩ := by
    simp only [moved, Text.width_append, ByteRange.mk.injEq]
    omega
  refine ⟨⟨before ++ x ++ middle ++ q ++ after⟩, ⟨before ++ p ++ middle ++ y ++ after⟩,
    ⟨before ++ p ++ middle ++ q ++ after⟩, ?_, ?_, ?_, ?_⟩
  · exact exists_replace_of_cuts whole' rfl
  · have old : before ++ x ++ middle ++ q ++ after = before ++ x ++ (middle ++ q ++ after) := by
      simp
    exact exists_replace_of_cuts old (by simp)
  · exact exists_replace_of_cuts whole (by simp)
  · rw [range]
    exact exists_replace_of_cuts rfl rfl

/-- The parts touch, and the first one loses a letter of two bytes. -/
theorem replace_comm_of_le_touching :
    let d : Document := ⟨['é', 'a', 'ü']⟩
    d.check ⟨0, 2⟩ = .ok () ∧ d.check ⟨2, 3⟩ = .ok () ∧
      ∃ behind front both,
        (∃ e, d.replace ⟨2, 3⟩ ['x', 'ö'] = .ok (behind, e)) ∧
        (∃ e, behind.replace ⟨0, 2⟩ ['b'] = .ok (both, e)) ∧
        (∃ e, d.replace ⟨0, 2⟩ ['b'] = .ok (front, e)) ∧
        ∃ e, front.replace ⟨1, 2⟩ ['x', 'ö'] = .ok (both, e) := by
  intro d
  have first : d.check ⟨0, 2⟩ = .ok () := by decide +kernel
  have second : d.check ⟨2, 3⟩ = .ok () := by decide +kernel
  exact ⟨first, second, replace_comm_of_le first second (by decide) ['b'] ['x', 'ö']⟩

end Document

end ParseTree
