import ParseTree.Text.Document

/-!
# Character boundaries and accepted ranges

A boundary of a text is the width of one of its heads.  A document accepts a
range exactly if both ends are boundaries and in order, and a replacement is
refused for no other reason.
-/

namespace ParseTree

namespace Text

theorem width_pos {text : Text} (h : text ≠ []) : 0 < text.width := by
  cases text with
  | nil => exact absurd rfl h
  | cons c text =>
      have := c.utf8Size_pos
      rw [width_cons]
      omega

theorem isBoundary_iff {text : Text} {offset : Nat} :
    text.isBoundary offset = true ↔
      ∃ before after, text = before ++ after ∧ offset = width before := by
  simp only [isBoundary, Option.isSome_iff_exists, Prod.exists, split?_eq_some_iff]

theorem isBoundary_append (before after : Text) :
    (before ++ after).isBoundary before.width = true :=
  isBoundary_iff.2 ⟨before, after, rfl, rfl⟩

theorem isBoundary_zero (text : Text) : text.isBoundary 0 = true :=
  isBoundary_append [] text

theorem isBoundary_width (text : Text) : text.isBoundary text.width = true := by
  simpa using isBoundary_append text []

theorem le_width_of_isBoundary {text : Text} {offset : Nat}
    (h : text.isBoundary offset = true) : offset ≤ text.width := by
  obtain ⟨before, after, rfl, rfl⟩ := isBoundary_iff.1 h
  rw [width_append]
  omega

theorem slice?_append (before body after : Text) :
    slice? (before ++ body ++ after) ⟨before.width, before.width + body.width⟩ =
      some body := by
  rw [slice?, if_pos (Nat.le_add_right _ _), List.append_assoc, split?_append]
  dsimp only
  rw [Nat.add_sub_cancel_left, split?_append]
  rfl

end Text

namespace Document

theorem check_eq_ok_iff {d : Document} {range : ByteRange} :
    d.check range = .ok () ↔
      range.start ≤ range.stop ∧ d.text.isBoundary range.start = true ∧
        d.text.isBoundary range.stop = true := by
  unfold check
  constructor
  · intro h
    split at h
    · cases h
    split at h
    · cases h
    split at h
    · cases h
    · rename_i bounds start stop
      exact ⟨by omega, by simpa using start, by simpa using stop⟩
  · rintro ⟨ordered, start, stop⟩
    have inside : range.stop ≤ d.length := Text.le_width_of_isBoundary stop
    rw [if_neg (by omega), if_neg (by simp [start]), if_neg (by simp [stop])]

theorem exists_replace_of_check {d : Document} {range : ByteRange}
    (h : d.check range = .ok ()) (replacement : Text) :
    ∃ d', d.replace range replacement = .ok (d', Change.record d.text range replacement) := by
  obtain ⟨-, start, stop⟩ := check_eq_ok_iff.1 h
  obtain ⟨⟨before, _⟩, cut⟩ := Option.isSome_iff_exists.1 start
  obtain ⟨⟨_, after⟩, cut'⟩ := Option.isSome_iff_exists.1 stop
  refine ⟨⟨before ++ replacement ++ after⟩, ?_⟩
  rw [replace, h, Text.splice?, cut, cut']
  rfl

end Document

end ParseTree
