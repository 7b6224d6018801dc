import ParseTree.Text.Basic

/-!
# Rulers

A ruler keeps, for each byte offset of a text, the text that follows there.
With it a cut far into a text costs no more than one near its start; a ruler
selects exactly the ranges that the text itself does.
-/

namespace ParseTree

namespace Text

/-- What follows each offset, the end included; nothing inside a character. -/
def tails : Text → List (Option Text)
  | [] => [some []]
  | c :: text => some (c :: text) :: (List.replicate (c.utf8Size - 1) none ++ tails text)

theorem join_getElem?_tails (text : Text) (offset : Nat) :
    (tails text)[offset]?.join = (split? text offset).map (·.2) := by
  induction text generalizing offset with
  | nil => cases offset <;> simp [tails, split?]
  | cons c text ih =>
      have size_pos := c.utf8Size_pos
      cases offset with
      | zero => simp [tails, split?]
      | succ offset =>
          rw [tails, split?, List.getElem?_cons_succ]
          split
          · rename_i fits
            rw [List.getElem?_append_right (by rw [List.length_replicate]; omega),
              List.length_replicate, Option.map_map,
              show offset - (c.utf8Size - 1) = offset + 1 - c.utf8Size by omega, ih]
            rfl
          · rename_i short
            rw [List.getElem?_append_left (by rw [List.length_replicate]; omega)]
            rw [List.getElem?_replicate, if_pos (by omega)]
            rfl

end Text

structure Ruler where
  tails : Array (Option Text)

namespace Ruler

def ofText (text : Text) : Ruler := ⟨text.tails.toArray⟩

def slice? (ruler : Ruler) (range : ByteRange) : Option Text :=
  if range.start ≤ range.stop then
    match ruler.tails[range.start]? with
    | some (some rest) => (rest.split? (range.stop - range.start)).map (·.1)
    | _ => none
  else none

theorem slice?_ofText (text : Text) (range : ByteRange) :
    (ofText text).slice? range = text.slice? range := by
  have tail := Text.join_getElem?_tails text range.start
  rw [slice?, Text.slice?]
  split
  · rw [ofText, List.getElem?_toArray]
    cases cut : text.split? range.start with
    | none =>
        rw [cut] at tail
        split
        · rename_i rest found
          rw [found] at tail
          simp at tail
        · rfl
    | some halves =>
        rw [cut] at tail
        split
        · rename_i rest found
          rw [found] at tail
          simp only [Option.join_some, Option.map_some, Option.some.injEq] at tail
          rw [tail]
        · rename_i other
          cases found : text.tails[range.start]? with
          | none => rw [found] at tail; simp at tail
          | some here =>
              rw [found] at tail
              exact (other halves.2 (by rw [found]; simpa using tail)).elim
  · rfl

end Ruler

end ParseTree
