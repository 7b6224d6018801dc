import Mathlib.Data.List.Induction
import Mathlib.Data.List.TakeWhile
import ParseTree.Text.Position

/-!
# Rows and columns in the bytes of a text

The row of an offset is the number of newline bytes in front of it, and its column
the number of bytes since the last of these.  A line index finds both from the starts
of the lines, and `Position.advance` from the position where a piece of text begins.
Here the two are compared with the count of bytes, and so with each other: no byte
of a longer character looks like a newline.
-/

namespace ParseTree

def newlineByte : UInt8 := 10

namespace Position

def behind (bytes : List UInt8) : Position :=
  ⟨bytes.count newlineByte, (bytes.reverse.takeWhile (· ≠ newlineByte)).length⟩

end Position

namespace Text

def rowColumn (text : Text) (offset : Nat) : Position := .behind (text.bytes.take offset)

/-! ## Bytes of characters -/

theorem le_toNat_of_mem_encode {c : Char} (long : 127 < c.val.toNat) {b : UInt8}
    (mem : b ∈ String.utf8EncodeChar c) : 128 ≤ b.toNat := by
  simp only [String.utf8EncodeChar, if_neg (Nat.not_le.2 long)] at mem
  generalize c.val.toNat = code at mem
  split at mem
  · simp only [List.mem_cons, List.not_mem_nil, or_false] at mem
    rcases mem with rfl | rfl <;> rw [UInt8.toNat_ofNat'] <;> omega
  split at mem
  · simp only [List.mem_cons, List.not_mem_nil, or_false] at mem
    rcases mem with rfl | rfl | rfl <;> rw [UInt8.toNat_ofNat'] <;> omega
  · simp only [List.mem_cons, List.not_mem_nil, or_false] at mem
    rcases mem with rfl | rfl | rfl | rfl <;> rw [UInt8.toNat_ofNat'] <;> omega

theorem newlineByte_mem_encode_iff {c : Char} :
    newlineByte ∈ String.utf8EncodeChar c ↔ c = '\n' := by
  constructor
  · intro mem
    by_cases long : 127 < c.val.toNat
    · have high := le_toNat_of_mem_encode long mem
      simp [newlineByte] at high
    · rw [String.utf8EncodeChar, if_pos (by omega)] at mem
      have code := congrArg UInt8.toNat (List.mem_singleton.1 mem)
      rw [UInt8.toNat_ofNat'] at code
      apply Char.toNat_inj.1
      change 10 = _ at code
      change c.val.toNat = 10
      omega
  · rintro rfl
    decide

@[simp] theorem bytes_nil : bytes [] = [] := rfl

@[simp] theorem bytes_cons (c : Char) (text : Text) :
    bytes (c :: text) = String.utf8EncodeChar c ++ text.bytes := rfl

@[simp] theorem bytes_append (a b : Text) : (a ++ b).bytes = a.bytes ++ b.bytes :=
  List.flatMap_append

@[simp] theorem length_bytes (text : Text) : text.bytes.length = text.width := by
  induction text with
  | nil => rfl
  | cons c text ih => simp [ih]

theorem bytes_injective {a b : Text} (h : a.bytes = b.bytes) : a = b := by
  have encoded : String.ofList a = String.ofList b := by
    rw [← String.toByteArray_inj, String.toByteArray_ofList, String.toByteArray_ofList]
    exact congrArg List.toByteArray h
  simpa using congrArg String.toList encoded

theorem newlineByte_mem_bytes_iff {text : Text} : newlineByte ∈ text.bytes ↔ '\n' ∈ text := by
  simp [bytes, List.mem_flatMap, newlineByte_mem_encode_iff]

end Text

/-! ## Positions behind bytes -/

namespace Position

theorem row_behind_le (bytes : List UInt8) : (behind bytes).row ≤ bytes.length :=
  List.count_le_length

theorem column_behind_le (bytes : List UInt8) : (behind bytes).column ≤ bytes.length := by
  simpa [behind] using (List.takeWhile_sublist (l := bytes.reverse) _).length_le

theorem behind_append_of_mem {xs ys : List UInt8} (mem : newlineByte ∈ ys) :
    behind (xs ++ ys) = ⟨(behind xs).row + (behind ys).row, (behind ys).column⟩ := by
  have stops : (ys.reverse.takeWhile (· ≠ newlineByte)).length ≠ ys.reverse.length := by
    intro whole
    have same := (List.takeWhile_prefix (· ≠ newlineByte)).eq_of_length whole
    simpa using List.takeWhile_eq_self_iff.1 same newlineByte (List.mem_reverse.2 mem)
  simp only [behind, List.count_append, List.reverse_append, List.takeWhile_append,
    if_neg stops]

theorem behind_append_of_not_mem {xs ys : List UInt8} (absent : newlineByte ∉ ys) :
    behind (xs ++ ys) = ⟨(behind xs).row, (behind xs).column + ys.length⟩ := by
  have others : ∀ b ∈ ys.reverse, decide (b ≠ newlineByte) = true := fun b inside =>
    decide_eq_true (ne_of_mem_of_not_mem (List.mem_reverse.1 inside) absent)
  simp only [behind, List.count_append, List.reverse_append,
    List.takeWhile_append_of_pos others, List.count_eq_zero_of_not_mem absent,
    List.length_append, List.length_reverse, Nat.add_comm ys.length, Nat.add_zero]

theorem behind_bytes (text : Text) :
    behind text.bytes =
      ⟨text.count '\n', Text.width (text.reverse.takeWhile (· ≠ '\n'))⟩ := by
  induction text using List.reverseRecOn with
  | nil => rfl
  | append_singleton text c ih =>
      rw [Text.bytes_append, List.reverse_append, List.count_append]
      by_cases newline : c = '\n'
      · subst newline
        rw [behind_append_of_mem (by decide), ih]
        rfl
      · have absent : newlineByte ∉ Text.bytes [c] := by
          simpa [Text.newlineByte_mem_encode_iff] using newline
        rw [behind_append_of_not_mem absent, ih]
        simp [newline, Nat.add_comm]

theorem advance_of_mem (p : Position) {text : Text} (newline : '\n' ∈ text) :
    p.advance text =
      ⟨addWord p.row (behind text.bytes).row, (behind text.bytes).column⟩ := by
  rw [advance, if_pos newline, behind_bytes]

theorem advance_of_not_mem (p : Position) {text : Text} (absent : '\n' ∉ text) :
    p.advance text = ⟨p.row, addWord p.column text.width⟩ :=
  if_neg absent

/-- Sums stay below the limit as long as the text is no longer than that. -/
theorem advance_behind {before text : Text} (fits : (before ++ text).width ≤ wordLimit) :
    (behind before.bytes).advance text = behind (before ++ text).bytes := by
  rw [← Text.length_bytes] at fits
  have row := Nat.le_trans (row_behind_le _) fits
  have column := Nat.le_trans (column_behind_le _) fits
  rw [Text.bytes_append] at row column ⊢
  by_cases newline : '\n' ∈ text
  · rw [behind_append_of_mem (Text.newlineByte_mem_bytes_iff.2 newline)] at row ⊢
    rw [advance_of_mem _ newline, addWord, Nat.min_eq_left row]
  · rw [behind_append_of_not_mem (mt Text.newlineByte_mem_bytes_iff.1 newline),
      Text.length_bytes] at column ⊢
    rw [advance_of_not_mem _ newline, addWord, Nat.min_eq_left column]

end Position

/-! ## Positions found by lines -/

namespace LineIndex

theorem lt_of_mem_startsFrom {base start : Nat} {text : Text}
    (mem : start ∈ startsFrom base text) : base < start := by
  induction text generalizing base with
  | nil => cases mem
  | cons c text ih =>
      have size := c.utf8Size_pos
      rw [startsFrom] at mem
      split at mem
      · rcases List.mem_cons.1 mem with rfl | later
        · omega
        · exact Nat.lt_trans (by omega) (ih later)
      · exact Nat.lt_trans (by omega) (ih mem)

theorem le_of_mem_startsFrom_cons {base start : Nat} {c : Char} {text : Text}
    (mem : start ∈ startsFrom base (c :: text)) : base + c.utf8Size ≤ start := by
  rw [startsFrom] at mem
  split at mem
  · rcases List.mem_cons.1 mem with rfl | later
    · exact Nat.le_refl _
    · exact Nat.le_of_lt (lt_of_mem_startsFrom later)
  · exact Nat.le_of_lt (lt_of_mem_startsFrom mem)

theorem locate_of_lt {offset row start : Nat} {later : List Nat}
    (behind : ∀ next ∈ later, offset < next) :
    locate offset row start later = ⟨row, offset - start⟩ := by
  cases later with
  | nil => rfl
  | cons next later =>
      have := behind next List.mem_cons_self
      rw [locate, if_neg (by omega)]

theorem locate_startsFrom_cons {offset : Nat} {c : Char} (text : Text) {read : List UInt8}
    (passed : read.length + c.utf8Size ≤ offset) :
    locate offset (Position.behind read).row (read.length - (Position.behind read).column)
        (startsFrom read.length (c :: text)) =
      let read := read ++ String.utf8EncodeChar c
      locate offset (Position.behind read).row (read.length - (Position.behind read).column)
        (startsFrom read.length text) := by
  have size := String.length_utf8EncodeChar c
  dsimp only
  rw [startsFrom, List.length_append, size]
  by_cases newline : c = '\n'
  · subst newline
    rw [if_pos rfl, locate, if_pos passed, Position.behind_append_of_mem (by decide)]
    rfl
  · rw [if_neg newline,
      Position.behind_append_of_not_mem (mt Text.newlineByte_mem_encode_iff.1 newline), size,
      Nat.add_sub_add_right]

/-- The search for a line when `read` lies in front of the text: it stands in the row
behind `read` and knows where that row starts. -/
theorem locate_startsFrom {offset : Nat} (text : Text) (read : List UInt8)
    (reached : read.length ≤ offset) (inside : offset ≤ read.length + text.width) :
    locate offset (Position.behind read).row (read.length - (Position.behind read).column)
        (startsFrom read.length text) =
      Position.behind (read ++ text.bytes.take (offset - read.length)) := by
  induction text generalizing read with
  | nil =>
      have here : offset = read.length := Nat.le_antisymm inside reached
      simp only [startsFrom, locate, Text.bytes_nil, List.take_nil, List.append_nil, here]
      rw [Nat.sub_sub_self (Position.column_behind_le read)]
  | cons c text ih =>
      have size := String.length_utf8EncodeChar c
      rw [Text.width_cons] at inside
      by_cases passed : read.length + c.utf8Size ≤ offset
      · have whole : read ++ (Text.bytes (c :: text)).take (offset - read.length) =
            read ++ String.utf8EncodeChar c ++
              (Text.bytes text).take (offset - (read ++ String.utf8EncodeChar c).length) := by
          rw [Text.bytes_cons, List.take_append, List.take_of_length_le (by omega),
            List.length_append, Nat.sub_sub, List.append_assoc]
        rw [locate_startsFrom_cons text passed, whole]
        exact ih _ (by simpa using passed) (by simp; omega)
      · -- the rows behind `c` start too late, and in front of its end there is no newline
        have column := Position.column_behind_le read
        have later : ∀ next ∈ startsFrom read.length (c :: text), offset < next :=
          fun next mem => Nat.lt_of_lt_of_le (by omega) (le_of_mem_startsFrom_cons mem)
        have absent : newlineByte ∉ (Text.bytes (c :: text)).take (offset - read.length) := by
          rw [Text.bytes_cons, List.take_append_of_le_length (by omega)]
          intro mem
          obtain rfl := Text.newlineByte_mem_encode_iff.1 (List.mem_of_mem_take mem)
          have one : '\n'.utf8Size = 1 := by decide
          rw [show offset - read.length = 0 by omega] at mem
          cases mem
        rw [locate_of_lt later, Position.behind_append_of_not_mem absent, List.length_take,
          Text.length_bytes, Text.width_cons]
        congr 1
        omega

end LineIndex

namespace Text

theorem positionAt_eq_rowColumn {text : Text} {offset : Nat} (inside : offset ≤ text.width) :
    text.positionAt offset = text.rowColumn offset :=
  LineIndex.locate_startsFrom text [] (Nat.zero_le offset) (by simpa using inside)

theorem rowColumn_append (before after : Text) :
    (before ++ after).rowColumn before.width = .behind before.bytes := by
  rw [rowColumn, bytes_append, ← length_bytes, List.take_left]

theorem rowColumn_le (text : Text) (offset : Nat) :
    (text.rowColumn offset).row ≤ offset ∧ (text.rowColumn offset).column ≤ offset := by
  have short : (text.bytes.take offset).length ≤ offset := by
    rw [List.length_take]
    exact Nat.min_le_left _ _
  exact ⟨Nat.le_trans (Position.row_behind_le _) short,
    Nat.le_trans (Position.column_behind_le _) short⟩

theorem rowColumn_cases {text : Text} {offset later : Nat} (le : offset ≤ later)
    (inside : later ≤ text.width) :
    (text.rowColumn offset).row < (text.rowColumn later).row ∨
      (text.rowColumn offset).row = (text.rowColumn later).row ∧
        (text.rowColumn later).column = (text.rowColumn offset).column + (later - offset) := by
  obtain ⟨distance, rfl⟩ := Nat.exists_eq_add_of_le le
  rw [← length_bytes] at inside
  have length : ((text.bytes.drop offset).take distance).length = distance := by
    rw [List.length_take, List.length_drop]
    omega
  rw [rowColumn, rowColumn, List.take_add]
  generalize (text.bytes.drop offset).take distance = between at length
  by_cases newline : newlineByte ∈ between
  · have more : 0 < between.count newlineByte := List.count_pos_iff.2 newline
    rw [Position.behind_append_of_mem newline]
    exact Or.inl (Nat.lt_add_of_pos_right more)
  · rw [Position.behind_append_of_not_mem newline, length, Nat.add_sub_cancel_left]
    exact Or.inr ⟨rfl, rfl⟩

end Text

end ParseTree
