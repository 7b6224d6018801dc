import ParseTree.Proofs.Text.Boundary
import ParseTree.Proofs.Text.Position

/-!
# Lines, and the arithmetic of positions

The starts of the lines form a sorted table, and the search for an offset stops where
this table divides into the starts up to the offset and those behind it.  The row and
the column found there are counts of bytes, and they grow with the offset.

At a character boundary `Position.advance` reaches the same position over the text in
front of it, and a text can be taken in one step or in two.  Only a column that begins in
the first part and goes on through the second tells the two apart: two steps cut it off at
the largest word, one step does not.
-/

namespace ParseTree

/-! ## The table of line starts -/

namespace LineIndex

def lineStarts (lines : LineIndex) : List Nat := 0 :: lines.starts

/-- Line `row` starts at `start`.  It and the lines in front of it start at or before
`offset`, the lines behind it start later. -/
structure Divides (starts : List Nat) (offset row start : Nat) : Prop where
  here : starts[row]? = some start
  le_iff : ∀ line next, starts[line]? = some next → (next ≤ offset ↔ line ≤ row)

theorem divides_zero {offset start : Nat} {later : List Nat} (reached : start ≤ offset)
    (behind : ∀ next ∈ later, offset < next) : Divides (start :: later) offset 0 start where
  here := rfl
  le_iff line next found := by
    cases line with
    | zero =>
        obtain rfl : start = next := Option.some.inj found
        exact iff_of_true reached (Nat.le_refl 0)
    | succ line =>
        have late := behind next (List.mem_of_getElem? found)
        exact iff_of_false (Nat.not_le.2 late) (Nat.not_succ_le_zero line)

theorem Divides.cons {starts : List Nat} {offset row start first : Nat}
    (h : Divides starts offset row start) (reached : first ≤ offset) :
    Divides (first :: starts) offset (row + 1) start where
  here := h.here
  le_iff line next found := by
    cases line with
    | zero =>
        obtain rfl : first = next := Option.some.inj found
        exact iff_of_true reached (Nat.zero_le _)
    | succ line => rw [h.le_iff line next found, Nat.add_le_add_iff_right]

/-- The search passes as many lines as start at or before `offset`.  In a table that is
not sorted it might stop too early. -/
theorem exists_divides_locate {offset : Nat} {later : List Nat}
    (sorted : later.Pairwise (· < ·)) (row : Nat) {start : Nat} (reached : start ≤ offset) :
    ∃ passed found, locate offset row start later = ⟨row + passed, offset - found⟩ ∧
      Divides (start :: later) offset passed found := by
  induction later generalizing row start with
  | nil => exact ⟨0, start, rfl, divides_zero reached (by simp)⟩
  | cons next later ih =>
      obtain ⟨first, others⟩ := List.pairwise_cons.1 sorted
      rw [locate]
      split
      · rename_i goesOn
        obtain ⟨passed, found, same, divides⟩ := ih others (row + 1) goesOn
        refine ⟨passed + 1, found, ?_, divides.cons reached⟩
        rw [same, Nat.add_assoc, Nat.add_comm 1]
      · rename_i stops
        refine ⟨0, start, rfl, divides_zero reached (List.forall_mem_cons.2 ⟨by omega, ?_⟩)⟩
        intro last mem
        have order := first last mem
        omega

theorem exists_divides_position {lines : LineIndex} (sorted : lines.starts.Pairwise (· < ·))
    (offset : Nat) :
    ∃ start, Divides lines.lineStarts offset (lines.position offset).row start ∧
      (lines.position offset).column = offset - start := by
  obtain ⟨passed, start, found, divides⟩ :=
    exists_divides_locate sorted 0 (Nat.zero_le offset)
  rw [Nat.zero_add] at found
  rw [position, found]
  exact ⟨start, divides, rfl⟩

theorem pairwise_startsFrom (base : Nat) (text : Text) :
    (startsFrom base text).Pairwise (· < ·) := by
  induction text generalizing base with
  | nil => exact List.Pairwise.nil
  | cons c text ih =>
      rw [startsFrom]
      split
      · exact List.pairwise_cons.2 ⟨fun _ mem => lt_of_mem_startsFrom mem, ih _⟩
      · exact ih _

end LineIndex

/-! ## Steps of `advance` -/

theorem addWord_addWord (a b c : Nat) : addWord (addWord a b) c = addWord a (b + c) := by
  simp only [addWord]
  omega

namespace Position

theorem compare_eq_lt_iff {p q : Position} :
    p.compare q = .lt ↔ p.row < q.row ∨ p.row = q.row ∧ p.column < q.column := by
  rw [compare, Ordering.then_eq_lt, Nat.compare_eq_lt, Nat.compare_eq_eq, Nat.compare_eq_lt]

theorem row_behind_of_not_mem {text : Text} (absent : '\n' ∉ text) :
    (behind text.bytes).row = 0 :=
  List.count_eq_zero_of_not_mem (mt Text.newlineByte_mem_bytes_iff.1 absent)

/-- The last newline of both texts is the one that decides where the column begins. -/
theorem advance_append {p : Position} {a b : Text}
    (fits : (p.advance (a ++ b)).column ≤ wordLimit) :
    (p.advance a).advance b = p.advance (a ++ b) := by
  by_cases inB : '\n' ∈ b
  · have newline := Text.newlineByte_mem_bytes_iff.2 inB
    rw [advance_of_mem _ inB, advance_of_mem _ (List.mem_append_right a inB),
      Text.bytes_append, behind_append_of_mem newline]
    by_cases inA : '\n' ∈ a
    · rw [advance_of_mem _ inA, addWord_addWord]
    · rw [advance_of_not_mem _ inA, row_behind_of_not_mem inA, Nat.zero_add]
  · have absent := mt Text.newlineByte_mem_bytes_iff.1 inB
    rw [advance_of_not_mem _ inB]
    by_cases inA : '\n' ∈ a
    · rw [advance_of_mem _ (List.mem_append_left b inA), Text.bytes_append,
        behind_append_of_not_mem absent, Text.length_bytes] at fits ⊢
      rw [advance_of_mem _ inA]
      -- the only sum that is cut off on one side alone
      simp only [addWord, Nat.min_eq_left fits]
    · have neither : '\n' ∉ a ++ b := by simp [inA, inB]
      rw [advance_of_not_mem _ inA, advance_of_not_mem _ neither, addWord_addWord,
        Text.width_append]

theorem exists_line_behind (bytes : List UInt8) :
    ∃ before line, bytes = before ++ line ∧
      (before = [] ∨ before.getLast? = some newlineByte) ∧ newlineByte ∉ line ∧
      line.length = (behind bytes).column := by
  induction bytes using List.reverseRecOn with
  | nil => exact ⟨[], [], rfl, Or.inl rfl, List.not_mem_nil, rfl⟩
  | append_singleton bytes b ih =>
      by_cases newline : b = newlineByte
      · subst newline
        refine ⟨bytes ++ [newlineByte], [], by simp, Or.inr (by simp), List.not_mem_nil, ?_⟩
        rw [behind_append_of_mem List.mem_cons_self]
        rfl
      · obtain ⟨before, line, rfl, ends, absent, length⟩ := ih
        have other : newlineByte ∉ [b] := by simpa using Ne.symm newline
        refine ⟨before, line ++ [b], by simp, ends, by simp [absent, Ne.symm newline], ?_⟩
        rw [behind_append_of_not_mem other, List.length_append, length]

end Position

/-! ## Positions in a text -/

namespace Text

/-- The line of `offset` starts at `start`: behind a newline or at the start of the text,
and with no newline from there to `offset`. -/
structure StartsLine (text : Text) (start offset : Nat) : Prop where
  le : start ≤ offset
  behind : start = 0 ∨ text.bytes[start - 1]? = some newlineByte
  last : ∀ i, start ≤ i → i < offset → text.bytes[i]? ≠ some newlineByte

theorem exists_startsLine {text : Text} {offset : Nat} (inside : offset ≤ text.width) :
    ∃ start, text.StartsLine start offset ∧
      (text.rowColumn offset).column = offset - start := by
  obtain ⟨before, line, cut, ends, absent, column⟩ :=
    Position.exists_line_behind (text.bytes.take offset)
  have length : offset = before.length + line.length := by
    rw [← List.length_append, ← cut, List.length_take, length_bytes, Nat.min_eq_left inside]
  have sameByte : ∀ i < offset, text.bytes[i]? = (before ++ line)[i]? := by
    intro i lt
    rw [← cut, List.getElem?_take_of_lt lt]
  refine ⟨before.length, ⟨by omega, ?_, ?_⟩, ?_⟩
  · rcases ends with rfl | newline
    · exact Or.inl rfl
    · have nonempty : 0 < before.length := by
        apply List.length_pos_iff.2
        rintro rfl
        cases newline
      right
      rw [sameByte _ (by omega), List.getElem?_append_left (by omega),
        ← List.getLast?_eq_getElem?, newline]
  · intro i reached lt newline
    rw [sameByte i lt, List.getElem?_append_right reached] at newline
    exact absent (List.mem_of_getElem? newline)
  · rw [rowColumn, ← column]
    omega

/-- What the line index of a text says about its offsets.  The search divides the table for
every offset, also for one behind the end.  Up to the end, rows and columns are those of
the bytes, also inside a character. -/
structure Positioned (text : Text) : Prop where
  search : ∀ offset, ∃ start,
    LineIndex.Divides (LineIndex.ofText text).lineStarts offset (text.positionAt offset).row
      start ∧ (text.positionAt offset).column = offset - start
  row : ∀ offset ≤ text.width,
    (text.positionAt offset).row = (text.bytes.take offset).count newlineByte
  column : ∀ offset ≤ text.width, ∃ start, text.StartsLine start offset ∧
    (text.positionAt offset).column = offset - start
  increasing : ∀ offset later, offset < later → later ≤ text.width →
    (text.positionAt offset).compare (text.positionAt later) = .lt
  boundary : ∀ offset ≤ wordLimit, text.isBoundary offset = true →
    ∃ before, text.slice? ⟨0, offset⟩ = some before ∧
      text.positionAt offset = Position.advance ⟨0, 0⟩ before

theorem compare_positionAt {text : Text} {offset later : Nat} (lt : offset < later)
    (inside : later ≤ text.width) :
    (text.positionAt offset).compare (text.positionAt later) = .lt := by
  rw [positionAt_eq_rowColumn (by omega), positionAt_eq_rowColumn inside,
    Position.compare_eq_lt_iff]
  rcases rowColumn_cases (Nat.le_of_lt lt) inside with row | ⟨row, column⟩
  · exact Or.inl row
  · exact Or.inr ⟨row, by omega⟩

theorem positionAt_append {before : Text} (after : Text) (fits : before.width ≤ wordLimit) :
    (before ++ after).positionAt before.width = Position.advance ⟨0, 0⟩ before := by
  rw [positionAt_eq_rowColumn (by simp), rowColumn_append]
  exact (@Position.advance_behind [] before fits).symm

theorem positionAt_of_isBoundary {text : Text} {offset : Nat} (fits : offset ≤ wordLimit)
    (cuts : text.isBoundary offset = true) :
    ∃ before, text.slice? ⟨0, offset⟩ = some before ∧
      text.positionAt offset = Position.advance ⟨0, 0⟩ before := by
  obtain ⟨before, after, rfl, rfl⟩ := isBoundary_iff.1 cuts
  have head := slice?_append [] before after
  rw [List.nil_append, width_nil, Nat.zero_add] at head
  exact ⟨before, head, positionAt_append after fits⟩

/-- Positions are counts of bytes that grow with the offset, and they can be reached over
the text itself, in one step or in two.  Offsets and columns are words, so a boundary and
the column that two steps reach have to be words; the start may be any position. -/
theorem positions_exact :
    (∀ text : Text, text.Positioned) ∧
      ∀ (p : Position) (a b : Text), (p.advance (a ++ b)).column ≤ wordLimit →
        (p.advance a).advance b = p.advance (a ++ b) := by
  constructor
  · intro text
    have sorted := LineIndex.pairwise_startsFrom 0 text
    refine ⟨LineIndex.exists_divides_position sorted, ?_, ?_, ?_, ?_⟩
    · intro offset inside
      rw [positionAt_eq_rowColumn inside]
      rfl
    · intro offset inside
      rw [positionAt_eq_rowColumn inside]
      exact exists_startsLine inside
    · intro offset later lt inside
      exact compare_positionAt lt inside
    · intro offset fits cuts
      exact positionAt_of_isBoundary fits cuts
  · intro p a b fits
    exact Position.advance_append fits

/-- An empty line, a newline itself, the end of the text, and a line that begins in the first
of two steps and ends behind the second. -/
theorem positions_exact_empty_line :
    let text : Text := ['é', '\n', '\n', 'b']
    let p : Position := ⟨1, 2⟩
    let a : Text := ['é', '\n', 'b']
    let b : Text := ['é']
    (5 ≤ text.width ∧ 5 ≤ wordLimit ∧ text.isBoundary 5 = true ∧
      (p.advance (a ++ b)).column ≤ wordLimit) ∧
    (text.positionAt 5).row = 2 ∧
    (∃ start, text.StartsLine start 5 ∧ (text.positionAt 5).column = 5 - start) ∧
    (text.positionAt 2).compare (text.positionAt 3) = .lt ∧
    (∃ before, text.slice? ⟨0, 5⟩ = some before ∧
      text.positionAt 5 = Position.advance ⟨0, 0⟩ before) ∧
    (p.advance a).advance b = ⟨2, 3⟩ := by
  intro text p a b
  have inside : 5 ≤ text.width := by decide +kernel
  have word : 5 ≤ wordLimit := by decide
  have cuts : text.isBoundary 5 = true := by decide +kernel
  have fits : (p.advance (a ++ b)).column ≤ wordLimit := by decide +kernel
  obtain ⟨positioned, steps⟩ := positions_exact
  have here := positioned text
  refine ⟨⟨inside, word, cuts, fits⟩, here.row 5 inside, here.column 5 inside,
    here.increasing 2 3 (by decide) (by omega), here.boundary 5 word cuts, ?_⟩
  exact (steps p a b fits).trans (by decide +kernel)

end Text

end ParseTree
