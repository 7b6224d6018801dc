/-!
# Text measured in bytes

Source text is a list of characters, and every offset into it counts the bytes
of its UTF-8 form.  An offset is a character boundary when `Text.split?` can
cut there; a range of offsets selects text when both of its ends are
boundaries.
-/

namespace ParseTree

abbrev Text := List Char

structure ByteRange where
  start : Nat
  stop : Nat
  deriving DecidableEq, Repr

namespace Text

def ofString (s : String) : Text := s.toList

def bytes (text : Text) : List UInt8 := text.flatMap String.utf8EncodeChar

def width : Text → Nat
  | [] => 0
  | c :: text => c.utf8Size + width text

/-- Cuts after exactly `offset` bytes, and refuses to cut inside a character
or past the end. -/
def split? : Text → Nat → Option (Text × Text)
  | text, 0 => some ([], text)
  | [], _ + 1 => none
  | c :: text, offset + 1 =>
      if c.utf8Size ≤ offset + 1 then
        (split? text (offset + 1 - c.utf8Size)).map
          fun (before, after) => (c :: before, after)
      else none

def isBoundary (text : Text) (offset : Nat) : Bool := (split? text offset).isSome

def slice? (text : Text) (range : ByteRange) : Option Text :=
  if range.start ≤ range.stop then
    match split? text range.start with
    | none => none
    | some (_, rest) => (split? rest (range.stop - range.start)).map (·.1)
  else none

def splice? (text : Text) (range : ByteRange) (replacement : Text) : Option Text :=
  match split? text range.start, split? text range.stop with
  | some (before, _), some (_, after) => some (before ++ replacement ++ after)
  | _, _ => none

@[simp] theorem width_nil : width [] = 0 := rfl

@[simp] theorem width_cons (c : Char) (text : Text) :
    width (c :: text) = c.utf8Size + width text := rfl

@[simp] theorem width_append (a b : Text) : width (a ++ b) = width a + width b := by
  induction a with
  | nil => simp
  | cons c a ih => simp [ih, Nat.add_assoc]

theorem split?_append (before after : Text) :
    split? (before ++ after) (width before) = some (before, after) := by
  induction before with
  | nil => cases after <;> rfl
  | cons c before ih =>
      have size_pos := c.utf8Size_pos
      obtain ⟨n, hn⟩ : ∃ n, width (c :: before) = n + 1 :=
        ⟨width (c :: before) - 1, by simp; omega⟩
      have fits : c.utf8Size ≤ n + 1 := by simp at hn; omega
      have left : n + 1 - c.utf8Size = width before := by simp at hn; omega
      rw [hn, List.cons_append, split?, if_pos fits, left, ih]
      rfl

theorem of_split? {text before after : Text} {offset : Nat}
    (h : split? text offset = some (before, after)) :
    text = before ++ after ∧ offset = width before := by
  fun_induction split? text offset generalizing before after with
  | case1 text =>
      obtain ⟨rfl, rfl⟩ : before = [] ∧ text = after := by simpa using h
      exact ⟨rfl, rfl⟩
  | case2 => simp at h
  | case3 c text offset fits ih =>
      obtain ⟨⟨b, a⟩, cut, same⟩ := Option.map_eq_some_iff.1 h
      simp only [Prod.mk.injEq] at same
      obtain ⟨rfl, rfl⟩ := same
      obtain ⟨rfl, left⟩ := ih cut
      simp only [List.cons_append, width_cons, true_and]
      omega
  | case4 => simp at h

theorem split?_eq_some_iff {text before after : Text} {offset : Nat} :
    split? text offset = some (before, after) ↔
      text = before ++ after ∧ offset = width before :=
  ⟨of_split?, fun ⟨whole, at_end⟩ => by
    subst whole; subst at_end; exact split?_append before after⟩

end Text

end ParseTree
