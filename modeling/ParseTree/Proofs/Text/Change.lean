import Mathlib.Data.List.Infix
import ParseTree.Proofs.Text.Boundary
import ParseTree.Proofs.Text.Position

/-!
# Replacements, and the smallest one between two texts

A document accepts a replacement exactly if its range cuts the text in three, and
then it exchanges the middle part.

The change between two texts is found by comparing bytes.  Different characters may
agree in some of their bytes, at either end; but a boundary of both texts up to which
the bytes agree ends a head that the texts share, since no two texts have the same
bytes.  So the change keeps the longest shared head, and then the longest tail shared
by what remains.

Nothing that leads from the one text to the other deletes or inserts fewer bytes.
The head is kept at the expense of the tail, but this costs nothing: a longer tail
overlaps the head in one of the texts, and then that text has no bytes left to delete
or to insert.
-/

namespace ParseTree

namespace Text

theorem eq_nil_of_width_eq_zero {text : Text} (h : text.width = 0) : text = [] := by
  by_contra nonempty
  have size := width_pos nonempty
  omega

theorem exists_between_cuts {before rest head after : Text} (h : before ++ rest = head ++ after)
    (le : before.width ≤ head.width) :
    ∃ middle, head = before ++ middle ∧ rest = middle ++ after := by
  rcases List.append_eq_append_iff.1 h with ⟨middle, whole, behind⟩ | ⟨more, rfl, rfl⟩
  · exact ⟨middle, whole, behind⟩
  · have none : more = [] := by
      apply eq_nil_of_width_eq_zero
      simp only [width_append] at le
      omega
    subst none
    exact ⟨[], by simp, by simp⟩

theorem isBoundary_cuts (before middle after : Text) :
    (before ++ middle ++ after).isBoundary before.width = true ∧
      (before ++ middle ++ after).isBoundary (before.width + middle.width) = true := by
  constructor
  · rw [List.append_assoc]
    exact isBoundary_append _ _
  · rw [← width_append]
    exact isBoundary_append _ _

end Text

namespace Document

theorem check_append (before body after : Text) :
    check ⟨before ++ body ++ after⟩ ⟨before.width, before.width + body.width⟩ = .ok () :=
  check_eq_ok_iff.2 ⟨Nat.le_add_right _ _, Text.isBoundary_cuts before body after⟩

theorem replace_append (before deleted after replacement : Text) :
    replace ⟨before ++ deleted ++ after⟩ ⟨before.width, before.width + deleted.width⟩
        replacement =
      .ok (⟨before ++ replacement ++ after⟩,
        Change.record (before ++ deleted ++ after)
          ⟨before.width, before.width + deleted.width⟩ replacement) := by
  have start : (before ++ deleted ++ after).split? before.width =
      some (before, deleted ++ after) := by
    rw [List.append_assoc]
    exact Text.split?_append _ _
  have stop : (before ++ deleted ++ after).split? (before.width + deleted.width) =
      some (before ++ deleted, after) := by
    rw [← Text.width_append]
    exact Text.split?_append _ _
  rw [replace, check_append, Text.splice?, start, stop]
  rfl

theorem replace_eq_ok_iff {d d' : Document} {range : ByteRange} {replacement : Text}
    {change : Change} :
    d.replace range replacement = .ok (d', change) ↔
      ∃ before deleted after, d.text = before ++ deleted ++ after ∧
        range = ⟨before.width, before.width + deleted.width⟩ ∧
        d' = ⟨before ++ replacement ++ after⟩ ∧
        change = Change.record d.text range replacement := by
  constructor
  · intro replaced
    cases checked : d.check range with
    | error e =>
        rw [replace, checked] at replaced
        cases replaced
    | ok =>
        obtain ⟨ordered, start, stop⟩ := check_eq_ok_iff.1 checked
        obtain ⟨before, rest, cut, atStart⟩ := Text.isBoundary_iff.1 start
        obtain ⟨head, after, cut', atStop⟩ := Text.isBoundary_iff.1 stop
        obtain ⟨deleted, rfl, rfl⟩ :=
          Text.exists_between_cuts (cut.symm.trans cut') (by omega)
        obtain ⟨text⟩ := d
        obtain ⟨first, last⟩ := range
        simp only [Text.width_append] at cut atStart atStop
        subst atStart atStop
        have whole : text = before ++ deleted ++ after := by simp [cut]
        subst whole
        rw [replace_append] at replaced
        cases replaced
        exact ⟨before, deleted, after, rfl, rfl, rfl, rfl⟩
  · rintro ⟨before, deleted, after, whole, rfl, rfl, rfl⟩
    obtain ⟨text⟩ := d
    simp only at whole
    subst whole
    exact replace_append before deleted after replacement

end Document

/-! ## Shared heads and tails -/

namespace Text

def sharedHead : Text → Text → Text
  | a :: s, b :: t => if a = b then a :: sharedHead s t else []
  | _, _ => []

def sharedTail (s t : Text) : Text := (sharedHead s.reverse t.reverse).reverse

theorem prefix_sharedHead_iff {p s t : Text} :
    p <+: sharedHead s t ↔ p <+: s ∧ p <+: t := by
  fun_induction sharedHead s t generalizing p with
  | case1 a s t ih =>
      cases p with
      | nil => simp
      | cons b p =>
          simp only [List.cons_prefix_cons, ih]
          tauto
  | case2 a s b t different =>
      cases p with
      | nil => simp
      | cons c p =>
          simp only [List.cons_prefix_cons, List.prefix_nil, reduceCtorEq, false_iff]
          rintro ⟨⟨rfl, -⟩, rfl, -⟩
          exact different rfl
  | case3 s t other =>
      rw [List.prefix_nil]
      constructor
      · rintro rfl
        exact ⟨List.nil_prefix, List.nil_prefix⟩
      · rintro ⟨⟨s', rfl⟩, ⟨t', same⟩⟩
        cases p with
        | nil => rfl
        | cons a p => exact (other a (p ++ s') a (p ++ t') rfl same.symm).elim

theorem suffix_sharedTail_iff {p s t : Text} :
    p <:+ sharedTail s t ↔ p <:+ s ∧ p <:+ t := by
  rw [sharedTail, ← List.reverse_prefix, List.reverse_reverse, prefix_sharedHead_iff,
    List.reverse_prefix, List.reverse_prefix]

theorem exists_cuts (old new : Text) :
    ∃ head deleted inserted tail, old = head ++ deleted ++ tail ∧
      new = head ++ inserted ++ tail ∧
      (∀ p, p <+: old → p <+: new → p <+: head) ∧
      ∀ z, z <:+ deleted → z <:+ inserted → z = [] := by
  obtain ⟨⟨oldRest, inOld⟩, newRest, inNew⟩ :=
    prefix_sharedHead_iff.1 (List.prefix_refl (sharedHead old new))
  obtain ⟨⟨deleted, oldTail⟩, inserted, newTail⟩ :=
    suffix_sharedTail_iff.1 (List.suffix_refl (sharedTail oldRest newRest))
  refine ⟨sharedHead old new, deleted, inserted, sharedTail oldRest newRest, ?_, ?_, ?_, ?_⟩
  · rw [List.append_assoc, oldTail, inOld]
  · rw [List.append_assoc, newTail, inNew]
  · intro p first second
    exact prefix_sharedHead_iff.2 ⟨first, second⟩
  · rintro z ⟨x, rfl⟩ ⟨y, rfl⟩
    have longer : z ++ sharedTail oldRest newRest <:+ sharedTail oldRest newRest :=
      suffix_sharedTail_iff.2 ⟨⟨x, by rw [← List.append_assoc, oldTail]⟩,
        ⟨y, by rw [← List.append_assoc, newTail]⟩⟩
    have short := longer.length_le
    rw [List.length_append] at short
    exact List.eq_nil_of_length_eq_zero (by omega)

end Text

/-! ## Bytes that agree -/

namespace Text

theorem le_agreeing_take_iff {pairs : List (UInt8 × UInt8)} {most n : Nat} :
    n ≤ agreeing (pairs.take most) ↔ n ≤ most ∧ n ≤ agreeing pairs := by
  induction n generalizing pairs most with
  | zero => simp
  | succ n ih =>
      cases pairs with
      | nil => simp [agreeing]
      | cons pair pairs =>
          cases most with
          | zero => simp [agreeing]
          | succ most =>
              by_cases same : pair.1 = pair.2
              · have step := @ih pairs most
                simp only [agreeing] at step
                simpa [agreeing, same] using step
              · simp [agreeing, same]

theorem le_agreeing_zip_iff {s t : List UInt8} {n : Nat} :
    n ≤ agreeing (s.zip t) ↔ n ≤ s.length ∧ n ≤ t.length ∧ s.take n = t.take n := by
  induction n generalizing s t with
  | zero => simp
  | succ n ih =>
      cases s with
      | nil => simp [agreeing]
      | cons a s =>
          cases t with
          | nil => simp [agreeing]
          | cons b t =>
              by_cases same : a = b
              · have step := @ih s t
                simp only [agreeing] at step
                simpa [agreeing, same] using step
              · simp [agreeing, same]

theorem roundDown_eq {allowed : Nat → Bool} {most n : Nat} (le : n ≤ most)
    (here : allowed n = true) (above : ∀ m, n < m → m ≤ most → allowed m = true → False) :
    roundDown allowed most = n := by
  induction most with
  | zero => exact (Nat.le_zero.1 le).symm
  | succ most ih =>
      rw [roundDown]
      split
      · rename_i reached
        rcases Nat.lt_or_ge n (most + 1) with below | whole
        · exact (above _ below (Nat.le_refl _) reached).elim
        · exact Nat.le_antisymm whole le
      · rename_i missed
        have below : n ≤ most := by
          rcases Nat.lt_or_ge most n with last | below
          · obtain rfl : n = most + 1 := Nat.le_antisymm le last
            exact (missed here).elim
          · exact below
        exact ih below fun m larger bounded => above m larger (Nat.le_succ_of_le bounded)

theorem suffix_of_width_le {z w text : Text} (inText : z <:+ text) (inText' : w <:+ text)
    (le : z.width ≤ w.width) : z <:+ w := by
  rcases List.suffix_or_suffix_of_suffix inText inText' with short | ⟨x, rfl⟩
  · exact short
  · rw [width_append] at le
    have empty : x = [] := eq_nil_of_width_eq_zero (by omega)
    rw [empty]
    exact List.suffix_refl _

theorem take_bytes_append (before after : Text) :
    (before ++ after).bytes.take before.width = before.bytes := by
  rw [bytes_append, ← length_bytes, List.take_left]

theorem take_reverse_bytes_append (before after : Text) :
    (before ++ after).bytes.reverse.take after.width = after.bytes.reverse := by
  rw [bytes_append, List.reverse_append, ← length_bytes, ← List.length_reverse, List.take_left]

theorem exists_prefix_of_agreeing {old new : Text} {n : Nat}
    (agree : n ≤ agreeing (old.bytes.zip new.bytes))
    (cut : (old.isBoundary n && new.isBoundary n) = true) :
    ∃ p : Text, p <+: old ∧ p <+: new ∧ p.width = n := by
  obtain ⟨first, second⟩ := Bool.and_eq_true_iff.1 cut
  obtain ⟨p, r, rfl, here⟩ := isBoundary_iff.1 first
  obtain ⟨q, r', rfl, there⟩ := isBoundary_iff.1 second
  obtain ⟨-, -, same⟩ := le_agreeing_zip_iff.1 agree
  have bytes : p.bytes = q.bytes := by
    rw [← take_bytes_append p r, ← take_bytes_append q r', ← here, ← there, same]
  obtain rfl := bytes_injective bytes
  exact ⟨p, List.prefix_append _ _, List.prefix_append _ _, here.symm⟩

theorem exists_suffix_of_agreeing {old new : Text} {n : Nat}
    (agree : n ≤ agreeing (old.bytes.reverse.zip new.bytes.reverse))
    (cut : (old.isBoundary (old.width - n) && new.isBoundary (new.width - n)) = true) :
    ∃ z : Text, z <:+ old ∧ z <:+ new ∧ z.width = n := by
  obtain ⟨inOld, inNew, same⟩ := le_agreeing_zip_iff.1 agree
  rw [List.length_reverse, length_bytes] at inOld inNew
  obtain ⟨first, second⟩ := Bool.and_eq_true_iff.1 cut
  obtain ⟨r, z, rfl, here⟩ := isBoundary_iff.1 first
  obtain ⟨r', w, rfl, there⟩ := isBoundary_iff.1 second
  have width : z.width = n := by
    rw [width_append] at here inOld
    omega
  have width' : w.width = n := by
    rw [width_append] at there inNew
    omega
  have bytes : z.bytes.reverse = w.bytes.reverse := by
    rw [← take_reverse_bytes_append r z, ← take_reverse_bytes_append r' w, width, width', same]
  obtain rfl := bytes_injective (List.reverse_inj.1 bytes)
  exact ⟨z, List.suffix_append _ _, List.suffix_append _ _, width⟩

theorem roundDown_head {head oldRest newRest : Text}
    (longest : ∀ p, p <+: head ++ oldRest → p <+: head ++ newRest → p <+: head) :
    let old := head ++ oldRest
    let new := head ++ newRest
    roundDown (fun n => old.isBoundary n && new.isBoundary n)
      (agreeing (old.bytes.zip new.bytes)) = head.width := by
  intro old new
  apply roundDown_eq
  · rw [le_agreeing_zip_iff, length_bytes, length_bytes, take_bytes_append, take_bytes_append]
    simp [old, new]
  · simp [old, new, isBoundary_append]
  · intro n larger agree cut
    obtain ⟨p, inOld, inNew, rfl⟩ := exists_prefix_of_agreeing agree cut
    obtain ⟨rest, rfl⟩ := longest p inOld inNew
    rw [width_append] at larger
    omega

theorem width_le_of_suffix {z head deleted inserted tail : Text}
    (inOld : z <:+ head ++ deleted ++ tail) (inNew : z <:+ head ++ inserted ++ tail)
    (apart : ∀ z, z <:+ deleted → z <:+ inserted → z = [])
    (fits : z.width ≤ deleted.width + tail.width)
    (fits' : z.width ≤ inserted.width + tail.width) : z.width ≤ tail.width := by
  by_contra longer
  obtain ⟨x, rfl⟩ : tail <:+ z :=
    suffix_of_width_le (List.suffix_append _ tail) inOld (by omega)
  -- the end goes beyond the tail but does not reach into the head
  have first : x ++ tail <:+ deleted ++ tail :=
    suffix_of_width_le inOld ⟨head, by simp⟩ (by rwa [width_append deleted])
  have second : x ++ tail <:+ inserted ++ tail :=
    suffix_of_width_le inNew ⟨head, by simp⟩ (by rwa [width_append inserted])
  rw [List.suffix_append_self_iff] at first second
  rw [apart x first second, List.nil_append] at longer
  exact longer (Nat.le_refl _)

theorem roundDown_tail {head deleted inserted tail : Text}
    (apart : ∀ z, z <:+ deleted → z <:+ inserted → z = []) :
    let old := head ++ deleted ++ tail
    let new := head ++ inserted ++ tail
    let pairs := old.bytes.reverse.zip new.bytes.reverse
    roundDown (fun n => old.isBoundary (old.width - n) && new.isBoundary (new.width - n))
      (agreeing (pairs.take (min old.width new.width - head.width))) = tail.width := by
  intro old new pairs
  have oldWidth : old.width = head.width + deleted.width + tail.width := by
    simp only [old, width_append]
  have newWidth : new.width = head.width + inserted.width + tail.width := by
    simp only [new, width_append]
  apply roundDown_eq
  · rw [le_agreeing_take_iff, le_agreeing_zip_iff, List.length_reverse, List.length_reverse,
      length_bytes, length_bytes, take_reverse_bytes_append, take_reverse_bytes_append]
    exact ⟨by omega, by omega, by omega, rfl⟩
  · have front : old.width - tail.width = (head ++ deleted).width := by
      rw [width_append]
      omega
    have front' : new.width - tail.width = (head ++ inserted).width := by
      rw [width_append]
      omega
    rw [front, front', isBoundary_append, isBoundary_append]
    rfl
  · intro n larger agree cut
    obtain ⟨bounded, agree⟩ := le_agreeing_take_iff.1 agree
    obtain ⟨z, inOld, inNew, rfl⟩ := exists_suffix_of_agreeing agree cut
    have short := width_le_of_suffix inOld inNew apart (by omega) (by omega)
    omega

end Text

namespace Change

theorem exists_between (old new : Text) :
    ∃ head deleted inserted tail, old = head ++ deleted ++ tail ∧
      new = head ++ inserted ++ tail ∧
      (∀ p, p <+: old → p <+: new → p <+: head) ∧
      (∀ z, z <:+ deleted → z <:+ inserted → z = []) ∧
      between old new = record old ⟨head.width, head.width + deleted.width⟩ inserted := by
  obtain ⟨head, deleted, inserted, tail, rfl, rfl, longest, apart⟩ := Text.exists_cuts old new
  refine ⟨head, deleted, inserted, tail, rfl, rfl, longest, apart, ?_⟩
  have front := @Text.roundDown_head head (deleted ++ tail) (inserted ++ tail)
    (by simpa only [List.append_assoc] using longest)
  have back := @Text.roundDown_tail head deleted inserted tail apart
  have stop : (head ++ deleted ++ tail).width - tail.width = head.width + deleted.width := by
    simp only [Text.width_append]
    omega
  have stop' : (head ++ inserted ++ tail).width - tail.width = head.width + inserted.width := by
    simp only [Text.width_append]
    omega
  dsimp only at front back
  rw [← List.append_assoc, ← List.append_assoc] at front
  rw [between, front, back, stop, stop', Text.slice?_append]
  rfl

/-- A text that ends two others ends what they exchange, unless one of these parts
is used up. -/
theorem eq_nil_of_suffix {z head deleted inserted : Text} (inOld : z <:+ head ++ deleted)
    (inNew : z <:+ head ++ inserted)
    (apart : ∀ z, z <:+ deleted → z <:+ inserted → z = []) :
    z = [] ∨ deleted = [] ∨ inserted = [] := by
  rcases List.suffix_or_suffix_of_suffix inOld (List.suffix_append _ deleted) with
    short | long <;>
  rcases List.suffix_or_suffix_of_suffix inNew (List.suffix_append _ inserted) with
    short' | long'
  · exact Or.inl (apart z short short')
  · exact Or.inr (Or.inr (apart inserted (long'.trans short) (List.suffix_refl _)))
  · exact Or.inr (Or.inl (apart deleted (List.suffix_refl _) (long.trans short')))
  · rcases List.suffix_or_suffix_of_suffix long long' with fewer | fewer
    · exact Or.inr (Or.inl (apart deleted (List.suffix_refl _) fewer))
    · exact Or.inr (Or.inr (apart inserted fewer (List.suffix_refl _)))

theorem le_of_cuts {head deleted inserted tail a x y b : Text}
    (old : head ++ deleted ++ tail = a ++ x ++ b) (new : head ++ inserted ++ tail = a ++ y ++ b)
    (first : a <+: head) (apart : ∀ z, z <:+ deleted → z <:+ inserted → z = []) :
    deleted.width ≤ x.width ∧ inserted.width ≤ y.width := by
  have oldWidth := congrArg Text.width old
  have newWidth := congrArg Text.width new
  have inOld : tail <:+ a ++ x ++ b := ⟨_, old⟩
  obtain ⟨more, rfl⟩ := first
  rcases List.suffix_or_suffix_of_suffix (List.suffix_append (a ++ x) b) inOld with
    ⟨z, rfl⟩ | ⟨z, rfl⟩
  · simp only [Text.width_append] at oldWidth newWidth
    omega
  · -- the other tail goes beyond ours, in both texts
    have endsOld : z <:+ a ++ more ++ deleted :=
      ⟨a ++ x, (List.append_left_inj tail).1 (by simpa using old.symm)⟩
    have endsNew : z <:+ a ++ more ++ inserted :=
      ⟨a ++ y, (List.append_left_inj tail).1 (by simpa using new.symm)⟩
    simp only [Text.width_append] at oldWidth newWidth
    rcases eq_nil_of_suffix endsOld endsNew apart with rfl | rfl | rfl <;>
      simp only [Text.width_nil] at oldWidth newWidth ⊢ <;> omega

/-- The change between two texts leads from the one to the other, and no
replacement that does so deletes or inserts fewer bytes.  Offsets are words, so the
new text has to be short enough for its offsets. -/
theorem between_minimal {old new : Text} (fits : new.width ≤ wordLimit) :
    let e := between old new
    (e.start ≤ e.oldEnd ∧ e.oldEnd ≤ old.width ∧ e.start ≤ e.newEnd ∧ e.newEnd ≤ new.width) ∧
    (old.isBoundary e.start = true ∧ old.isBoundary e.oldEnd = true ∧
      new.isBoundary e.start = true ∧ new.isBoundary e.newEnd = true) ∧
    (∃ before inserted after, old.slice? ⟨0, e.start⟩ = some before ∧
      new.slice? ⟨e.start, e.newEnd⟩ = some inserted ∧
      old.slice? ⟨e.oldEnd, old.width⟩ = some after ∧ before ++ inserted ++ after = new ∧
      Document.replace ⟨old⟩ ⟨e.start, e.oldEnd⟩ inserted = .ok (⟨new⟩, e)) ∧
    ∀ range replacement change,
      Document.replace ⟨old⟩ range replacement = .ok (⟨new⟩, change) →
      e.deletedWidth ≤ range.stop - range.start ∧ e.insertedWidth ≤ replacement.width := by
  obtain ⟨head, deleted, inserted, tail, rfl, rfl, longest, apart, changed⟩ :=
    exists_between old new
  have newEnd : addWord head.width inserted.width = head.width + inserted.width := by
    simp only [Text.width_append] at fits
    exact Nat.min_eq_left (by omega)
  rw [changed]
  simp only [deletedWidth, insertedWidth, record, newEnd, Nat.add_sub_cancel_left]
  have oldCuts := Text.isBoundary_cuts head deleted tail
  have newCuts := Text.isBoundary_cuts head inserted tail
  refine ⟨?_, ⟨oldCuts.1, oldCuts.2, newCuts.1, newCuts.2⟩,
    ⟨head, inserted, tail, ?_, Text.slice?_append _ _ _, ?_, rfl, ?_⟩, ?_⟩
  · simp only [Text.width_append]
    omega
  · simpa using Text.slice?_append [] head (deleted ++ tail)
  · simpa [Nat.add_assoc] using Text.slice?_append (head ++ deleted) tail []
  · rw [Document.replace_append, record, newEnd]
  · intro range replacement change other
    obtain ⟨before, gone, after, cut, rfl, result, -⟩ := Document.replace_eq_ok_iff.1 other
    have cut : head ++ deleted ++ tail = before ++ gone ++ after := cut
    have reached : head ++ inserted ++ tail = before ++ replacement ++ after :=
      congrArg Document.text result
    rw [Nat.add_sub_cancel_left]
    refine le_of_cuts cut reached (longest before ?_ ?_) apart
    · exact ⟨gone ++ after, by rw [cut, List.append_assoc]⟩
    · exact ⟨replacement ++ after, by rw [reached, List.append_assoc]⟩

/-- The two letters share their first byte, and the tail could take in either of
the last two. -/
theorem between_minimal_two_bytes :
    let old : Text := ['a', 'è', 'a', 'a']
    let new : Text := ['a', 'é', 'a']
    new.width ≤ wordLimit ∧
      Document.replace ⟨old⟩ ⟨1, 4⟩ ['é'] = .ok (⟨new⟩, between old new) ∧
      ∀ range replacement change,
        Document.replace ⟨old⟩ range replacement = .ok (⟨new⟩, change) →
        3 ≤ range.stop - range.start ∧ 2 ≤ replacement.width := by
  intro old new
  have fits : new.width ≤ wordLimit := by decide
  have found : (between old new).start = 1 ∧ (between old new).oldEnd = 4 ∧
      (between old new).newEnd = 3 := by decide +kernel
  obtain ⟨start, oldEnd, newEnd⟩ := found
  obtain ⟨-, -, ⟨_, inserted, _, -, part, -, -, replaced⟩, least⟩ :=
    @between_minimal old new fits
  rw [deletedWidth, insertedWidth, start, oldEnd, newEnd] at least
  rw [start, newEnd] at part
  rw [start, oldEnd] at replaced
  obtain rfl : ['é'] = inserted := Option.some.inj (Eq.trans (by decide +kernel) part)
  exact ⟨fits, replaced, least⟩

end Change

end ParseTree
