import Mathlib.Data.List.Chain
import ParseTree.Text.Scan

/-!
# How a scan goes on

Behind the characters that a rule takes, a scan goes on as if it began there; what
it cuts off starts at ever greater offsets, and depends on where the text begins by
these starts alone.  Joining neighbours removes some of the starts and adds none, keeps
whatever is not loose, and leaves no two loose neighbours.
-/

namespace ParseTree

theorem takeWhile_append_eq {p : Char → Bool} {body rest : Text} (all : ∀ c ∈ body, p c = true)
    (stops : ∀ c ∈ rest.head?, p c = false) : (body ++ rest).takeWhile p = body := by
  rw [List.takeWhile_append_of_pos all]
  cases rest with
  | nil => simp
  | cons c rest => rw [List.takeWhile_cons_of_neg (by simp [stops c rfl]), List.append_nil]

theorem takeWhile_append_cons {p : Char → Bool} {c : Char} (stops : p c = false)
    (text more : Text) : (text ++ c :: more).takeWhile p = text.takeWhile p := by
  induction text with
  | nil => rw [List.nil_append, List.takeWhile_cons_of_neg (by simp [stops]), List.takeWhile_nil]
  | cons d text ih =>
      rw [List.cons_append, List.takeWhile_cons, List.takeWhile_cons, ih]

theorem takeWhile_insert {p : Char → Bool} {body gap rest : Text}
    (stops : ∀ c ∈ gap, p c = false)
    (fits : ((body ++ rest).takeWhile p).length ≤ body.length) :
    (body ++ (gap ++ rest)).takeWhile p = (body ++ rest).takeWhile p := by
  cases gap with
  | nil => rfl
  | cons c gap =>
      rw [List.cons_append, takeWhile_append_cons (stops c List.mem_cons_self)]
      rw [List.takeWhile_append] at fits ⊢
      split
      · rename_i whole
        rw [if_pos whole, List.length_append] at fits
        have none : rest.takeWhile p = [] := List.length_eq_zero_iff.1 (by omega)
        rw [none, List.append_nil]
        exact (List.takeWhile_prefix p).eq_of_length whole
      · rfl

namespace Lexeme

theorem scanFrom_skip (rule : LexicalRule κ) (start skip : Nat) (text : Text) :
    scanFrom rule start skip text =
      scanFrom rule (start + Text.width (text.take skip)) 0 (text.drop skip) := by
  induction text generalizing start skip with
  | nil => simp [scanFrom]
  | cons c rest ih =>
      cases skip with
      | zero => simp
      | succ skip =>
          rw [scanFrom, ih, List.take_succ_cons, List.drop_succ_cons, Text.width_cons]
          congr 1
          omega

theorem scanFrom_cons {rule : LexicalRule κ} {c : Char} {rest : Text} {kind : κ} {more : Nat}
    (h : rule c rest = (kind, more)) (offset : Nat) :
    scanFrom rule offset 0 (c :: rest) =
      ⟨kind, offset, c :: rest.take more⟩ ::
        scanFrom rule (offset + Text.width (c :: rest.take more)) 0 (rest.drop more) := by
  rw [scanFrom, h]
  dsimp only
  rw [scanFrom_skip, Text.width_cons, Nat.add_assoc]

theorem scanFrom_append {rule : LexicalRule κ} {c : Char} {body rest : Text} {kind : κ}
    (h : rule c (body ++ rest) = (kind, body.length)) (offset : Nat) :
    scanFrom rule offset 0 (c :: (body ++ rest)) =
      ⟨kind, offset, c :: body⟩ ::
        scanFrom rule (offset + Text.width (c :: body)) 0 rest := by
  rw [scanFrom_cons h, List.take_left, List.drop_left]

theorem pairwise_start_scanFrom (rule : LexicalRule κ) (offset skip : Nat) (text : Text) :
    (∀ lexeme ∈ scanFrom rule offset skip text, offset ≤ lexeme.start) ∧
      (scanFrom rule offset skip text).Pairwise (·.start < ·.start) := by
  fun_induction scanFrom rule offset skip text with
  | case1 => simp
  | case2 offset skip c rest ih =>
      refine ⟨fun lexeme mem => ?_, ih.2⟩
      have behind := ih.1 lexeme mem
      omega
  | case3 offset c rest kind length _ ih =>
      have size := c.utf8Size_pos
      refine ⟨List.forall_mem_cons.2 ⟨Nat.le_refl _, fun lexeme mem => ?_⟩,
        List.pairwise_cons.2 ⟨fun lexeme mem => ?_, ih.2⟩⟩
      · have behind := ih.1 lexeme mem
        omega
      · have behind := ih.1 lexeme mem
        dsimp only
        omega

def moved (n : Nat) (l : Lexeme κ) : Lexeme κ := { l with start := l.start + n }

@[simp] theorem moved_zero : (moved 0 : Lexeme κ → Lexeme κ) = id := rfl

theorem scanFrom_moved (rule : LexicalRule κ) (n start skip : Nat) (text : Text) :
    scanFrom rule (start + n) skip text = (scanFrom rule start skip text).map (moved n) := by
  fun_induction scanFrom rule start skip text with
  | case1 => simp [scanFrom]
  | case2 start skip c rest ih =>
      rw [scanFrom, Nat.add_right_comm, ih]
  | case3 start c rest kind length same ih =>
      rw [scanFrom, same]
      dsimp only
      rw [Nat.add_right_comm, ih]
      rfl

end Lexeme

theorem coalesce_eq_self {loose : τ → Bool} {join : τ → τ → τ} {ts : List τ}
    (h : ∀ t ∈ ts, loose t = false) : coalesce loose join ts = ts := by
  induction ts with
  | nil => rfl
  | cons t ts ih =>
      rw [coalesce, ih fun u mem => h u (List.mem_cons_of_mem t mem)]
      cases ts with
      | nil => rfl
      | cons u us => simp [h t List.mem_cons_self]

theorem mem_coalesce {loose : τ → Bool} {join : τ → τ → τ} {ts : List τ} {t : τ} (mem : t ∈ ts)
    (solid : loose t = false) : t ∈ coalesce loose join ts := by
  induction ts with
  | nil => cases mem
  | cons u us ih =>
      rw [coalesce]
      split
      · rename_i none
        rcases List.mem_cons.1 mem with rfl | later
        · exact List.mem_cons_self
        · have found := ih later
          rw [none] at found
          cases found
      · rename_i v vs some
        rw [some] at ih
        split
        · rename_i both
          obtain ⟨looseU, looseV⟩ := Bool.and_eq_true_iff.1 both
          rcases List.mem_cons.1 mem with rfl | later
          · rw [solid] at looseU
            cases looseU
          · rcases List.mem_cons.1 (ih later) with rfl | behind
            · rw [solid] at looseV
              cases looseV
            · exact List.mem_cons_of_mem _ behind
        · rcases List.mem_cons.1 mem with rfl | later
          · exact List.mem_cons_self
          · exact List.mem_cons_of_mem _ (ih later)

theorem isChain_coalesce (loose : τ → Bool) (join : τ → τ → τ) (ts : List τ) :
    (coalesce loose join ts).IsChain fun t u => ¬ (loose t = true ∧ loose u = true) := by
  induction ts with
  | nil => exact .nil
  | cons t ts ih =>
      rw [coalesce]
      cases later : coalesce loose join ts with
      | nil => exact List.isChain_singleton t
      | cons u us =>
          rw [later] at ih
          obtain ⟨first, others⟩ := List.isChain_cons.1 ih
          dsimp only
          split
          · rename_i both
            obtain ⟨looseT, looseU⟩ := Bool.and_eq_true_iff.1 both
            refine List.isChain_cons.2 ⟨fun v next apart => ?_, others⟩
            exact first v next ⟨looseU, apart.2⟩
          · rename_i apart
            refine List.isChain_cons.2 ⟨?_, ih⟩
            rintro v ⟨⟩ both
            exact apart (Bool.and_eq_true_iff.2 both)

theorem map_coalesce {loose : τ → Bool} {join : τ → τ → τ} {loose' : α → Bool}
    {join' : α → α → α} {f : τ → α} (sameLoose : ∀ t, loose' (f t) = loose t)
    (sameJoin : ∀ t u, f (join t u) = join' (f t) (f u)) (ts : List τ) :
    (coalesce loose join ts).map f = coalesce loose' join' (ts.map f) := by
  induction ts with
  | nil => rfl
  | cons t ts ih =>
      rw [List.map_cons, coalesce, coalesce, ← ih]
      cases coalesce loose join ts with
      | nil => rfl
      | cons u us =>
          simp only [List.map_cons, sameLoose]
          split
          · rw [List.map_cons, sameJoin]
          · rfl

theorem loose_eq_false_of_coalesce {loose : τ → Bool} {join : τ → τ → τ}
    (kept : ∀ t u, loose t = true → loose (join t u) = true) {ts : List τ}
    (h : ∀ t ∈ coalesce loose join ts, loose t = false) : ∀ t ∈ ts, loose t = false := by
  induction ts with
  | nil => simp
  | cons t ts ih =>
      rw [coalesce] at h
      cases later : coalesce loose join ts with
      | nil =>
          rw [later] at h ih
          exact List.forall_mem_cons.2 ⟨h t List.mem_cons_self, ih (by simp)⟩
      | cons u us =>
          rw [later] at h ih
          dsimp only at h
          split at h
          · rename_i both
            have joined := h _ List.mem_cons_self
            rw [kept t u (Bool.and_eq_true_iff.1 both).1] at joined
            cases joined
          · obtain ⟨first, others⟩ := List.forall_mem_cons.1 h
            exact List.forall_mem_cons.2 ⟨first, ih others⟩

theorem coalesce_eq_of_solid {loose : τ → Bool} {join : τ → τ → τ}
    (kept : ∀ t u, loose t = true → loose (join t u) = true) {ts : List τ}
    (h : ∀ t ∈ coalesce loose join ts, loose t = false) : coalesce loose join ts = ts :=
  coalesce_eq_self (loose_eq_false_of_coalesce kept h)

theorem map_coalesce_sublist {loose : τ → Bool} {join : τ → τ → τ} {f : τ → α}
    (kept : ∀ t u, f (join t u) = f t) (ts : List τ) :
    ((coalesce loose join ts).map f).Sublist (ts.map f) := by
  induction ts with
  | nil => exact List.Sublist.slnil
  | cons t ts ih =>
      rw [coalesce]
      split
      · rename_i none
        rw [List.map_singleton, List.map_cons]
        exact (List.nil_sublist _).cons_cons _
      · rename_i u us same
        rw [same] at ih
        split
        · rw [List.map_cons, List.map_cons, kept]
          rw [List.map_cons] at ih
          exact ((List.sublist_cons_self _ _).trans ih).cons_cons _
        · exact ih.cons_cons _

end ParseTree
