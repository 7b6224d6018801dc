import Mathlib.Algebra.BigOperators.Group.List.Basic
import Mathlib.Algebra.BigOperators.Ring.List
import Mathlib.Algebra.Ring.Nat
import Mathlib.Data.List.Nodup
import ParseTree.Proofs.Arena.Descendants
import ParseTree.Proofs.Arith.Geometry
import ParseTree.Proofs.Visit.Trace

/-!
# How often a visit comes to a node

Each time that a node is entered, its children are visited as often as its program says
to proceed.  So the number of times that a node is entered is a product along the nodes
above it, and what its program does besides happens that many times.
-/

namespace ParseTree

namespace Arena

theorem children_of_size_le {a : Arena} {id : Nat} (outside : a.size ≤ id) :
    a.children id = [] := by
  rw [List.eq_nil_iff_forall_not_mem]
  intro child mem
  have later := lt_of_mem_children mem
  omega

end Arena

theorem Arith.nodup_descendants (text : Text) (id : Nat) :
    ((Arith.arena text).descendants id).Nodup := by
  by_cases inside : id < (Arith.arena text).size
  · have below : id ∈ (Arith.arena text).descendants 0 := by
      rw [descendants_arena]
      exact List.mem_range.2 inside
    have numbers : ((Arith.arena text).descendants 0).Nodup := by
      rw [descendants_arena]
      exact List.nodup_range
    exact numbers.sublist (Arena.descendants_infix below).sublist
  · rw [Arena.descendants_eq, Arena.children_of_size_le (by omega)]
    exact List.nodup_singleton id

namespace Visit

namespace Occurrence

def isEntry (node : Nat) : Occurrence ε → Bool
  | .entered id => id = node
  | .fired _ _ | .logged _ => false

def isFiring (node : Nat) : Occurrence ε → Bool
  | .fired _ id => id = node
  | .entered _ | .logged _ => false

end Occurrence

namespace Hooks

def descents (h : Hooks ε) (a : Arena) (id : Nat) : Nat :=
  match h.wraps.hook? (a.label id).kind with
  | none => 1
  | some wrap => (wrap id).countP Action.isProceed

def calls (h : Hooks ε) (a : Arena) (mode : Dispatch) (id : Nat) : Nat :=
  match h.wraps.hook? (a.label id).kind with
  | none => 1
  | some wrap => (if mode = .independent then 1 else 0) + (wrap id).countP Action.isVisit

/-- How often a visit from `top` enters a node: once for each way in which the nodes above
it proceed. -/
def entries (h : Hooks ε) (a : Arena) (top node : Nat) : Nat :=
  ((a.ancestors top node).map (h.descents a)).prod

variable {h : Hooks ε} {a : Arena} {mode : Dispatch} {P : Occurrence ε → Bool}

theorem countP_proceed_program (h : Hooks ε) (a : Arena) (mode : Dispatch) (id : Nat) :
    (h.program a mode id).countP Action.isProceed = h.descents a id := by
  unfold program descents
  cases h.wraps.hook? (a.label id).kind with
  | none => rfl
  | some wrap => cases mode <;> simp [Action.isProceed]

theorem countP_visit_program (h : Hooks ε) (a : Arena) (mode : Dispatch) (id : Nat) :
    (h.program a mode id).countP Action.isVisit = h.calls a mode id := by
  unfold program calls
  cases h.wraps.hook? (a.label id).kind with
  | none => rfl
  | some wrap => cases mode <;> simp [Action.isVisit, List.countP_cons, Nat.add_comm]

theorem countP_perform (silent : ∀ event, P (.logged event) = false)
    (actions : List (Action ε)) (proceed visit : List (Occurrence ε)) :
    (actions.flatMap (Action.perform proceed visit fun event => [.logged event])).countP P =
      actions.countP Action.isVisit * visit.countP P +
        actions.countP Action.isProceed * proceed.countP P := by
  induction actions with
  | nil => simp
  | cons action actions ih =>
      rw [List.flatMap_cons, List.countP_append, ih, List.countP_cons, List.countP_cons]
      cases action with
      | proceed => simp [Action.perform, Action.isProceed, Action.isVisit, Nat.add_mul]; omega
      | visit => simp [Action.perform, Action.isProceed, Action.isVisit, Nat.add_mul]; omega
      | log event => simp [Action.perform, Action.isProceed, Action.isVisit, silent]

def share (h : Hooks ε) (a : Arena) (mode : Dispatch) (P : Occurrence ε → Bool) (id : Nat) : Nat :=
  (if P (.entered id) then 1 else 0) + h.calls a mode id * (h.firing a id).countP P

theorem countP_trace_eq (silent : ∀ event, P (.logged event) = false) (id : Nat) :
    (h.trace a mode id).countP P = h.share a mode P id +
      h.descents a id * ((a.children id).map fun child => (h.trace a mode child).countP P).sum := by
  rw [trace_eq, List.countP_cons, countP_perform silent, countP_proceed_program,
    countP_visit_program, List.countP_flatMap, share]
  simp only [Function.comp_def]
  omega

theorem entries_self (h : Hooks ε) (a : Arena) (id : Nat) : h.entries a id id = 1 := by
  rw [entries, Arena.ancestors_self, List.map_nil, List.prod_nil]

theorem entries_of_child {id child node : Nat} (distinct : (a.descendants id).Nodup)
    (isChild : child ∈ a.children id) (below : node ∈ a.descendants child) :
    h.entries a id node = h.descents a id * h.entries a child node := by
  rw [entries, Arena.ancestors_of_child distinct isChild below, List.map_cons, List.prod_cons,
    entries]

theorem countP_trace (silent : ∀ event, P (.logged event) = false) {id : Nat}
    (distinct : (a.descendants id).Nodup) :
    (h.trace a mode id).countP P =
      ((a.descendants id).map fun node => h.entries a id node * h.share a mode P node).sum := by
  induction id using Arena.children_induction (a := a) with
  | step id ih =>
      have below : ∀ child ∈ a.children id,
          h.descents a id * (h.trace a mode child).countP P =
            ((a.descendants child).map fun node =>
              h.entries a id node * h.share a mode P node).sum := by
        intro child isChild
        rw [ih child isChild (Arena.nodup_descendants_child distinct isChild),
          ← List.sum_map_mul_left]
        congr 1
        apply List.map_congr_left
        intro node inside
        rw [entries_of_child distinct isChild inside, Nat.mul_assoc]
      rw [countP_trace_eq silent, Arena.descendants_eq, List.map_cons, List.sum_cons, entries_self,
        Nat.one_mul, List.map_flatMap, List.flatMap_def, List.sum_flatten, List.map_map,
        ← List.sum_map_mul_left]
      congr 2
      exact List.map_congr_left below

theorem countP_trace_single (silent : ∀ event, P (.logged event) = false) {id node : Nat}
    (distinct : (a.descendants id).Nodup)
    (single : ∀ other, other ≠ node → h.share a mode P other = 0) :
    (h.trace a mode id).countP P =
      if node ∈ a.descendants id then h.entries a id node * h.share a mode P node else 0 := by
  rw [countP_trace silent distinct, List.sum_map_eq_nsmul_single node]
  · split
    · rename_i below
      rw [List.count_eq_one_of_mem distinct below, one_nsmul]
    · rename_i outside
      rw [List.count_eq_zero_of_not_mem outside, zero_nsmul]
  · intro other different _
    rw [single other different, Nat.mul_zero]

theorem countP_firing_isEntry (h : Hooks ε) (a : Arena) (node id : Nat) :
    (h.firing a id).countP (Occurrence.isEntry node) = 0 := by
  unfold firing
  cases h.visits.hook? (a.label id).kind <;> simp [Occurrence.isEntry]

theorem countP_firing_isFiring (h : Hooks ε) (a : Arena) (node id : Nat) :
    (h.firing a id).countP (Occurrence.isFiring node) =
      if id = node ∧ (h.visits.hook? (a.label id).kind).isSome then 1 else 0 := by
  unfold firing
  cases h.visits.hook? (a.label id).kind <;> simp [Occurrence.isFiring, List.countP_cons]

theorem countP_isEntry_trace {id : Nat} (distinct : (a.descendants id).Nodup) (node : Nat) :
    (h.trace a mode id).countP (Occurrence.isEntry node) =
      if node ∈ a.descendants id then h.entries a id node else 0 := by
  have share : ∀ other, h.share a mode (Occurrence.isEntry node) other =
      if other = node then 1 else 0 := by
    intro other
    rw [Hooks.share, countP_firing_isEntry, Nat.mul_zero, Nat.add_zero]
    simp [Occurrence.isEntry]
  rw [countP_trace_single (fun _ => rfl) distinct fun other different => by
    rw [share, if_neg different], share, if_pos rfl, Nat.mul_one]

theorem countP_isFiring_trace {id : Nat} (distinct : (a.descendants id).Nodup) (node : Nat) :
    (h.trace a mode id).countP (Occurrence.isFiring node) =
      if node ∈ a.descendants id ∧ (h.visits.hook? (a.label node).kind).isSome then
        h.entries a id node * h.calls a mode node
      else 0 := by
  have share : ∀ other, h.share a mode (Occurrence.isFiring node) other =
      if other = node ∧ (h.visits.hook? (a.label other).kind).isSome then
        h.calls a mode other
      else 0 := by
    intro other
    rw [Hooks.share, countP_firing_isFiring]
    simp [Occurrence.isFiring]
  rw [countP_trace_single (fun _ => rfl) distinct fun other different => by
    rw [share, if_neg fun both => different both.1], share]
  by_cases below : node ∈ a.descendants id <;> simp [below]

theorem hook?_of_fired_mem_trace {id node : Nat} {hook : VisitHook ε}
    (mem : .fired hook node ∈ h.trace a mode id) :
    h.visits.hook? (a.label node).kind = some hook := by
  induction id using Arena.children_induction (a := a) with
  | step id ih =>
      rw [trace_eq] at mem
      rcases List.mem_cons.1 mem with here | inside
      · cases here
      · obtain ⟨action, -, done⟩ := List.mem_flatMap.1 inside
        cases action with
        | proceed =>
            obtain ⟨child, isChild, below⟩ := List.mem_flatMap.1 done
            exact ih child isChild below
        | visit =>
            unfold Action.perform firing at done
            cases found : h.visits.hook? (a.label id).kind with
            | none => simp [found] at done
            | some resolved =>
                obtain ⟨rfl, rfl⟩ : hook = resolved ∧ node = id := by simpa [found] using done
                exact found
        | log event => simp [Action.perform] at done

/-- How often the nodes of a visit from `start` are entered and their visit hooks fire. -/
structure Counted (h : Hooks ε) (a : Arena) (mode : Dispatch) (start : Nat) : Prop where
  entered : ∀ node ∈ a.descendants start,
    (h.trace a mode start).countP (Occurrence.isEntry node) =
      ((a.ancestors start node).map (h.descents a)).prod
  fired : ∀ node ∈ a.descendants start,
    (h.trace a mode start).countP (Occurrence.isFiring node) =
      if (h.visits.hook? (a.label node).kind).isSome then
        (h.trace a mode start).countP (Occurrence.isEntry node) * h.calls a mode node
      else 0
  resolved : ∀ hook node, .fired hook node ∈ h.trace a mode start →
    h.visits.hook? (a.label node).kind = some hook
  outside : ∀ node ∉ a.descendants start,
    (h.trace a mode start).countP (Occurrence.isEntry node) = 0 ∧
      (h.trace a mode start).countP (Occurrence.isFiring node) = 0

/-- In a visit of a parsed formula a node is entered once for each way in which the nodes
above it proceed, and for each entry its visit hook fires as often as it is called for.
Hooks for a kind come before those for nodes of any kind. -/
theorem counted_arena (h : Hooks ε) (text : Text) (mode : Dispatch) (start : Nat) :
    h.Counted (Arith.arena text) mode start ∧
    h.run (Arith.arena text) mode start =
      (h.trace (Arith.arena text) mode start).flatMap Occurrence.events ∧
    ∀ kind,
      (h.visits.hook? kind =
        match h.visits.byKind.lookup kind with
        | some hook => some hook
        | none => h.visits.general) ∧
      h.wraps.hook? kind =
        match h.wraps.byKind.lookup kind with
        | some hook => some hook
        | none => h.wraps.general := by
  have distinct := Arith.nodup_descendants text start
  refine ⟨⟨?_, ?_, ?_, ?_⟩, h.run_eq_events _ mode start, ?_⟩
  · intro node below
    rw [countP_isEntry_trace distinct, if_pos below, entries]
  · intro node below
    rw [countP_isFiring_trace distinct, countP_isEntry_trace distinct, if_pos below]
    simp only [below, true_and]
  · intro hook node
    exact hook?_of_fired_mem_trace
  · intro node outside
    rw [countP_isEntry_trace distinct, countP_isFiring_trace distinct, if_neg outside,
      if_neg fun both => outside both.1]
    exact ⟨rfl, rfl⟩
  · intro kind
    unfold Registry.hook?
    cases h.visits.byKind.lookup kind <;> cases h.wraps.byKind.lookup kind <;> exact ⟨rfl, rfl⟩

/-- The product proceeds twice, and so does the sum above it, which fires once between. -/
example :
    let h : Hooks Nat :=
      { visits := { general := some fun id => [id] }
        wraps :=
          { byKind := [("product", fun _ => [.proceed, .proceed])]
            general := some fun id => if id = 1 then [.proceed, .visit, .proceed] else [] } }
    let trace := h.trace (Arith.arena (Text.ofString "1+x*3")) .wrapSupersedes 1
    trace.countP (Occurrence.isFiring 1) = 1 ∧ trace.countP (Occurrence.isEntry 5) = 4 := by
  decide +kernel

end Hooks

end Visit

end ParseTree
