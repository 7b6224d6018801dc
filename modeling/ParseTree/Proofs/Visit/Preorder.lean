import ParseTree.Proofs.Arena.Descendants
import ParseTree.Proofs.Arith.Geometry
import ParseTree.Proofs.Visit.Trace

/-!
# Visits in pre-order

In independent mode a wrap hook that proceeds once and calls for no visit hook changes
nothing about the order in which visit hooks fire: they fire from each node to the next in
pre-order, as a walk with a stack would take them.
-/

namespace ParseTree.Visit

def Occurrence.firing? : Occurrence ε → Option (VisitHook ε × Nat)
  | .fired hook node => some (hook, node)
  | .entered _ | .logged _ => none

theorem Action.filterMap_perform {actions : List (Action ε)}
    (quiet : actions.countP isVisit = 0) (proceed visit : List (Occurrence ε)) :
    (actions.flatMap (perform proceed visit fun event => [.logged event])).filterMap
        Occurrence.firing? =
      (List.replicate (actions.countP isProceed)
        (proceed.filterMap Occurrence.firing?)).flatten := by
  induction actions with
  | nil => rfl
  | cons action actions ih =>
      rw [List.countP_cons] at quiet
      rw [List.flatMap_cons, List.filterMap_append, ih (by omega), List.countP_cons]
      cases action with
      | proceed => simp [perform, isProceed, List.replicate_succ]
      | visit => simp [isVisit] at quiet
      | log event => simp [perform, isProceed, Occurrence.firing?]

namespace Hooks

/-- Every wrap hook proceeds once and leaves the visit hook alone. -/
def Transparent (h : Hooks ε) : Prop :=
  ∀ kind wrap, h.wraps.hook? kind = some wrap → ∀ id,
    (wrap id).countP Action.isProceed = 1 ∧ (wrap id).countP Action.isVisit = 0

def resolved? (h : Hooks ε) (a : Arena) (id : Nat) : Option (VisitHook ε × Nat) :=
  (h.visits.hook? (a.label id).kind).map fun hook => (hook, id)

variable {h : Hooks ε} {a : Arena}

theorem exists_program_of_transparent (transparent : h.Transparent) (a : Arena) (id : Nat) :
    ∃ actions, h.program a .independent id = .visit :: actions ∧
      actions.countP Action.isProceed = 1 ∧ actions.countP Action.isVisit = 0 := by
  unfold program
  cases found : h.wraps.hook? (a.label id).kind with
  | none => exact ⟨[.proceed], rfl, rfl, rfl⟩
  | some wrap => exact ⟨wrap id, rfl, transparent _ wrap found id⟩

theorem filterMap_firing (h : Hooks ε) (a : Arena) (id : Nat) :
    (h.firing a id).filterMap Occurrence.firing? = (h.resolved? a id).toList := by
  unfold firing resolved?
  cases h.visits.hook? (a.label id).kind <;> rfl

theorem filterMap_trace_of_transparent (transparent : h.Transparent) (id : Nat) :
    (h.trace a .independent id).filterMap Occurrence.firing? =
      (a.descendants id).filterMap (h.resolved? a) := by
  induction id using Arena.children_induction (a := a) with
  | step id ih =>
      have below :
          ((a.children id).flatMap (h.trace a .independent)).filterMap Occurrence.firing? =
            ((a.children id).flatMap a.descendants).filterMap (h.resolved? a) := by
        rw [List.filterMap_flatMap, List.filterMap_flatMap]
        exact List.flatMap_congr ih
      obtain ⟨actions, program, once, quiet⟩ := exists_program_of_transparent transparent a id
      rw [trace_eq, program, List.flatMap_cons, Arena.descendants_eq, List.filterMap_cons_none rfl,
        List.filterMap_append, Action.filterMap_perform quiet, once, below, Action.perform,
        filterMap_firing, List.filterMap_cons]
      cases h.resolved? a id <;> simp

/-- With such wrap hooks the visit hooks fire in pre-order, at every node that has one.
That order is also the one in which a walk with a stack takes the nodes. -/
theorem firings_eq_descendants (transparent : h.Transparent) (a : Arena) (start : Nat) :
    (h.trace a .independent start).filterMap Occurrence.firing? =
      (a.descendants start).filterMap (h.resolved? a) ∧
    (∀ nodes, a.Yields [start] nodes ↔ nodes = a.descendants start) ∧
    h.run a .independent start =
      (h.trace a .independent start).flatMap Occurrence.events := by
  refine ⟨filterMap_trace_of_transparent transparent start, ?_, h.run_eq_events a _ start⟩
  intro nodes
  rw [Arena.yields_iff, List.flatMap_singleton]

/-- Sums log before and behind what is below them; the root and the operator have no hook. -/
theorem firings_eq_descendants_sum :
    let h : Hooks String :=
      { visits :=
          { byKind :=
              [("sum", fun id => ["sum " ++ toString id]),
               ("number", fun id => ["number " ++ toString id]),
               ("variable", fun id => ["variable " ++ toString id])] }
        wraps := { byKind := [("sum", fun _ => [.log "begins", .proceed, .log "ends"])] } }
    let a := Arith.arena (Text.ofString "1+x")
    h.Transparent ∧ a.descendants 0 = [0, 1, 2, 3, 4] ∧
      h.run a .independent 0 = ["sum 1", "begins", "number 2", "variable 4", "ends"] ∧
      (h.trace a .independent 0).filterMap Occurrence.firing? =
        (a.descendants 0).filterMap (h.resolved? a) := by
  intro h a
  have transparent : h.Transparent := by
    intro kind wrap found id
    simp only [h, Registry.hook?, List.lookup_cons, List.lookup_nil, Option.or_none] at found
    split at found
    · cases found
      exact ⟨rfl, rfl⟩
    · cases found
  exact ⟨transparent, by decide +kernel, by decide +kernel,
    (firings_eq_descendants transparent a 0).1⟩

end Hooks

end ParseTree.Visit
