import Mathlib.Data.List.Basic
import ParseTree.Visit

/-!
# What happens in a visit

At every node a visit follows a program.  Where no wrap hook takes over, it is to fire the
visit hook and to proceed; where one does, it is the program of that hook, in independent
mode behind the visit hook.

The result of a visit is what its hooks log.  Its trace tells more: which nodes are entered
and which visit hooks fire there.  The trace is itself the result of a visit, by hooks that
follow the same programs and say what they do; the result of the first visit is what is
left of it when only the logs are kept.
-/

namespace ParseTree.Visit

namespace Action

def isProceed : Action ε → Bool
  | .proceed => true
  | .visit | .log _ => false

def isVisit : Action ε → Bool
  | .visit => true
  | .proceed | .log _ => false

def map (f : ε → β) : Action ε → Action β
  | .proceed => .proceed
  | .visit => .visit
  | .log event => .log (f event)

def perform (proceed visit : List β) (log : ε → List β) : Action ε → List β
  | .proceed => proceed
  | .visit => visit
  | .log event => log event

theorem perform_map (f : ε → γ) (proceed visit : List β) (log : γ → List β) (action : Action ε) :
    (action.map f).perform proceed visit log =
      action.perform proceed visit fun event => log (f event) := by
  cases action <;> rfl

theorem flatMap_perform (f : β → List γ) (actions : List (Action ε)) (proceed visit : List β)
    (log : ε → List β) :
    (actions.flatMap (perform proceed visit log)).flatMap f =
      actions.flatMap (perform (proceed.flatMap f) (visit.flatMap f)
        fun event => (log event).flatMap f) := by
  rw [List.flatMap_assoc]
  congr 1
  funext action
  cases action <;> rfl

end Action

inductive Occurrence (ε : Type) where
  | entered (node : Nat)
  | fired (hook : VisitHook ε) (node : Nat)
  | logged (event : ε)

def Occurrence.events : Occurrence ε → List ε
  | .entered _ => []
  | .fired hook node => hook node
  | .logged event => [event]

namespace Hooks

/-- What is done at a node, whether or not a wrap hook takes over there. -/
def program (h : Hooks ε) (a : Arena) (mode : Dispatch) (id : Nat) : List (Action ε) :=
  match h.wraps.hook? (a.label id).kind with
  | none => [.visit, .proceed]
  | some wrap => (if mode = .independent then [.visit] else []) ++ wrap id

theorem walkAll_eq_flatMap (h : Hooks ε) (a : Arena) (mode : Dispatch) (ts : List (Rose Nat)) :
    h.walkAll a mode ts = ts.flatMap (h.walk a mode) := by
  induction ts with
  | nil => rfl
  | cons t ts ih => rw [walkAll, ih, List.flatMap_cons]

theorem run_eq (h : Hooks ε) (a : Arena) (mode : Dispatch) (id : Nat) :
    h.run a mode id = (h.program a mode id).flatMap
      (Action.perform ((a.children id).flatMap (h.run a mode)) (h.fire a id)
        fun event => [event]) := by
  have children : h.walkAll a mode ((a.children id).map a.outline) =
      (a.children id).flatMap (h.run a mode) := by
    rw [walkAll_eq_flatMap, List.flatMap_map]
    rfl
  rw [run, Arena.outline_eq, walk, program, children]
  cases h.wraps.hook? (a.label id).kind with
  | none => simp [Action.perform]
  | some wrap =>
      dsimp only
      rw [List.flatMap_append]
      congr 1
      split <;> simp [Action.perform]

def firing (h : Hooks ε) (a : Arena) (id : Nat) : List (Occurrence ε) :=
  match h.visits.hook? (a.label id).kind with
  | none => []
  | some hook => [.fired hook id]

/-- Hooks that follow the same programs as `h` and say what they do. -/
def observed (h : Hooks ε) (a : Arena) (mode : Dispatch) : Hooks (Occurrence ε) where
  visits := { general := some (h.firing a) }
  wraps :=
    { general := some fun id =>
        .log (.entered id) :: (h.program a mode id).map (Action.map .logged) }

def trace (h : Hooks ε) (a : Arena) (mode : Dispatch) (id : Nat) : List (Occurrence ε) :=
  (h.observed a mode).run a .wrapSupersedes id

theorem trace_eq (h : Hooks ε) (a : Arena) (mode : Dispatch) (id : Nat) :
    h.trace a mode id = .entered id :: (h.program a mode id).flatMap
      (Action.perform ((a.children id).flatMap (h.trace a mode)) (h.firing a id)
        fun event => [.logged event]) := by
  have followed : (h.observed a mode).program a .wrapSupersedes id =
      .log (.entered id) :: (h.program a mode id).map (Action.map .logged) := rfl
  have fires : (h.observed a mode).fire a id = h.firing a id := rfl
  rw [trace, run_eq, followed, fires, List.flatMap_cons, List.flatMap_map]
  simp only [Action.perform_map]
  rfl

theorem events_firing (h : Hooks ε) (a : Arena) (id : Nat) :
    (h.firing a id).flatMap Occurrence.events = h.fire a id := by
  unfold firing fire
  cases h.visits.hook? (a.label id).kind <;> simp [Occurrence.events]

theorem run_eq_events (h : Hooks ε) (a : Arena) (mode : Dispatch) (id : Nat) :
    h.run a mode id = (h.trace a mode id).flatMap Occurrence.events := by
  induction id using Arena.children_induction (a := a) with
  | step id ih =>
      have below : (a.children id).flatMap (h.run a mode) =
          ((a.children id).flatMap (h.trace a mode)).flatMap Occurrence.events := by
        rw [List.flatMap_assoc]
        exact List.flatMap_congr ih
      rw [run_eq, trace_eq, List.flatMap_cons, Action.flatMap_perform, below, events_firing]
      simp [Occurrence.events]

end Hooks

end ParseTree.Visit
