import ParseTree.Arena.Describe
import ParseTree.Settings

/-!
# Visits

A visit walks a subtree and calls hooks.  A visit hook looks at a node; a wrap
hook takes over at a node and decides what happens there: it may proceed to the
children, fire the visit hook, or log events of its own, in any order and any
number of times.  Hooks are registered for one kind of node or for all; one for
the kind is preferred.  What the hooks log, in order, is the result.
-/

namespace ParseTree.Visit

inductive Action (ε : Type) where
  | proceed
  | visit
  | log (event : ε)
  deriving DecidableEq, Repr

abbrev VisitHook (ε : Type) := Nat → List ε

abbrev WrapHook (ε : Type) := Nat → List (Action ε)

structure Registry (α : Type) where
  byKind : List (String × α) := []
  general : Option α := none

namespace Registry

/-- A later registration replaces an earlier one for the same kind. -/
def register (r : Registry α) (kind : Option String) (hook : α) : Registry α :=
  match kind with
  | none => { r with general := some hook }
  | some kind => { r with byKind := (kind, hook) :: r.byKind.filter (·.1 != kind) }

def hook? (r : Registry α) (kind : String) : Option α := (r.byKind.lookup kind).or r.general

def kinds (r : Registry α) : List String :=
  (r.byKind.map (·.1)).mergeSort fun s t => !decide (t < s)

theorem hook?_register_kind (r : Registry α) (kind : String) (hook : α) :
    (r.register (some kind) hook).hook? kind = some hook := by
  simp [register, hook?]

end Registry

structure Hooks (ε : Type) where
  visits : Registry (VisitHook ε) := {}
  wraps : Registry (WrapHook ε) := {}

namespace Hooks

def fire (h : Hooks ε) (a : Arena) (id : Nat) : List ε :=
  match h.visits.hook? (a.label id).kind with
  | none => []
  | some hook => hook id

mutual

def walk (h : Hooks ε) (a : Arena) (mode : Dispatch) : Rose Nat → List ε
  | .node id children =>
      match h.wraps.hook? (a.label id).kind with
      | none => h.fire a id ++ walkAll h a mode children
      | some wrap =>
          (if mode = .independent then h.fire a id else []) ++
            (wrap id).flatMap fun
              | .proceed => walkAll h a mode children
              | .visit => h.fire a id
              | .log event => [event]

def walkAll (h : Hooks ε) (a : Arena) (mode : Dispatch) : List (Rose Nat) → List ε
  | [] => []
  | t :: ts => walk h a mode t ++ walkAll h a mode ts

end

def run (h : Hooks ε) (a : Arena) (mode : Dispatch) (id : Nat) : List ε :=
  h.walk a mode (a.outline id)

def describe (h : Hooks ε) (a : Arena) (source : Text) (settings : VisitSettings) (id : Nat) :
    String :=
  Quoted.record "Visitor"
    [("root", a.describeNode source id),
     ("config", Quoted.record "VisitorConfig" [("dispatch", settings.dispatch.title)]),
     ("on_kind", Quoted.list (h.visits.kinds.map Quoted.string)),
     ("on_any", toString h.visits.general.isSome),
     ("around_kind", Quoted.list (h.wraps.kinds.map Quoted.string)),
     ("around_any", toString h.wraps.general.isSome)]

end Hooks

def describeContinuation (a : Arena) (source : Text) (id : Nat) : String :=
  Quoted.openRecord "Continuation" [("node", a.describeNode source id)]

end ParseTree.Visit
