import ParseTree.Proofs.Visit.Trace

/-!
# One dispatch mode by the other

In independent mode the visit hook of a node fires before the wrap hook takes over.  In the
other mode the same is done if every wrap hook begins with a call for the visit hook.

For this it does not matter what hooks do.  It is shown for hooks that act in any monad, so
that they may keep a state and do something else the next time.  The hooks that log are
those that act on a log.
-/

namespace ParseTree.Visit

namespace Registry

def map (f : α → β) (r : Registry α) : Registry β where
  byKind := r.byKind.map fun (kind, hook) => (kind, f hook)
  general := r.general.map f

theorem hook?_map (f : α → β) (r : Registry α) (kind : String) :
    (r.map f).hook? kind = (r.hook? kind).map f := by
  have found : (r.byKind.map fun (kind, hook) => (kind, f hook)).lookup kind =
      (r.byKind.lookup kind).map f := by
    induction r.byKind with
    | nil => rfl
    | cons entry rest ih =>
        rw [List.map_cons, List.lookup_cons, List.lookup_cons, ih]
        split <;> rfl
  rw [hook?, hook?, map, found, Option.map_or]

theorem map_map (g : β → γ) (f : α → β) (r : Registry α) :
    (r.map f).map g = r.map fun hook => g (f hook) := by
  simp [map, Function.comp_def]

end Registry

/-! ## Hooks that act -/

/-- A wrap hook is given what it is to proceed and to visit at a node, and may do both
whenever it likes. -/
abbrev ActingWrap (m : Type → Type) := Nat → (proceed visit : m Unit) → m Unit

structure ActingHooks (m : Type → Type) where
  visits : Registry (Nat → m Unit) := {}
  wraps : Registry (ActingWrap m) := {}

section Acting

variable {m : Type → Type} [Monad m]

def ActingWrap.visitFirst (wrap : ActingWrap m) : ActingWrap m := fun id proceed visit => do
  visit
  wrap id proceed visit

namespace ActingHooks

def fire (h : ActingHooks m) (a : Arena) (id : Nat) : m Unit :=
  match h.visits.hook? (a.label id).kind with
  | none => pure ()
  | some hook => hook id

mutual

def walk (h : ActingHooks m) (a : Arena) (mode : Dispatch) : Rose Nat → m Unit
  | .node id children =>
      match h.wraps.hook? (a.label id).kind with
      | none => do
          h.fire a id
          walkAll h a mode children
      | some wrap => do
          if mode = .independent then h.fire a id
          wrap id (walkAll h a mode children) (h.fire a id)

def walkAll (h : ActingHooks m) (a : Arena) (mode : Dispatch) : List (Rose Nat) → m Unit
  | [] => pure ()
  | t :: ts => do
      walk h a mode t
      walkAll h a mode ts

end

def run (h : ActingHooks m) (a : Arena) (mode : Dispatch) (id : Nat) : m Unit :=
  h.walk a mode (a.outline id)

def visitFirst (h : ActingHooks m) : ActingHooks m :=
  { h with wraps := h.wraps.map ActingWrap.visitFirst }

mutual

theorem walk_visitFirst (h : ActingHooks m) (a : Arena) : ∀ t : Rose Nat,
    h.visitFirst.walk a .wrapSupersedes t = h.walk a .independent t
  | .node id ts => by
      have found : h.visitFirst.wraps.hook? (a.label id).kind =
          (h.wraps.hook? (a.label id).kind).map ActingWrap.visitFirst :=
        Registry.hook?_map _ _ _
      have fires : h.visitFirst.fire a id = h.fire a id := rfl
      rw [walk, walk, found, fires, walkAll_visitFirst h a ts]
      cases h.wraps.hook? (a.label id).kind with
      | none => rfl
      | some wrap => simp [ActingWrap.visitFirst]

theorem walkAll_visitFirst (h : ActingHooks m) (a : Arena) : ∀ ts : List (Rose Nat),
    h.visitFirst.walkAll a .wrapSupersedes ts = h.walkAll a .independent ts
  | [] => by rw [walkAll, walkAll]
  | t :: ts => by rw [walkAll, walkAll, walk_visitFirst h a t, walkAll_visitFirst h a ts]

end

end ActingHooks

end Acting

/-! ## Hooks that act on a log -/

def record (events : List ε) : StateM (List ε) Unit := modify (· ++ events)

theorem record_nil : record ([] : List ε) = pure () := by
  funext log
  exact congrArg (Prod.mk ()) (List.append_nil log)

theorem record_append (first second : List ε) :
    record (first ++ second) = record first >>= fun _ => record second := by
  funext log
  exact congrArg (Prod.mk ()) (List.append_assoc log first second).symm

theorem record_inj {first second : List ε} (same : record first = record second) :
    first = second :=
  congrArg Prod.snd (congrFun same [])

def Action.act (proceed visit : StateM (List ε) Unit) : Action ε → StateM (List ε) Unit
  | .proceed => proceed
  | .visit => visit
  | .log event => record [event]

def WrapHook.acting (wrap : WrapHook ε) : ActingWrap (StateM (List ε)) :=
  fun id proceed visit => (wrap id).forM (Action.act proceed visit)

def WrapHook.visitFirst (wrap : WrapHook ε) : WrapHook ε := fun id => .visit :: wrap id

theorem forM_act (proceed visit : List ε) (actions : List (Action ε)) :
    actions.forM (Action.act (record proceed) (record visit)) =
      record (actions.flatMap (Action.perform proceed visit fun event => [event])) := by
  induction actions with
  | nil => exact record_nil.symm
  | cons action actions ih =>
      rw [List.flatMap_cons, record_append, ← ih]
      cases action <;> rfl

namespace Hooks

def acting (h : Hooks ε) : ActingHooks (StateM (List ε)) where
  visits := h.visits.map fun hook id => record (hook id)
  wraps := h.wraps.map WrapHook.acting

def visitFirst (h : Hooks ε) : Hooks ε :=
  { h with wraps := h.wraps.map WrapHook.visitFirst }

theorem acting_visitFirst (h : Hooks ε) : h.visitFirst.acting = h.acting.visitFirst := by
  rw [acting, visitFirst, ActingHooks.visitFirst, acting, Registry.map_map, Registry.map_map]
  rfl

theorem fire_acting (h : Hooks ε) (a : Arena) (id : Nat) :
    h.acting.fire a id = record (h.fire a id) := by
  have found : h.acting.visits.hook? (a.label id).kind =
      (h.visits.hook? (a.label id).kind).map fun hook id => record (hook id) :=
    Registry.hook?_map _ _ _
  rw [ActingHooks.fire, fire, found]
  cases h.visits.hook? (a.label id).kind with
  | none => exact record_nil.symm
  | some hook => rfl

mutual

theorem walk_acting (h : Hooks ε) (a : Arena) (mode : Dispatch) : ∀ t : Rose Nat,
    h.acting.walk a mode t = record (h.walk a mode t)
  | .node id ts => by
      have found : h.acting.wraps.hook? (a.label id).kind =
          (h.wraps.hook? (a.label id).kind).map WrapHook.acting := Registry.hook?_map _ _ _
      rw [ActingHooks.walk, walk, found, fire_acting, walkAll_acting h a mode ts]
      cases h.wraps.hook? (a.label id).kind with
      | none => exact (record_append _ _).symm
      | some wrap =>
          have wrapped := forM_act (h.walkAll a mode ts) (h.fire a id) (wrap id)
          cases mode with
          | independent =>
              have whole := record_append (h.fire a id) ((wrap id).flatMap
                (Action.perform (h.walkAll a .independent ts) (h.fire a id) fun event => [event]))
              rw [← wrapped] at whole
              exact whole.symm
          | wrapSupersedes => exact wrapped

theorem walkAll_acting (h : Hooks ε) (a : Arena) (mode : Dispatch) : ∀ ts : List (Rose Nat),
    h.acting.walkAll a mode ts = record (h.walkAll a mode ts)
  | [] => by rw [ActingHooks.walkAll, walkAll, record_nil]
  | t :: ts => by
      rw [ActingHooks.walkAll, walkAll, record_append, walk_acting h a mode t,
        walkAll_acting h a mode ts]

end

theorem run_acting (h : Hooks ε) (a : Arena) (mode : Dispatch) (id : Nat) :
    h.acting.run a mode id = record (h.run a mode id) :=
  h.walk_acting a mode (a.outline id)

/-- A visit in independent mode does what a visit in the other mode does with hooks that
begin with a call for the visit hook, whatever the hooks do; in particular it logs the
same. -/
theorem run_independent {m : Type → Type} [Monad m] (g : ActingHooks m) (h : Hooks ε)
    (a : Arena) (start : Nat) :
    h.run a .independent start = h.visitFirst.run a .wrapSupersedes start ∧
    g.run a .independent start = g.visitFirst.run a .wrapSupersedes start ∧
    ∀ mode, h.acting.run a mode start = record (h.run a mode start) := by
  have same := h.acting.walk_visitFirst a (a.outline start)
  rw [← acting_visitFirst, walk_acting, walk_acting] at same
  exact ⟨(record_inj same).symm, (g.walk_visitFirst a (a.outline start)).symm,
    fun mode => h.run_acting a mode start⟩

end Hooks

end ParseTree.Visit
