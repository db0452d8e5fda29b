import Mathlib

/-!
# Partial transition systems

A system is a function `step` that is undefined (`none`) where an action is not enabled. `run`
executes a list of actions; `Reachable` is the set of states of the runs whose actions all meet a
side condition `allowed`, with the induction rule that carries an invariant through such runs.
-/

namespace Gfs.Lib.Transition

variable {σ α : Type*}

def run (step : σ → α → Option σ) : σ → List α → Option σ
  | state, [] => some state
  | state, action :: rest => (step state action).bind fun next => run step next rest

/-- Every action of the list meets `allowed` in the state it is taken in. -/
def Meets (step : σ → α → Option σ) (allowed : σ → α → Prop) : σ → List α → Prop
  | _, [] => True
  | state, action :: rest =>
      allowed state action ∧ ∀ next, step state action = some next → Meets step allowed next rest

instance Meets.decidable (step : σ → α → Option σ) (allowed : σ → α → Prop)
    [∀ state action, Decidable (allowed state action)] :
    ∀ state actions, Decidable (Meets step allowed state actions)
  | _, [] => isTrue trivial
  | state, action :: rest =>
      match h : step state action with
      | none => decidable_of_iff (allowed state action) (by simp [Meets, h])
      | some next =>
          have := Meets.decidable step allowed next rest
          decidable_of_iff (allowed state action ∧ Meets step allowed next rest) (by
            simp [Meets, h])

inductive Reachable (step : σ → α → Option σ) (initial : σ → Prop) (allowed : σ → α → Prop) :
    σ → Prop
  | init {state : σ} : initial state → Reachable step initial allowed state
  | next {state after : σ} {action : α} : Reachable step initial allowed state →
      allowed state action → step state action = some after →
      Reachable step initial allowed after

section
variable {step : σ → α → Option σ} {initial : σ → Prop} {allowed : σ → α → Prop}

theorem Reachable.run {state after : σ} {actions : List α}
    (reachable : Reachable step initial allowed state)
    (meets : Meets step allowed state actions) (ran : run step state actions = some after) :
    Reachable step initial allowed after := by
  induction actions generalizing state with
  | nil => cases ran; exact reachable
  | cons action rest ih =>
      obtain ⟨middle, taken, ran⟩ := Option.bind_eq_some_iff.mp ran
      exact ih (reachable.next meets.1 taken) (meets.2 middle taken) ran

theorem reachable_run {state after : σ} {actions : List α} (start : initial state)
    (meets : Meets step allowed state actions)
    (ran : Transition.run step state actions = some after) :
    Reachable step initial allowed after :=
  (Reachable.init start).run meets ran

theorem meets_of_forall {state : σ} {actions : List α}
    (all : ∀ state, ∀ action ∈ actions, allowed state action) : Meets step allowed state actions := by
  induction actions generalizing state with
  | nil => trivial
  | cons action rest ih =>
      exact ⟨all state action List.mem_cons_self,
        fun _ _ => ih fun state later member => all state later (List.mem_cons_of_mem _ member)⟩

/-- A run whose steps all lower the measure is no longer than the measure. -/
theorem length_add_le_of_run (size : σ → Nat) {inv : σ → Prop}
    (lowers : ∀ state action after, inv state → allowed state action →
      step state action = some after → inv after ∧ size after < size state)
    {state after : σ} {actions : List α} (start : inv state) (meets : Meets step allowed state actions)
    (ran : run step state actions = some after) : actions.length + size after ≤ size state := by
  induction actions generalizing state with
  | nil => cases ran; exact Nat.le_of_eq (Nat.zero_add _)
  | cons action rest ih =>
      obtain ⟨middle, taken, ran⟩ := Option.bind_eq_some_iff.mp ran
      obtain ⟨kept, lower⟩ := lowers state action middle start meets.1 taken
      have bound := ih kept (meets.2 middle taken) ran
      rw [List.length_cons]
      omega

theorem reachable_run_true {state after : σ} {actions : List α} (start : initial state)
    (ran : Transition.run step state actions = some after) :
    Reachable step initial (fun _ _ => True) after :=
  reachable_run start (meets_of_forall fun _ _ _ => trivial) ran

theorem Reachable.mono {allowed' : σ → α → Prop} {state : σ}
    (weaker : ∀ state action, allowed state action → allowed' state action)
    (reachable : Reachable step initial allowed state) :
    Reachable step initial allowed' state := by
  induction reachable with
  | init start => exact .init start
  | next _ ok taken ih => exact ih.next (weaker _ _ ok) taken

/-- The invariant rule. -/
theorem Reachable.invariant {inv : σ → Prop} (base : ∀ state, initial state → inv state)
    (preserved : ∀ state action after, inv state → allowed state action →
      step state action = some after → inv after)
    {state : σ} (reachable : Reachable step initial allowed state) : inv state := by
  induction reachable with
  | init start => exact base _ start
  | next _ ok taken ih => exact preserved _ _ _ ih ok taken

/-- The invariant rule over an invariant that is already known of the reachable states. -/
theorem Reachable.invariant_over {known inv : σ → Prop}
    (sure : ∀ state, Reachable step initial allowed state → known state)
    (base : ∀ state, initial state → inv state)
    (preserved : ∀ state action after, known state → inv state → allowed state action →
      step state action = some after → inv after)
    {state : σ} (reachable : Reachable step initial allowed state) : inv state := by
  induction reachable with
  | init start => exact base _ start
  | next before ok taken ih => exact preserved _ _ _ (sure _ before) ih ok taken

end

end Gfs.Lib.Transition
