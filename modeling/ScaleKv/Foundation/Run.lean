import Mathlib.Tactic.Common

namespace ScaleKv
namespace Foundation

universe u v

/-!
# Runs of a step function under a guard

A component is presented by a partial step function.  The action carries
every choice that the environment or the scheduler makes, so that the step
itself stays computable: `none` says that the action is not enabled.

The guard restricts the steps that a run may contain.  It is a condition on
the state before the step and on the action, never on the outcome.  Taking
the guard that admits everything gives the unrestricted system, hence one
reachability notion serves both the behaviour of the code as it stands and
the behaviour of the runs that keep a stated discipline.
-/

variable {State : Type u} {Action : Type v}

/-- The states that a system reaches from `start` when every step of the run
satisfies the guard in the state that precedes it. -/
inductive Reaches (step : State -> Action -> Option State) (guard : State -> Action -> Prop)
    (start : State) : State -> Prop
  | refl : Reaches step guard start start
  | tail {state next : State} {action : Action} :
      Reaches step guard start state -> guard state action ->
      step state action = some next -> Reaches step guard start next

/-- The guard of the unrestricted system. -/
def anyStep (_state : State) (_action : Action) : Prop := True

instance anyStepDecidable (state : State) (action : Action) :
    Decidable (anyStep state action) :=
  isTrue trivial

namespace Reaches

variable {step : State -> Action -> Option State} {guard : State -> Action -> Prop}
variable {start final : State}

/-- The induction that every safety argument uses: a property of the start
that no admitted step destroys holds in every state reached. -/
theorem invariant {property : State -> Prop} (initially : property start)
    (preserved : ∀ state action next, property state -> guard state action ->
      step state action = some next -> property next)
    (reached : Reaches step guard start final) : property final := by
  induction reached with
  | refl => exact initially
  | tail _ admitted taken ih =>
    exact preserved _ _ _ ih admitted taken

theorem single {next : State} {action : Action} (admitted : guard start action)
    (taken : step start action = some next) : Reaches step guard start next :=
  .tail .refl admitted taken

theorem trans {middle : State} (first : Reaches step guard start middle)
    (second : Reaches step guard middle final) : Reaches step guard start final := by
  induction second with
  | refl => exact first
  | tail _ admitted taken ih => exact .tail ih admitted taken

theorem unrestricted (reached : Reaches step guard start final) : Reaches step anyStep start final := by
  induction reached with
  | refl => exact .refl
  | tail _ _ taken ih => exact .tail ih trivial taken

/-- A view that can follow every step can follow every run. -/
theorem project {View : Type u} {Move : Type v} {viewStep : View -> Move -> Option View}
    {view : State -> View} (follows : ∀ state action next, guard state action ->
      step state action = some next -> Reaches viewStep anyStep (view state) (view next))
    (reached : Reaches step guard start final) :
    Reaches viewStep anyStep (view start) (view final) := by
  induction reached with
  | refl => exact .refl
  | tail _ admitted taken ih => exact ih.trans (follows _ _ _ admitted taken)

end Reaches

/-- A system together with a value that every step brings up to date. -/
def alongside {Extra : Type u} (step : State -> Action -> Option State)
    (update : State -> Action -> Extra -> Extra) (pair : State × Extra) (action : Action) :
    Option (State × Extra) :=
  (step pair.1 action).map (fun next => (next, update pair.1 action pair.2))

theorem Reaches.forget {Extra : Type u} {step : State -> Action -> Option State}
    {update : State -> Action -> Extra -> Extra} {guard : State -> Action -> Prop}
    {both : State × Extra -> Action -> Prop} {start final : State × Extra}
    (weaker : ∀ pair action, both pair action -> guard pair.1 action)
    (reached : Reaches (alongside step update) both start final) :
    Reaches step guard start.1 final.1 := by
  induction reached with
  | refl => exact .refl
  | tail _ admitted taken ih =>
    rcases Option.map_eq_some_iff.mp taken with ⟨_, stepped, rfl⟩
    exact .tail ih (weaker _ _ admitted) stepped

/-- Execute a list of actions, refusing the first one that is not enabled or
not admitted.  This is the executable counterpart of `Reaches`. -/
def runGuarded (step : State -> Action -> Option State) (guard : State -> Action -> Prop)
    [∀ state action, Decidable (guard state action)] (start : State) :
    List Action -> Option State
  | [] => some start
  | action :: rest =>
    if guard start action then
      match step start action with
      | some next => runGuarded step guard next rest
      | none => none
    else none

theorem reaches_of_runGuarded {step : State -> Action -> Option State}
    {guard : State -> Action -> Prop} [∀ state action, Decidable (guard state action)]
    {start final : State} {actions : List Action}
    (executed : runGuarded step guard start actions = some final) :
    Reaches step guard start final := by
  induction actions generalizing start with
  | nil =>
    cases executed
    exact .refl
  | cons _ _ ih =>
    unfold runGuarded at executed
    split at executed
    · next admitted =>
      split at executed
      · next _ taken =>
        exact (Reaches.single admitted taken).trans (ih executed)
      · cases executed
    · cases executed

variable {step : State -> Action -> Option State} {guard : State -> Action -> Prop} {start : State}
  {actions : List Action}

/-- Evaluating a test on the final state of an executed run. -/
theorem exists_reaches_of_runGuarded [∀ state action, Decidable (guard state action)]
    {test : State -> Bool} (passed : (runGuarded step guard start actions).any test = true) :
    ∃ final, Reaches step guard start final ∧ test final = true := by
  obtain ⟨final, executed, holds⟩ := (Option.any_eq_true _ _).mp passed
  exact ⟨final, reaches_of_runGuarded executed, holds⟩

theorem exists_reaches_of_decide [∀ state action, Decidable (guard state action)]
    {property : State -> Prop} [DecidablePred property]
    (passed : (runGuarded step guard start actions).any (fun final => property final) = true) :
    ∃ final, Reaches step guard start final ∧ property final := by
  rcases exists_reaches_of_runGuarded passed with ⟨final, reached, holds⟩
  exact ⟨final, reached, of_decide_eq_true holds⟩

theorem exists_reaches_with [∀ state action, Decidable (guard state action)]
    {property general : State -> Prop} [DecidablePred property] (actions : List Action)
    (holds : ∀ final, Reaches step guard start final -> general final)
    (passed : (runGuarded step guard start actions).any (fun final => property final) = true) :
    ∃ final, Reaches step guard start final ∧ property final ∧ general final := by
  rcases exists_reaches_of_decide passed with ⟨final, reached, observed⟩
  exact ⟨final, reached, observed, holds final reached⟩

end Foundation
end ScaleKv
