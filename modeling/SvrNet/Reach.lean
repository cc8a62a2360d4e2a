import Mathlib.Data.List.Basic
import Mathlib.Data.List.Induction
import Mathlib.Logic.Relation

namespace StepSystem

variable {State Label : Type}

/-- The states visited by runs from `first` in which every step was taken with a label and
from a state that `guard` allows. A run without restriction has the guard that is always true. -/
inductive Reach (step : Label → State → Option State) (guard : Label → State → Prop)
    (first : State) : State → Prop
  | start : Reach step guard first first
  | next {before after label} : Reach step guard first before → guard label before →
      step label before = some after → Reach step guard first after

/-- The guard of an unrestricted run. -/
def anyStep (_ : Label) (_ : State) : Prop := True

/-- Executing a list of labels one after the other. -/
def exec (step : Label → State → Option State) : List Label → State → Option State
  | [], state => some state
  | label :: labels, state => (step label state).bind (exec step labels)

variable {step : Label → State → Option State} {guard : Label → State → Prop}
  {first before after : State}

/-- An invariant holds at the start and is preserved by every guarded step. -/
theorem Reach.invariant {P : State → Prop} (reach : Reach step guard first after)
    (atStart : P first)
    (preserved : ∀ label old new, P old → guard label old → step label old = some new → P new) :
    P after := by
  induction reach with
  | start => exact atStart
  | next _ allowed run ih => exact preserved _ _ _ ih allowed run

/-- The same rule when the step lemma may use facts already known of the reached state. -/
theorem Reach.invariant_of {K P : State → Prop} (reach : Reach step guard first after)
    (known : ∀ state, Reach step guard first state → K state) (atStart : P first)
    (preserved : ∀ label old new, K old → K new → P old → guard label old →
      step label old = some new → P new) : P after := by
  induction reach with
  | start => exact atStart
  | @next old new label previous allowed run ih =>
    exact preserved _ _ _ (known _ previous) (known _ (previous.next allowed run)) ih allowed run

theorem Reach.mono {wide : Label → State → Prop} (reach : Reach step guard first after)
    (weaker : ∀ label state, guard label state → wide label state) :
    Reach step wide first after := by
  induction reach with
  | start => exact .start
  | next _ allowed run ih => exact ih.next (weaker _ _ allowed) run

/-- The same where the guards compare in the states that are reached. -/
theorem Reach.mono_of {wide : Label → State → Prop} {K : State → Prop} (reach : Reach step guard first after)
    (known : ∀ state, Reach step guard first state → K state)
    (weaker : ∀ label state, K state → guard label state → wide label state) : Reach step wide first after := by
  induction reach with
  | start => exact .start
  | next previous allowed run ih => exact ih.next (weaker _ _ (known _ previous) allowed) run

theorem Reach.trans (left : Reach step guard first before) (right : Reach step guard before after) :
    Reach step guard first after := by
  induction right with
  | start => exact left
  | next _ allowed run ih => exact ih.next allowed run

/-- Forward simulation: a run is seen through `view` as a run of the abstract relation when every step
is seen as no change or as one abstract step. -/
theorem Reach.simulates {View : Type} {R : View → View → Prop} {view : State → View} {K : State → Prop}
    (reach : Reach step guard first after) (known : ∀ state, Reach step guard first state → K state)
    (seen : ∀ label old new, K old → guard label old → step label old = some new →
      view new = view old ∨ R (view old) (view new)) :
    Relation.ReflTransGen R (view first) (view after) := by
  induction reach with
  | start => exact .refl
  | @next old new label previous allowed run ih =>
    rcases seen label old new (known _ previous) allowed run with same | one
    · rw [same]
      exact ih
    · exact ih.tail one

theorem exec_append {labels more : List Label} :
    exec step (labels ++ more) first = (exec step labels first).bind (exec step more) := by
  induction labels generalizing first with
  | nil => rfl
  | cons label labels ih =>
    cases run : step label first with
    | none => simp [exec, run]
    | some state => simp [exec, run, ih]

theorem exec_concat {labels : List Label} {label : Label} :
    exec step (labels ++ [label]) first = (exec step labels first).bind (step label) := by
  rw [exec_append]
  congr
  funext state
  exact Option.bind_fun_some _

/-- What executes was executed up to each of its labels. -/
theorem exec_of_prefix {labels done : List Label} (run : exec step labels first = some after)
    (initial : done <+: labels) :
    ∃ state rest, exec step done first = some state ∧ exec step rest state = some after := by
  obtain ⟨rest, rfl⟩ := initial
  rw [exec_append] at run
  obtain ⟨state, here, later⟩ := Option.bind_eq_some_iff.mp run
  exact ⟨state, rest, here, later⟩

/-- A list of labels that executes is an unrestricted run. -/
theorem reach_of_exec {labels : List Label} (run : exec step labels first = some after) :
    Reach step anyStep first after := by
  induction labels generalizing first with
  | nil => cases run; exact .start
  | cons label labels ih =>
    obtain ⟨middle, one, rest⟩ := Option.bind_eq_some_iff.mp run
    exact (Reach.start.next trivial one).trans (ih rest)

/-- What a list of labels leads to, when both can be evaluated. -/
theorem exec_ends {labels : List Label} {P : State → Prop} [DecidablePred P]
    (run : (exec step labels first).any (fun state => decide (P state)) = true) :
    ∃ state, exec step labels first = some state ∧ P state := by
  obtain ⟨state, ends, holds⟩ := (Option.any_eq_true _ _).mp run
  exact ⟨state, ends, of_decide_eq_true holds⟩

/-- When every step makes the rank smaller, the rank bounds the length of a run. -/
theorem exec_ranked {K : State → Prop} (rank : State → Nat) {labels : List Label}
    (falls : ∀ label before after, K before → step label before = some after → K after ∧ rank after < rank before)
    (start : K first) (run : exec step labels first = some after) :
    K after ∧ labels.length + rank after ≤ rank first := by
  induction labels generalizing first with
  | nil =>
    cases run
    exact ⟨start, by simp⟩
  | cons label labels ih =>
    obtain ⟨middle, one, rest⟩ := Option.bind_eq_some_iff.mp run
    obtain ⟨here, less⟩ := falls label first middle start one
    obtain ⟨kept, bound⟩ := ih here rest
    refine ⟨kept, ?_⟩
    rw [List.length_cons]
    omega

/-- A step function that refuses what the guard does not allow. -/
def guarded (step : Label → State → Option State) (guard : Label → State → Prop)
    [∀ label state, Decidable (guard label state)] (label : Label) (state : State) : Option State :=
  if guard label state then step label state else none

/-- Executing with the guard checked at every step gives a guarded run. -/
theorem reach_of_exec_guarded [∀ label state, Decidable (guard label state)] {labels : List Label}
    (run : exec (guarded step guard) labels first = some after) : Reach step guard first after := by
  induction labels generalizing first with
  | nil => cases run; exact .start
  | cons label labels ih =>
    obtain ⟨middle, one, rest⟩ := Option.bind_eq_some_iff.mp run
    unfold guarded at one
    split at one
    · rename_i allowed
      exact (Reach.start.next allowed one).trans (ih rest)
    · simp at one

/-- A run is guarded when each of its steps is allowed, given that those before it were. -/
theorem exec_guarded_of [∀ label state, Decidable (guard label state)] {labels : List Label}
    (run : exec step labels first = some after)
    (allowed : ∀ done label state next, done ++ [label] <+: labels →
      exec (guarded step guard) done first = some state → exec step (done ++ [label]) first = some next →
      guard label state) :
    exec (guarded step guard) labels first = some after := by
  induction labels using List.reverseRecOn generalizing after with
  | nil => exact run
  | append_singleton labels label ih =>
    have whole := run
    rw [exec_concat] at run ⊢
    obtain ⟨state, before, one⟩ := Option.bind_eq_some_iff.mp run
    have soFar := ih before fun done label state next initial =>
      allowed done label state next (initial.trans (List.prefix_append _ _))
    rw [soFar, Option.bind_some, guarded, if_pos (allowed _ _ _ _ List.prefix_rfl soFar whole)]
    exact one

theorem exec_of_guarded [∀ label state, Decidable (guard label state)] {labels : List Label}
    (run : exec (guarded step guard) labels first = some after) : exec step labels first = some after := by
  induction labels generalizing first with
  | nil => exact run
  | cons label labels ih =>
    obtain ⟨middle, one, rest⟩ := Option.bind_eq_some_iff.mp run
    unfold guarded at one
    split at one
    · exact Option.bind_eq_some_iff.mpr ⟨middle, one, ih rest⟩
    · simp at one

/-- What a guard allows, a weaker one does. -/
theorem exec_wider {wide : Label → State → Prop} [∀ label state, Decidable (guard label state)]
    [∀ label state, Decidable (wide label state)] {labels : List Label}
    (run : exec (guarded step guard) labels first = some after)
    (weaker : ∀ label state, guard label state → wide label state) :
    exec (guarded step wide) labels first = some after := by
  induction labels generalizing first with
  | nil => exact run
  | cons label labels ih =>
    obtain ⟨middle, one, rest⟩ := Option.bind_eq_some_iff.mp run
    obtain ⟨allowed, one⟩ := Option.ite_none_right_eq_some.mp one
    refine Option.bind_eq_some_iff.mpr ⟨middle, ?_, ih rest⟩
    rw [guarded, if_pos (weaker _ _ allowed)]
    exact one

end StepSystem
