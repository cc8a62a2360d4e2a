import Mathlib.Data.Nat.Init
import SvrNet.Reach

namespace StepSystem

variable {State Label : Type} {step : Label → State → Option State} {guard : Label → State → Prop}
  {first last : State}

/-- An infinite run. At each moment one step is taken, or nothing happens. -/
structure Trace (step : Label → State → Option State) (guard : Label → State → Prop) (first : State) where
  state : Nat → State
  label : Nat → Option Label
  start : state 0 = first
  idle : ∀ k, label k = none → state (k + 1) = state k
  next : ∀ k act, label k = some act → guard act (state k) ∧ step act (state k) = some (state (k + 1))

namespace Trace

variable (trace : Trace step guard first)

theorem reach (k : Nat) : Reach step guard first (trace.state k) := by
  induction k with
  | zero =>
    rw [trace.start]
    exact .start
  | succ k ih =>
    cases taken : trace.label k with
    | none =>
      rw [trace.idle k taken]
      exact ih
    | some act => exact ih.next (trace.next k act taken).1 (trace.next k act taken).2

/-- What every step keeps is kept. -/
theorem kept {P : State → Prop}
    (stays : ∀ act before after, P before → guard act before → step act before = some after → P after)
    {k m : Nat} (later : k ≤ m) (holds : P (trace.state k)) : P (trace.state m) := by
  induction m, later using Nat.le_induction with
  | base => exact holds
  | succ m later ih =>
    cases taken : trace.label m with
    | none =>
      rw [trace.idle m taken]
      exact ih
    | some act =>
      obtain ⟨allowed, run⟩ := trace.next m act taken
      exact stays act _ _ ih allowed run

/-- The step can be taken in this state. -/
def Enabled (step : Label → State → Option State) (guard : Label → State → Prop) (act : Label) (state : State) : Prop :=
  guard act state ∧ (step act state).isSome

/-- Strong fairness: a step that can be taken again and again is taken again and again. -/
def Fair (act : Label) : Prop :=
  (∀ k, ∃ m, k ≤ m ∧ Enabled step guard act (trace.state m)) → ∀ k, ∃ m, k ≤ m ∧ trace.label m = some act

/-- The same for a kind of steps: when one of them can be taken again and again, one of them is. -/
def FairTo (kind : Label → State → Prop) : Prop :=
  (∀ k, ∃ m, k ≤ m ∧ ∃ act, kind act (trace.state m) ∧ Enabled step guard act (trace.state m)) →
    ∀ k, ∃ m, k ≤ m ∧ ∃ act, trace.label m = some act ∧ kind act (trace.state m)

/-- Whenever `P` holds, `Q` holds then or later. -/
def LeadsTo (P Q : State → Prop) : Prop := ∀ k, P (trace.state k) → ∃ m, k ≤ m ∧ Q (trace.state m)

variable {trace} {P Q R : State → Prop} {act : Label}

theorem LeadsTo.of_imp (imp : ∀ k, P (trace.state k) → Q (trace.state k)) : trace.LeadsTo P Q :=
  fun k holds => ⟨k, Nat.le_refl k, imp k holds⟩

theorem LeadsTo.trans (left : trace.LeadsTo P Q) (right : trace.LeadsTo Q R) : trace.LeadsTo P R := by
  intro k holds
  obtain ⟨m, later, there⟩ := left k holds
  obtain ⟨l, latest, ends⟩ := right m there
  exact ⟨l, Nat.le_trans later latest, ends⟩

theorem LeadsTo.or (left : trace.LeadsTo P R) (right : trace.LeadsTo Q R) : trace.LeadsTo (fun s => P s ∨ Q s) R :=
  fun k holds => holds.elim (left k) (right k)

theorem LeadsTo.resolve (left : trace.LeadsTo P fun s => Q s ∨ R s) (right : trace.LeadsTo R Q) : trace.LeadsTo P Q :=
  left.trans ((LeadsTo.of_imp fun _ done => done).or right)

/-- A rank that falls as long as `Q` has not come about. -/
theorem LeadsTo.ranked (rank : State → Nat)
    (falls : ∀ r, trace.LeadsTo (fun s => P s ∧ rank s = r) fun s => Q s ∨ P s ∧ rank s < r) : trace.LeadsTo P Q := by
  have bounded : ∀ r, trace.LeadsTo (fun s => P s ∧ rank s < r) Q := by
    intro r
    induction r with
    | zero => exact fun k holds => absurd holds.2 (Nat.not_lt_zero _)
    | succ r ih =>
      intro k holds
      obtain ⟨m, later, done | less⟩ := falls (rank (trace.state k)) k ⟨holds.1, rfl⟩
      · exact ⟨m, later, done⟩
      · obtain ⟨l, latest, ends⟩ := ih m ⟨less.1, by omega⟩
        exact ⟨l, Nat.le_trans later latest, ends⟩
  exact fun k holds => bounded (rank (trace.state k) + 1) k ⟨holds, by omega⟩

/-- What holds until `Q` comes about, with something that is sure to come. -/
theorem LeadsTo.along (leads : trace.LeadsTo P R)
    (stays : ∀ m, P (trace.state m) → P (trace.state (m + 1)) ∨ Q (trace.state (m + 1))) :
    trace.LeadsTo P fun s => Q s ∨ P s ∧ R s := by
  intro k holds
  obtain ⟨m, later, there⟩ := leads k holds
  have meanwhile : (∃ l, k ≤ l ∧ Q (trace.state l)) ∨ P (trace.state m) := by
    clear there
    induction m, later using Nat.le_induction with
    | base => exact Or.inr holds
    | succ m later ih =>
      rcases ih with done | still
      · exact Or.inl done
      · exact (stays m still).elim Or.inr fun done => Or.inl ⟨m + 1, by omega, done⟩
  rcases meanwhile with ⟨l, latest, done⟩ | still
  · exact ⟨l, latest, Or.inl done⟩
  · exact ⟨m, later, Or.inr ⟨still, there⟩⟩

variable {kind : Label → State → Prop} {K : State → Prop}

/-- Nothing but `Q` ends `P`. -/
def Unless (step : Label → State → Option State) (guard : Label → State → Prop) (K P Q : State → Prop) : Prop :=
  ∀ act before after, K before → K after → P before → guard act before → step act before = some after →
    P after ∨ Q after

theorem Unless.next (stays : Unless step guard K P Q) (known : ∀ k, K (trace.state k)) (k : Nat)
    (holds : P (trace.state k)) : P (trace.state (k + 1)) ∨ Q (trace.state (k + 1)) := by
  cases taken : trace.label k with
  | none =>
    rw [trace.idle k taken]
    exact Or.inl holds
  | some act =>
    obtain ⟨allowed, run⟩ := trace.next k act taken
    exact stays act _ _ (known k) (known (k + 1)) holds allowed run

/-- Nothing but `Q` ends `P`, and a step of a fair kind brings `Q` about; one can be taken whenever `R`
holds, and `R` holds again and again. -/
theorem FairTo.leadsTo (fair : trace.FairTo kind) (known : ∀ k, K (trace.state k))
    (stays : ∀ act before after, K before → K after → P before → guard act before → step act before = some after →
      ¬ kind act before → P after ∨ Q after)
    (goes : ∀ act before after, K before → K after → P before → guard act before → step act before = some after →
      kind act before → Q after)
    (recurs : trace.LeadsTo P R)
    (ready : ∀ state, K state → P state → R state → ∃ act, kind act state ∧ Enabled step guard act state) :
    trace.LeadsTo P Q := by
  intro k holds
  by_contra never
  have still : ∀ m, k ≤ m → P (trace.state m) := by
    intro m later
    induction m, later using Nat.le_induction with
    | base => exact holds
    | succ m later ih =>
      cases taken : trace.label m with
      | none =>
        rw [trace.idle m taken]
        exact ih
      | some act =>
        obtain ⟨allowed, run⟩ := trace.next m act taken
        by_cases meant : kind act (trace.state m)
        · exact absurd ⟨m + 1, by omega, goes act _ _ (known m) (known (m + 1)) ih allowed run meant⟩ never
        · rcases stays act _ _ (known m) (known (m + 1)) ih allowed run meant with here | done
          · exact here
          · exact absurd ⟨m + 1, by omega, done⟩ never
  have possible : ∀ j, ∃ m, j ≤ m ∧ ∃ act, kind act (trace.state m) ∧ Enabled step guard act (trace.state m) := by
    intro j
    obtain ⟨m, later, here⟩ := recurs (max j k) (still (max j k) (by omega))
    exact ⟨m, by omega, ready _ (known m) (still m (by omega)) here⟩
  obtain ⟨m, later, act, taken, meant⟩ := fair possible k
  obtain ⟨allowed, run⟩ := trace.next m act taken
  exact never ⟨m + 1, by omega, goes act _ _ (known m) (known (m + 1)) (still m later) allowed run meant⟩

theorem Fair.fairTo (fair : trace.Fair act) : trace.FairTo fun other _ => other = act := by
  intro possible k
  obtain ⟨m, later, taken⟩ := fair (fun j => by
    obtain ⟨m, later, other, same, able⟩ := possible j
    exact ⟨m, later, same ▸ able⟩) k
  exact ⟨m, later, act, taken, rfl⟩

/-- The same for one fair step. -/
theorem Fair.leadsTo (fair : trace.Fair act)
    (stays : ∀ other before after, Reach step guard first before → P before → guard other before →
      step other before = some after → other ≠ act → P after ∨ Q after)
    (goes : ∀ before after, Reach step guard first before → P before → step act before = some after → Q after)
    (recurs : trace.LeadsTo P R)
    (ready : ∀ state, Reach step guard first state → P state → R state → Enabled step guard act state) :
    trace.LeadsTo P Q :=
  fair.fairTo.leadsTo trace.reach
    (fun other before after reach _ holds allowed run different => stays other before after reach holds allowed run different)
    (fun _ before after reach _ holds _ run same => goes before after reach holds (same ▸ run)) recurs
    fun state reach holds here => ⟨act, rfl, ready state reach holds here⟩

section Suffix

/-- The run from a moment on. -/
def suffix (trace : Trace step guard first) (k : Nat) : Trace step guard (trace.state k) where
  state m := trace.state (k + m)
  label m := trace.label (k + m)
  start := rfl
  idle := fun m => trace.idle (k + m)
  next := fun m => trace.next (k + m)

theorem FairTo.suffix (fair : trace.FairTo kind) (k : Nat) : (trace.suffix k).FairTo kind := by
  intro possible j
  have whole : ∀ j, ∃ m, j ≤ m ∧ ∃ act, kind act (trace.state m) ∧ Enabled step guard act (trace.state m) := by
    intro j
    obtain ⟨m, later, here⟩ := possible j
    exact ⟨k + m, by omega, here⟩
  obtain ⟨m, later, taken⟩ := fair whole (k + j)
  refine ⟨m - k, by omega, ?_⟩
  rwa [show m = k + (m - k) by omega] at taken

end Suffix

section OfExec

variable [∀ label state, Decidable (guard label state)] {labels : List Label}

theorem exec_take (run : exec (guarded step guard) labels first = some last) (k : Nat) :
    ∃ state, exec (guarded step guard) (labels.take k) first = some state := by
  obtain ⟨state, _, here, _⟩ := exec_of_prefix run (List.take_prefix k labels)
  exact ⟨state, here⟩

/-- The run of a list of labels, behind which nothing happens any more. -/
def ofExec (run : exec (guarded step guard) labels first = some last) : Trace step guard first where
  state k := (exec (guarded step guard) (labels.take k) first).getD last
  label k := labels[k]?
  start := rfl
  idle := fun k finished => by
    have short := List.getElem?_eq_none_iff.mp finished
    rw [List.take_of_length_le short, List.take_of_length_le (by omega)]
  next := fun k act taken => by
    obtain ⟨inside, here⟩ := List.getElem?_eq_some_iff.mp taken
    obtain ⟨before, left⟩ := exec_take run k
    obtain ⟨after, right⟩ := exec_take run (k + 1)
    rw [left, right, Option.getD_some, Option.getD_some]
    rw [List.take_succ_eq_append_getElem inside, here, exec_concat, left, Option.bind_some] at right
    exact Option.ite_none_right_eq_some.mp right

theorem ofExec_state (run : exec (guarded step guard) labels first = some last) {k : Nat} {state : State}
    (here : exec (guarded step guard) (labels.take k) first = some state) : (ofExec run).state k = state := by
  have whole : (ofExec run).state k = (exec (guarded step guard) (labels.take k) first).getD last := rfl
  rw [whole, here, Option.getD_some]

theorem ofExec_last (run : exec (guarded step guard) labels first = some last) {k : Nat}
    (behind : labels.length ≤ k) : (ofExec run).state k = last :=
  ofExec_state run (by rw [List.take_of_length_le behind, run])

/-- A run is fair to a step that cannot be taken where it stops. -/
theorem ofExec_fair (run : exec (guarded step guard) labels first = some last) {act : Label}
    (stopped : ¬ Enabled step guard act last) : (ofExec run).Fair act := by
  intro possible
  obtain ⟨m, later, here⟩ := possible labels.length
  rw [ofExec_last run later] at here
  exact absurd here stopped

/-- The run of a list of labels, and behind it the same label again and again, which changes nothing. -/
def ofLasso (run : exec (guarded step guard) labels first = some last) (act : Label)
    (again : guard act last ∧ step act last = some last) : Trace step guard first where
  state := (ofExec run).state
  label k := some (labels[k]?.getD act)
  start := (ofExec run).start
  idle := nofun
  next := fun k other taken => by
    cases here : labels[k]? with
    | none =>
      rw [here] at taken
      cases taken
      have behind := List.getElem?_eq_none_iff.mp here
      rw [ofExec_last run behind, ofExec_last run (Nat.le_succ_of_le behind)]
      exact again
    | some label =>
      rw [here] at taken
      cases taken
      exact (ofExec run).next k label here

/-- Such a run is fair to a kind of steps that cannot be taken at its end, or that the last label is of. -/
theorem ofLasso_fairTo (run : exec (guarded step guard) labels first = some last) {act : Label}
    (again : guard act last ∧ step act last = some last)
    (only : ∀ other, kind other last → Enabled step guard other last → kind act last) :
    (ofLasso run act again).FairTo kind := by
  intro possible k
  have ends : ∀ m, labels.length ≤ m → (ofLasso run act again).state m = last := fun _ behind => ofExec_last run behind
  obtain ⟨m, behind, other, meant, able⟩ := possible labels.length
  rw [ends m behind] at meant able
  refine ⟨max k labels.length, Nat.le_max_left .., act, ?_, ?_⟩
  · show some (labels[max k labels.length]?.getD act) = some act
    rw [List.getElem?_eq_none (Nat.le_max_right ..), Option.getD_none]
  · rw [ends _ (Nat.le_max_right ..)]
    exact only other meant able

end OfExec

end Trace

end StepSystem
