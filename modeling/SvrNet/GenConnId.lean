import Mathlib.Data.Finset.Card
import Mathlib.Order.Interval.Finset.Nat
import SvrNet.CData
import SvrNet.Conn
import SvrNet.Reach

namespace Orbit

variable {α : Type} {f : α → α} {key : α → Nat} {bound : Nat}

theorem key_iterate_congr (next : ∀ a b, key a = key b → key (f a) = key (f b)) {a b : α} (same : key a = key b)
    (n : Nat) : key (f^[n] a) = key (f^[n] b) := by
  induction n generalizing a b with
  | zero => exact same
  | succ n ih => exact ih (next a b same)

/-- Where the next key depends on the last one only, an orbit has shown all of its keys after as many
steps as there can be keys. -/
theorem exists_key_iterate (small : ∀ a, key a < bound) (next : ∀ a b, key a = key b → key (f a) = key (f b))
    (start : α) (n : Nat) : ∃ m < bound, key (f^[m] start) = key (f^[n] start) := by
  obtain ⟨i, j, order, inside, same⟩ : ∃ i j, i < j ∧ j ≤ bound ∧ key (f^[i] start) = key (f^[j] start) := by
    have more : (Finset.range bound).card < (Finset.range (bound + 1)).card := by simp
    obtain ⟨i, hi, j, hj, different, same⟩ := Finset.exists_ne_map_eq_of_card_lt_of_maps_to more
      (f := fun k => key (f^[k] start)) fun k _ => by simpa using small (f^[k] start)
    rw [Finset.mem_range] at hi hj
    rcases Nat.lt_or_gt_of_ne different with less | less
    · exact ⟨i, j, less, by omega, same⟩
    · exact ⟨j, i, less, by omega, same.symm⟩
  induction n using Nat.strong_induction_on with
  | _ n ih =>
    by_cases early : n < bound
    · exact ⟨n, early, rfl⟩
    -- the steps behind the second of the equal keys repeat those behind the first
    obtain ⟨m, less, found⟩ := ih (n - j + i) (by omega)
    refine ⟨m, less, found.trans ?_⟩
    rw [Function.iterate_add_apply]
    refine (key_iterate_congr next same (n - j)).trans ?_
    rw [← Function.iterate_add_apply, Nat.sub_add_cancel (by omega)]

end Orbit

namespace SvrNet
open StepSystem CData

/-- `srand` and `rand` of the C library: what `rand` returns is never negative. -/
structure RandLib where
  State : Type
  srand : UInt32 → State
  rand : State → Nat × State
  range : ∀ state, (rand state).1 < 2 ^ 31

variable {lib : RandLib}

/-- Numbers of `rand` copied one behind the other, each as the four bytes of an `int`. -/
def copyNumbers (lib : RandLib) : Nat → lib.State → List UInt8 × lib.State
  | 0, state => ([], state)
  | count + 1, state =>
    let eachNum := lib.rand state
    let others := copyNumbers lib count eachNum.2
    (leBytes 4 eachNum.1 ++ others.1, others.2)

/-- The bytes that `ssmp_rand` writes once it has seeded the generator. -/
def seededBytes (lib : RandLib) (seed : UInt32) (size : Nat) : List UInt8 × lib.State :=
  let numbers := copyNumbers lib (size / 4) (lib.srand seed)
  if size % 4 = 0 then numbers
  else
    let eachNum := lib.rand numbers.2
    (numbers.1 ++ leBytes (size % 4) eachNum.1, eachNum.2)

/-- `ssmp_rand`, with the seconds that the monotonic clock shows. -/
def ssmpRand (lib : RandLib) (tvSec : Nat) (state : lib.State) (size : Nat) : List UInt8 × lib.State :=
  seededBytes lib (UInt32.ofNat (tvSec + (lib.rand state).1 % 10000)) size

def genConnId (lib : RandLib) (tvSec : Nat) (state : lib.State) : ConnId × lib.State :=
  let data := ssmpRand lib tvSec state 8
  (UInt64.ofNat (leValue data.1), data.2)

theorem leValue_append (front back : List UInt8) :
    leValue (front ++ back) = leValue front + 256 ^ front.length * leValue back := by
  induction front with
  | nil => simp [leValue]
  | cons byte front ih =>
    rw [List.cons_append, leValue, leValue, ih, List.length_cons, pow_succ']
    ring

/-- The id is two numbers of `rand` behind each other, so two of its bits are clear. -/
theorem genConnId_ne_invalid (tvSec : Nat) (state : lib.State) :
    (genConnId lib tvSec state).1 ≠ svrInvalidConnectId := by
  intro same
  have small : leValue (ssmpRand lib tvSec state 8).1 < 2 ^ 63 := by
    have low := lib.range (lib.srand (UInt32.ofNat (tvSec + (lib.rand state).1 % 10000)))
    have high := lib.range (lib.rand (lib.srand (UInt32.ofNat (tvSec + (lib.rand state).1 % 10000)))).2
    simp only [ssmpRand, seededBytes, copyNumbers, Nat.reduceMod, Nat.reduceDiv, if_true, List.append_nil,
      leValue_append, leValue_leBytes, length_leBytes]
    omega
  have value := congrArg UInt64.toNat same
  rw [genConnId, UInt64.toNat_ofNat_of_lt' (by simp [UInt64.size]; omega)] at value
  rw [value] at small
  exact absurd small (by decide)

/-- The calls of `conn_insert`: the table, the generator, the clock, and the connection of a call that
holds the lock and draws ids. What was drawn and what was returned so far is recorded. -/
structure ConnIds (lib : RandLib) where
  table : ConnTable
  state : lib.State
  tvSec : Nat
  inserting : Option Int
  drawn : List ConnId
  given : List ConnId

inductive ConnIdAct (lib : RandLib)
  | insert (clientFd : Int)
  | draw
  | remove (id : ConnId)
  | clock (tvSec : Nat)
  /-- Some other code calls `srand` or `rand`, but not while `ssmp_rand` runs. -/
  | rand (state : lib.State)

def ConnIdAct.isDraw : ConnIdAct lib → Bool
  | .draw => true
  | _ => false

namespace ConnIds

/-- What the next call of `Gen_ConnID` returns, and the state in which it leaves the generator. -/
def next (s : ConnIds lib) : ConnId × lib.State := genConnId lib s.tvSec s.state

def step : ConnIdAct lib → ConnIds lib → Option (ConnIds lib)
  | .insert clientFd, s => if s.inserting = none then some { s with inserting := some clientFd } else none
  | .draw, s => s.inserting.map fun clientFd =>
    match connInsert s.table clientFd [s.next.1] with
    | none => { s with state := s.next.2, drawn := s.drawn ++ [s.next.1] }
    | some (id, table) => { s with
        table := table, state := s.next.2, inserting := none, drawn := s.drawn ++ [s.next.1], given := s.given ++ [id] }
  | .remove id, s => if s.inserting = none then some { s with table := connRemove s.table id } else none
  | .clock tvSec, s => if s.tvSec ≤ tvSec then some { s with tvSec := tvSec } else none
  | .rand state, s => some { s with state := state }

def init (tvSec : Nat) (state : lib.State) : ConnIds lib where
  table := fun _ => none
  state := state
  tvSec := tvSec
  inserting := none
  drawn := []
  given := []

variable {s s' s'' : ConnIds lib} {act : ConnIdAct lib} {first last count : Nat}

/-- What a draw does: the id is refused because it is taken, or it is the one that the call returns. -/
structure Drawn (s s' : ConnIds lib) : Prop where
  tvSec : s'.tvSec = s.tvSec
  state : s'.state = s.next.2
  drawn : s'.drawn = s.drawn ++ [s.next.1]
  inserting : s.inserting.isSome
  outcome : (s.table s.next.1).isSome ∧ s'.table = s.table ∧ s'.given = s.given ∧ s'.inserting = s.inserting ∨
    s.table s.next.1 = none ∧ (∃ clientFd, s'.table = Function.update s.table s.next.1 (some clientFd)) ∧
      s'.given = s.given ++ [s.next.1] ∧ s'.inserting = none

theorem draw_spec (run : step .draw s = some s') : Drawn s s' := by
  obtain ⟨clientFd, inserting, turn⟩ := Option.map_eq_some_iff.mp run
  have valid : s.next.1 ≠ svrInvalidConnectId := genConnId_ne_invalid s.tvSec s.state
  cases entry : s.table s.next.1 with
  | none =>
    rw [connInsert, if_neg (by simp [entry, valid])] at turn
    subst turn
    exact ⟨rfl, rfl, rfl, by simp [inserting], Or.inr ⟨entry, ⟨clientFd, rfl⟩, rfl, rfl⟩⟩
  | some fd =>
    rw [connInsert, if_pos (by simp [entry]), connInsert] at turn
    subst turn
    exact ⟨rfl, rfl, rfl, by simp [inserting], Or.inl ⟨by simp [entry], rfl, rfl, rfl⟩⟩

/-- The ids that `Gen_ConnID` can return between two readings of the clock. -/
def idsBetween (lib : RandLib) (first last : Nat) : Finset ConnId :=
  (Finset.Ico first (last + 10000)).image fun seed =>
    UInt64.ofNat (leValue (seededBytes lib (UInt32.ofNat seed) 8).1)

theorem idsBetween_mono {later : Nat} (order : last ≤ later) : idsBetween lib first last ⊆ idsBetween lib first later :=
  Finset.image_subset_image (Finset.Ico_subset_Ico_right (by omega))

theorem next_mem_idsBetween (order : first ≤ s.tvSec) : s.next.1 ∈ idsBetween lib first s.tvSec := by
  have small : (lib.rand s.state).1 % 10000 < 10000 := Nat.mod_lt _ (by decide)
  exact Finset.mem_image.mpr ⟨s.tvSec + (lib.rand s.state).1 % 10000, Finset.mem_Ico.mpr ⟨by omega, by omega⟩, rfl⟩

/-- There are at most as many different ids as there are seeds. -/
theorem length_le_of_idsBetween (order : first ≤ last) {ids : List ConnId} (distinct : ids.Nodup)
    (inside : ∀ id ∈ ids, id ∈ idsBetween lib first last) : ids.length + first ≤ last + 10000 := by
  have fits : ids.toFinset.card ≤ (idsBetween lib first last).card :=
    Finset.card_le_card fun id member => inside id (List.mem_toFinset.mp member)
  have seeds : (idsBetween lib first last).card ≤ (Finset.Ico first (last + 10000)).card := Finset.card_image_le
  rw [List.toFinset_card_of_nodup distinct] at fits
  rw [Nat.card_Ico] at seeds
  omega

/-- The ids in the table were given, and all that were given were drawn since the first second. -/
structure IdInv (first : Nat) (s : ConnIds lib) : Prop where
  order : first ≤ s.tvSec
  listed : ∀ id, (s.table id).isSome → id ∈ s.given
  given : ∀ id ∈ s.given, id ∈ s.drawn
  drawn : ∀ id ∈ s.drawn, id ∈ idsBetween lib first s.tvSec
  valid : svrInvalidConnectId ∉ s.drawn

theorem IdInv.step_draw (inv : IdInv first s) (turn : Drawn s s') : IdInv first s' := by
  have inside : s.next.1 ∈ idsBetween lib first s.tvSec := next_mem_idsBetween inv.order
  have valid : s.next.1 ≠ svrInvalidConnectId := genConnId_ne_invalid s.tvSec s.state
  refine ⟨by rw [turn.tvSec]; exact inv.order, fun id carries => ?_, fun id member => ?_, fun id member => ?_, ?_⟩
  · rcases turn.outcome with ⟨_, table, given, _⟩ | ⟨_, ⟨clientFd, table⟩, given, _⟩
    · rw [table] at carries
      rw [given]
      exact inv.listed id carries
    · rw [given]
      by_cases same : id = s.next.1
      · simp [same]
      · rw [table, Function.update_of_ne same] at carries
        exact List.mem_append_left _ (inv.listed id carries)
  · rw [turn.drawn]
    rcases turn.outcome with ⟨_, _, given, _⟩ | ⟨_, _, given, _⟩
    · rw [given] at member
      exact List.mem_append_left _ (inv.given id member)
    · rw [given] at member
      exact (List.mem_append.mp member).elim (fun old => List.mem_append_left _ (inv.given id old))
        (List.mem_append_right _)
  · rw [turn.tvSec]
    rw [turn.drawn, List.mem_append, List.mem_singleton] at member
    rcases member with old | rfl
    · exact inv.drawn id old
    · exact inside
  · rw [turn.drawn]
    simp [inv.valid, valid.symm]

theorem IdInv.step (inv : IdInv first s) (run : step act s = some s') : IdInv first s' := by
  cases act with
  | draw => exact inv.step_draw (draw_spec run)
  | insert clientFd =>
    obtain ⟨_, moved⟩ := Option.ite_none_right_eq_some.mp run
    cases moved
    exact ⟨inv.order, inv.listed, inv.given, inv.drawn, inv.valid⟩
  | rand state =>
    cases run
    exact ⟨inv.order, inv.listed, inv.given, inv.drawn, inv.valid⟩
  | remove id =>
    obtain ⟨_, moved⟩ := Option.ite_none_right_eq_some.mp run
    cases moved
    refine ⟨inv.order, fun other carries => inv.listed other ?_, inv.given, inv.drawn, inv.valid⟩
    by_cases same : other = id
    · simp [connRemove, same] at carries
    · simpa [connRemove, same] using carries
  | clock tvSec =>
    obtain ⟨later, moved⟩ := Option.ite_none_right_eq_some.mp run
    cases moved
    exact ⟨inv.order.trans later, inv.listed, inv.given,
      fun id member => idsBetween_mono later (inv.drawn id member), inv.valid⟩

theorem idInv_reach {state : lib.State} (reach : Reach step anyStep (init first state) s) : IdInv first s := by
  refine reach.invariant ?_ fun act _ _ inv _ run => inv.step run
  exact ⟨Nat.le_refl first, by simp [init], by simp [init], by simp [init], by simp [init]⟩

/-- However the calls and the other code take turns, the table never has more connections than ten
thousand and one for each second since the start, when more ids than that were given one was given
twice, and the invalid id was never drawn. -/
theorem ids_run_out {state : lib.State} (reach : Reach step anyStep (init first state) s) :
    (∀ ids : List ConnId, ids.Nodup → (∀ id ∈ ids, (s.table id).isSome) → ids.length + first ≤ s.tvSec + 10000) ∧
      (s.tvSec + 10000 < s.given.length + first → ¬ s.given.Nodup) ∧ svrInvalidConnectId ∉ s.drawn := by
  have inv := idInv_reach reach
  refine ⟨fun ids distinct carried => ?_, fun many distinct => ?_, inv.valid⟩
  · exact length_le_of_idsBetween inv.order distinct fun id member =>
      inv.drawn id (inv.given id (inv.listed id (carried id member)))
  · have bound := length_le_of_idsBetween inv.order distinct fun id member => inv.drawn id (inv.given id member)
    omega

/-- The sample of `srand` and `rand` that their standard gives. -/
def sampleRand : RandLib where
  State := UInt64
  srand := fun seed => seed.toUInt64
  rand := fun state =>
    let next := state * 1103515245 + 12345
    ((next / 65536).toNat % 32768, next)
  range := fun state => Nat.lt_trans (Nat.mod_lt _ (by decide)) (by decide)

theorem ids_run_out_two_seconds : ∃ s : ConnIds sampleRand, s.given.length = 2 ∧ s.tvSec = 101 ∧
    (∀ ids : List ConnId, ids.Nodup → (∀ id ∈ ids, (s.table id).isSome) → ids.length + 100 ≤ s.tvSec + 10000) ∧
      (s.tvSec + 10000 < s.given.length + 100 → ¬ s.given.Nodup) ∧ svrInvalidConnectId ∉ s.drawn := by
  have ends : ∃ s : ConnIds sampleRand,
      exec step [.insert 5, .draw, .clock 101, .insert 6, .draw, .remove 3] (init 100 (1 : UInt64)) = some s ∧
        s.given.length = 2 ∧ s.tvSec = 101 := exec_ends (by decide +kernel)
  obtain ⟨s, run, given, tvSec⟩ := ends
  exact ⟨s, given, tvSec, ids_run_out (reach_of_exec run)⟩

section OneSecond

/-- Steps within one second, while nothing is removed and nobody else uses the generator. -/
def calm : ConnIdAct lib → ConnIds lib → Prop
  | .insert _, _ | .draw, _ => True
  | _, _ => False

instance : ∀ (act : ConnIdAct lib) (s : ConnIds lib), Decidable (calm act s)
  | .insert _, _ | .draw, _ => inferInstanceAs (Decidable True)
  | .remove _, _ | .clock _, _ | .rand _, _ => inferInstanceAs (Decidable False)

/-- The state of the generator behind `Gen_ConnID`. -/
def nextState (lib : RandLib) (tvSec : Nat) (state : lib.State) : lib.State := (genConnId lib tvSec state).2

/-- What is added to the seconds to get the seed; an id and all the later ones depend on nothing else. -/
def seedOffset (lib : RandLib) (state : lib.State) : Nat := (lib.rand state).1 % 10000

theorem seedOffset_lt (state : lib.State) : seedOffset lib state < 10000 := Nat.mod_lt _ (by decide)

theorem genConnId_congr {state state' : lib.State} (tvSec : Nat) (same : seedOffset lib state = seedOffset lib state') :
    genConnId lib tvSec state = genConnId lib tvSec state' := by
  unfold seedOffset at same
  simp only [genConnId, ssmpRand, same]

/-- What `count` draws have done since the state `s`: all of their ids are taken, by connections that
were there before or that got them. -/
structure CalmInv (s : ConnIds lib) (count : Nat) (s' : ConnIds lib) : Prop where
  tvSec : s'.tvSec = s.tvSec
  state : s'.state = (nextState lib s.tvSec)^[count] s.state
  taken : ∀ m < count, (s'.table (genConnId lib s.tvSec ((nextState lib s.tvSec)^[m] s.state)).1).isSome
  given : s'.given.length ≤ s.given.length + min count 10000

theorem CalmInv.next_eq (inv : CalmInv s count s') :
    s'.next = genConnId lib s.tvSec ((nextState lib s.tvSec)^[count] s.state) := by
  rw [ConnIds.next, inv.tvSec, inv.state]

/-- From the ten thousandth draw on the ids come again. -/
theorem CalmInv.next_taken (inv : CalmInv s count s') (many : 10000 ≤ count) : (s'.table s'.next.1).isSome := by
  have again : ∀ a b, seedOffset lib a = seedOffset lib b →
      seedOffset lib (nextState lib s.tvSec a) = seedOffset lib (nextState lib s.tvSec b) := by
    intro a b same
    rw [nextState, nextState, genConnId_congr s.tvSec same]
  obtain ⟨m, less, same⟩ := Orbit.exists_key_iterate seedOffset_lt again s.state count
  rw [inv.next_eq, ← genConnId_congr s.tvSec same]
  exact inv.taken m (by omega)

theorem CalmInv.draw (inv : CalmInv s count s') (turn : Drawn s' s'') : CalmInv s (count + 1) s'' := by
  have next := inv.next_eq
  have grows : ∀ id, (s'.table id).isSome → (s''.table id).isSome := by
    intro id carries
    rcases turn.outcome with ⟨_, table, _⟩ | ⟨_, ⟨clientFd, table⟩, _⟩
    · rw [table]
      exact carries
    · rw [table]
      by_cases same : id = s'.next.1
      · rw [same, Function.update_self]
        rfl
      · rw [Function.update_of_ne same]
        exact carries
  have carried : (s''.table s'.next.1).isSome := by
    rcases turn.outcome with ⟨taken, _⟩ | ⟨_, ⟨clientFd, table⟩, _⟩
    · exact grows _ taken
    · rw [table, Function.update_self]
      rfl
  refine ⟨turn.tvSec.trans inv.tvSec, ?_, fun m less => ?_, ?_⟩
  · rw [turn.state, next, Function.iterate_succ_apply']
    rfl
  · rcases Nat.lt_succ_iff_lt_or_eq.mp less with before | rfl
    · exact grows _ (inv.taken m before)
    · rwa [← next]
  · have bound := inv.given
    rcases turn.outcome with ⟨_, _, given, _⟩ | ⟨free, _, given, _⟩
    · rw [given]
      omega
    · have early : count < 10000 := by
        by_contra many
        have taken := inv.next_taken (by omega)
        simp [free] at taken
      rw [given, List.length_append, List.length_singleton]
      omega

theorem CalmInv.insert (inv : CalmInv s count s') {clientFd : Int} (run : step (.insert clientFd) s' = some s'') :
    CalmInv s count s'' := by
  obtain ⟨_, moved⟩ := Option.ite_none_right_eq_some.mp run
  cases moved
  exact ⟨inv.tvSec, inv.state, inv.taken, inv.given⟩

theorem CalmInv.run {acts : List (ConnIdAct lib)} (inv : CalmInv s count s')
    (run : exec (guarded step calm) acts s' = some s'') : CalmInv s (count + acts.countP ConnIdAct.isDraw) s'' := by
  induction acts generalizing count s' with
  | nil =>
    cases run
    exact inv
  | cons act acts ih =>
    obtain ⟨middle, one, rest⟩ := Option.bind_eq_some_iff.mp run
    obtain ⟨allowed, one⟩ := Option.ite_none_right_eq_some.mp one
    cases act with
    | insert =>
      rw [List.countP_cons_of_neg (by simp [ConnIdAct.isDraw])]
      exact ih (inv.insert one) rest
    | draw =>
      rw [List.countP_cons_of_pos rfl, Nat.add_comm _ 1, ← Nat.add_assoc]
      exact ih (inv.draw (draw_spec one)) rest
    | _ => exact allowed.elim

/-- When all ids come again, the connection that is being inserted goes on being inserted. -/
structure Stalled (s s' : ConnIds lib) : Prop where
  given : s'.given = s.given
  table : s'.table = s.table
  inserting : ∀ clientFd, s.inserting = some clientFd → s'.inserting = some clientFd

theorem CalmInv.stalled {acts : List (ConnIdAct lib)} (inv : CalmInv s count s') (many : 10000 ≤ count)
    (run : exec (guarded step calm) acts s' = some s'') : Stalled s' s'' := by
  induction acts generalizing count s' with
  | nil =>
    cases run
    exact ⟨rfl, rfl, fun _ same => same⟩
  | cons act acts ih =>
    obtain ⟨middle, one, rest⟩ := Option.bind_eq_some_iff.mp run
    obtain ⟨allowed, one⟩ := Option.ite_none_right_eq_some.mp one
    cases act with
    | insert =>
      have later := ih (inv.insert one) many rest
      obtain ⟨idle, moved⟩ := Option.ite_none_right_eq_some.mp one
      cases moved
      exact ⟨later.given, later.table, by simp [idle]⟩
    | draw =>
      have turn := draw_spec one
      have later := ih (inv.draw turn) (by omega) rest
      have taken := inv.next_taken many
      rcases turn.outcome with ⟨_, table, given, inserting⟩ | ⟨free, _⟩
      · exact ⟨later.given.trans given, later.table.trans table, fun clientFd same =>
          later.inserting clientFd (inserting.trans same)⟩
      · simp [free] at taken
    | _ => exact allowed.elim

/-- Within one second `conn_insert` returns at most ten thousand times, and when it has drawn as many
ids it does not return any more: the call that is under way, or that begins next, draws on with the
table locked until the second is over. -/
theorem one_second_stalls {acts : List (ConnIdAct lib)} (run : exec (guarded step calm) acts s = some s') :
    s'.given.length ≤ s.given.length + 10000 ∧
      (10000 ≤ acts.countP ConnIdAct.isDraw →
        ∀ more s'', exec (guarded step calm) more s' = some s'' → Stalled s' s'') := by
  have inv : CalmInv s (0 + acts.countP ConnIdAct.isDraw) s' :=
    CalmInv.run ⟨rfl, rfl, fun m less => absurd less (Nat.not_lt_zero m), by simp⟩ run
  refine ⟨?_, fun many more s'' later => inv.stalled (by omega) later⟩
  have bound := inv.given
  omega

theorem exists_draw (inserting : s.inserting.isSome) : ∃ s', step .draw s = some s' := by
  obtain ⟨clientFd, at_⟩ := Option.isSome_iff_exists.mp inserting
  rw [step, at_]
  exact ⟨_, rfl⟩

/-- A call can always go on drawing. -/
theorem exists_calm_run (s : ConnIds lib) (count : Nat) : ∃ acts s',
    exec (guarded step calm) acts s = some s' ∧ count ≤ acts.countP ConnIdAct.isDraw := by
  induction count with
  | zero => exact ⟨[], s, rfl, Nat.zero_le _⟩
  | succ count ih =>
    obtain ⟨acts, middle, run, many⟩ := ih
    have one : ∃ acts s', exec (guarded step calm) acts middle = some s' ∧ acts.countP ConnIdAct.isDraw = 1 := by
      cases idle : middle.inserting with
      | none =>
        have begins : step (.insert 0) middle = some { middle with inserting := some 0 } := if_pos idle
        obtain ⟨s', turn⟩ := exists_draw (s := { middle with inserting := some 0 }) rfl
        exact ⟨[.insert 0, .draw], s', by simp [StepSystem.exec, guarded, calm, begins, turn], rfl⟩
      | some clientFd =>
        obtain ⟨s', turn⟩ := exists_draw (by rw [idle]; rfl)
        exact ⟨[.draw], s', by simp [StepSystem.exec, guarded, calm, turn], rfl⟩
    obtain ⟨turn, s', rest, draws⟩ := one
    refine ⟨acts ++ turn, s', ?_, ?_⟩
    · rw [exec_append, run, Option.bind_some, rest]
    · rw [List.countP_append]
      omega

/-- A run of the sample generator that draws so often within its second. -/
theorem one_second_stalls_sample : ∃ (acts : List (ConnIdAct sampleRand)) (s' : ConnIds sampleRand),
    exec (guarded step calm) acts (init 100 (1 : UInt64)) = some s' ∧ s'.given.length ≤ 10000 ∧
      ∀ more s'', exec (guarded step calm) more s' = some s'' → Stalled s' s'' := by
  obtain ⟨acts, s', run, many⟩ := exists_calm_run (init 100 (1 : UInt64) : ConnIds sampleRand) 10000
  obtain ⟨bound, stalls⟩ := one_second_stalls run
  exact ⟨acts, s', run, by simpa [init] using bound, stalls many⟩

end OneSecond

end ConnIds

end SvrNet
