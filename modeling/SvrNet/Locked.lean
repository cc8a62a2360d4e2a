import SvrNet.Reach
import Mathlib.Logic.Function.Basic

open StepSystem

/-- Calls on shared data, each run step by step between acquiring and releasing one lock. What a step
draws from outside is its input. Shared calls may hold the lock together, and leave the data alone. -/
structure LockedObject (Data Call Ret Local Input : Type) where
  shared : Call → Bool
  start : Call → Local
  body : Call → Input → Data → Local → Option (Data × (Local ⊕ Ret))
  reads : ∀ call input data loc after next, shared call = true →
    body call input data loc = some (after, next) → after = data

namespace LockedObject

/-- Where a thread is with its call: in front of the lock, behind it, or in front of the unlock. -/
inductive Phase (Call Ret Local : Type)
  | idle
  | called (call : Call)
  | inside (call : Call) (loc : Local)
  | leaving (call : Call) (ret : Ret)

/-- What the callers see. -/
inductive Event (Thread Call Ret : Type)
  | call (thread : Thread) (call : Call)
  | ret (thread : Thread) (call : Call) (ret : Ret)

structure State (Thread Data Call Ret Local : Type) where
  data : Data
  writer : Option Thread
  readers : List Thread
  phase : Thread → Phase Call Ret Local
  log : List (Event Thread Call Ret)

inductive Act (Thread Call Input : Type)
  | call (thread : Thread) (call : Call)
  | acquire (thread : Thread)
  | body (thread : Thread) (input : Input)
  | release (thread : Thread)

/-- The call that a thread holds the lock for. -/
def Phase.held {Call Ret Local : Type} : Phase Call Ret Local → Option Call
  | .inside call _ | .leaving call _ => some call
  | _ => none

variable {Thread Data Call Ret Local Input : Type} [DecidableEq Thread]

def State.init (data : Data) : State Thread Data Call Ret Local where
  data := data
  writer := none
  readers := []
  phase := fun _ => .idle
  log := []

def step (O : LockedObject Data Call Ret Local Input) : Act Thread Call Input →
    State Thread Data Call Ret Local → Option (State Thread Data Call Ret Local)
  | .call thread call, s =>
    match s.phase thread with
    | .idle => some { s with
        phase := Function.update s.phase thread (.called call)
        log := s.log ++ [.call thread call] }
    | _ => none
  | .acquire thread, s =>
    match s.phase thread with
    | .called call =>
      if s.writer.isNone ∧ (O.shared call ∨ s.readers.isEmpty) then
        some { s with
          writer := if O.shared call then s.writer else some thread
          readers := if O.shared call then thread :: s.readers else s.readers
          phase := Function.update s.phase thread (.inside call (O.start call)) }
      else none
    | _ => none
  | .body thread input, s =>
    match s.phase thread with
    | .inside call loc =>
      match O.body call input s.data loc with
      | none => none
      | some (data, .inl next) =>
        some { s with data := data, phase := Function.update s.phase thread (.inside call next) }
      | some (data, .inr ret) =>
        some { s with data := data, phase := Function.update s.phase thread (.leaving call ret) }
    | _ => none
  | .release thread, s =>
    match s.phase thread with
    | .leaving call ret =>
      some { s with
        writer := if O.shared call then s.writer else none
        readers := if O.shared call then s.readers.erase thread else s.readers
        phase := Function.update s.phase thread .idle
        log := s.log ++ [.ret thread call ret] }
    | _ => none

/-- The steps one by one, each with what its branch tested. -/
inductive LockedStep (O : LockedObject Data Call Ret Local Input) (s : State Thread Data Call Ret Local) :
    Act Thread Call Input → State Thread Data Call Ret Local → Prop
  | call {thread : Thread} {call : Call} : s.phase thread = .idle → LockedStep O s (.call thread call)
      { s with phase := Function.update s.phase thread (.called call), log := s.log ++ [.call thread call] }
  | share {thread : Thread} {call : Call} : s.phase thread = .called call → O.shared call = true →
      s.writer = none → LockedStep O s (.acquire thread) { s with
        readers := thread :: s.readers
        phase := Function.update s.phase thread (.inside call (O.start call)) }
  | seize {thread : Thread} {call : Call} : s.phase thread = .called call → O.shared call = false →
      s.writer = none → s.readers = [] → LockedStep O s (.acquire thread) { s with
        writer := some thread
        phase := Function.update s.phase thread (.inside call (O.start call)) }
  | go {thread : Thread} {call : Call} {input : Input} {loc next : Local} {data : Data} :
      s.phase thread = .inside call loc → O.body call input s.data loc = some (data, .inl next) →
      LockedStep O s (.body thread input)
        { s with data := data, phase := Function.update s.phase thread (.inside call next) }
  | finish {thread : Thread} {call : Call} {input : Input} {loc : Local} {data : Data} {ret : Ret} :
      s.phase thread = .inside call loc → O.body call input s.data loc = some (data, .inr ret) →
      LockedStep O s (.body thread input)
        { s with data := data, phase := Function.update s.phase thread (.leaving call ret) }
  | unshare {thread : Thread} {call : Call} {ret : Ret} : s.phase thread = .leaving call ret →
      O.shared call = true → LockedStep O s (.release thread) { s with
        readers := s.readers.erase thread
        phase := Function.update s.phase thread .idle
        log := s.log ++ [.ret thread call ret] }
  | unlock {thread : Thread} {call : Call} {ret : Ret} : s.phase thread = .leaving call ret →
      O.shared call = false → LockedStep O s (.release thread) { s with
        writer := none
        phase := Function.update s.phase thread .idle
        log := s.log ++ [.ret thread call ret] }

variable {O : LockedObject Data Call Ret Local Input} {s s' : State Thread Data Call Ret Local}
  {act : Act Thread Call Input}

theorem step_spec (run : O.step act s = some s') : LockedStep O s act s' := by
  cases act with
  | call thread call =>
    simp only [step] at run
    split at run
    · rename_i at_
      cases run
      exact .call at_
    · simp at run
  | acquire thread =>
    simp only [step] at run
    split at run
    · rename_i call at_
      split at run
      · rename_i free
        obtain ⟨nobody, room⟩ := free
        have noWriter : s.writer = none := Option.isNone_iff_eq_none.mp nobody
        cases run
        cases shared : O.shared call with
        | true => simpa using LockedStep.share at_ shared noWriter
        | false =>
          have noReaders : s.readers = [] := by simpa [shared] using room
          simpa using LockedStep.seize at_ shared noWriter noReaders
      · simp at run
    · simp at run
  | body thread input =>
    simp only [step] at run
    split at run
    · rename_i call loc at_
      split at run
      · simp at run
      · rename_i data next went
        cases run
        exact .go at_ went
      · rename_i data ret went
        cases run
        exact .finish at_ went
    · simp at run
  | release thread =>
    simp only [step] at run
    split at run
    · rename_i call ret at_
      cases run
      cases shared : O.shared call with
      | true => simpa using LockedStep.unshare at_ shared
      | false => simpa using LockedStep.unlock at_ shared
    · simp at run

/-- The lock is held by those that are between acquiring and releasing it, and a writer holds it alone. -/
structure LockInv (O : LockedObject Data Call Ret Local Input) (s : State Thread Data Call Ret Local) : Prop where
  writer : ∀ thread, s.writer = some thread ↔ ∃ call, (s.phase thread).held = some call ∧ O.shared call = false
  readers : ∀ thread, thread ∈ s.readers ↔ ∃ call, (s.phase thread).held = some call ∧ O.shared call = true
  nodup : s.readers.Nodup
  alone : ∀ thread, s.writer = some thread → s.readers = []

omit [DecidableEq Thread] in
theorem lockInv_init (data : Data) : LockInv O (State.init data : State Thread Data Call Ret Local) := by
  constructor <;> simp [State.init, Phase.held]

omit [DecidableEq Thread] in
/-- Steps between acquiring and releasing, and those without the lock. -/
theorem LockInv.congr (inv : LockInv O s) (writer : s'.writer = s.writer) (readers : s'.readers = s.readers)
    (held : ∀ thread, (s'.phase thread).held = (s.phase thread).held) : LockInv O s' where
  writer := fun thread => by
    rw [writer, held]
    exact inv.writer thread
  readers := fun thread => by
    rw [readers, held]
    exact inv.readers thread
  nodup := readers ▸ inv.nodup
  alone := by
    rw [writer, readers]
    exact inv.alone

omit [DecidableEq Thread] in
/-- Nobody else holds the lock together with a writer. -/
theorem LockInv.exclusive (inv : LockInv O s) {thread other : Thread} {call call' : Call}
    (holds : (s.phase thread).held = some call) (writes : O.shared call = false)
    (also : (s.phase other).held = some call') : other = thread := by
  have writer := (inv.writer thread).mpr ⟨call, holds, writes⟩
  cases shared : O.shared call' with
  | true =>
    have member := (inv.readers other).mpr ⟨call', also, shared⟩
    simp [inv.alone thread writer] at member
  | false =>
    have same := (inv.writer other).mpr ⟨call', also, shared⟩
    exact Option.some.inj (same.symm.trans writer)

/-- A thread that keeps what it holds. -/
theorem held_update {thread : Thread} {phase : Phase Call Ret Local}
    (kept : phase.held = (s.phase thread).held) (other : Thread) :
    (Function.update s.phase thread phase other).held = (s.phase other).held := by
  by_cases same : other = thread
  · subst same
    rw [Function.update_self, kept]
  · rw [Function.update_of_ne same]

/-- Nobody holds the lock when neither field says so. -/
theorem LockInv.seize (inv : LockInv O s) {thread : Thread} {call : Call} (at_ : s.phase thread = .called call)
    (writes : O.shared call = false) (nobody : s.writer = none) (none : s.readers = []) :
    LockInv O { s with
      writer := some thread
      phase := Function.update s.phase thread (.inside call (O.start call)) } := by
  have outside : ∀ other call', (s.phase other).held = some call' → False := by
    intro other call' holds
    cases shared : O.shared call' with
    | true =>
      have member := (inv.readers other).mpr ⟨call', holds, shared⟩
      simp [none] at member
    | false =>
      have same := (inv.writer other).mpr ⟨call', holds, shared⟩
      simp [nobody] at same
  refine ⟨fun other => ?_, fun other => ?_, inv.nodup, fun _ _ => none⟩
  · by_cases same : other = thread
    · subst same
      simp [Phase.held, writes]
    · dsimp only
      rw [Function.update_of_ne same]
      refine ⟨fun here => absurd (Option.some.inj here).symm same, ?_⟩
      rintro ⟨call', holds, _⟩
      exact (outside other call' holds).elim
  · by_cases same : other = thread
    · subst same
      simp [Phase.held, writes, none]
    · dsimp only
      rw [Function.update_of_ne same]
      exact inv.readers other

theorem LockInv.step (inv : LockInv O s) (step : LockedStep O s act s') : LockInv O s' := by
  cases step with
  | call at_ => exact inv.congr rfl rfl (held_update (by rw [at_]; rfl))
  | go at_ | finish at_ => exact inv.congr rfl rfl (held_update (by rw [at_]; rfl))
  | seize at_ writes nobody none => exact inv.seize at_ writes nobody none
  | @share thread call at_ shared nobody =>
    refine ⟨fun other => ?_, fun other => ?_, List.nodup_cons.mpr ⟨?_, inv.nodup⟩, ?_⟩
    · by_cases same : other = thread
      · subst same
        simp [Phase.held, shared, nobody]
      · dsimp only
        rw [Function.update_of_ne same]
        exact inv.writer other
    · by_cases same : other = thread
      · subst same
        simp [Phase.held, shared]
      · dsimp only
        rw [Function.update_of_ne same, List.mem_cons, or_iff_right same]
        exact inv.readers other
    · intro member
      obtain ⟨call', holds, _⟩ := (inv.readers thread).mp member
      rw [at_] at holds
      cases holds
    · simp [nobody]
  | @unshare thread call ret at_ shared =>
    refine ⟨fun other => ?_, fun other => ?_, inv.nodup.erase thread, fun other writes => ?_⟩
    · rw [inv.writer other]
      by_cases same : other = thread
      · subst same
        simp [at_, Phase.held, shared]
      · dsimp only
        rw [Function.update_of_ne same]
    · rw [inv.nodup.mem_erase_iff, inv.readers other]
      by_cases same : other = thread
      · subst same
        simp [Phase.held]
      · dsimp only
        rw [Function.update_of_ne same]
        exact ⟨fun both => both.2, fun holds => ⟨same, holds⟩⟩
    · rw [inv.alone other writes]
      rfl
  | @unlock thread call ret at_ writes =>
    have writer := (inv.writer thread).mpr ⟨call, by rw [at_]; rfl, writes⟩
    refine ⟨fun other => ?_, fun other => ?_, inv.nodup, nofun⟩
    · by_cases same : other = thread
      · subst same
        simp [Phase.held]
      · dsimp only
        rw [Function.update_of_ne same]
        refine ⟨nofun, ?_⟩
        rintro ⟨call', holds, writes'⟩
        have also := (inv.writer other).mpr ⟨call', holds, writes'⟩
        exact absurd (Option.some.inj (also.symm.trans writer)) same
    · rw [inv.readers other]
      by_cases same : other = thread
      · subst same
        simp [at_, Phase.held, writes]
      · dsimp only
        rw [Function.update_of_ne same]

section Atomic

/-- A thread as it is seen from outside: its call, and the result once there is one. -/
def Phase.seen : Phase Call Ret Local → Option (Call × Option Ret)
  | .idle => none
  | .called call | .inside call _ => some (call, none)
  | .leaving call ret => some (call, some ret)

/-- Calls that take effect in one step. -/
structure Atomic (Thread Data Call Ret : Type) where
  data : Data
  pending : Thread → Option (Call × Option Ret)
  log : List (Event Thread Call Ret)

def Atomic.init (data : Data) : Atomic Thread Data Call Ret where
  data := data
  pending := fun _ => none
  log := []

/-- Runs of calls whose effect and result are those of `spec`. -/
inductive AtomicStep (spec : Call → Data → Data → Ret → Prop) :
    Atomic Thread Data Call Ret → Atomic Thread Data Call Ret → Prop
  | call {a : Atomic Thread Data Call Ret} {thread : Thread} {call : Call} : a.pending thread = none →
      AtomicStep spec a { a with
        pending := Function.update a.pending thread (some (call, none))
        log := a.log ++ [.call thread call] }
  | act {a : Atomic Thread Data Call Ret} {thread : Thread} {call : Call} {data : Data} {ret : Ret} :
      a.pending thread = some (call, none) → spec call a.data data ret → AtomicStep spec a { a with
        data := data
        pending := Function.update a.pending thread (some (call, some ret)) }
  | ret {a : Atomic Thread Data Call Ret} {thread : Thread} {call : Call} {ret : Ret} :
      a.pending thread = some (call, some ret) → AtomicStep spec a { a with
        pending := Function.update a.pending thread none
        log := a.log ++ [.ret thread call ret] }

/-- The steps of a body that go on. -/
def Moves (O : LockedObject Data Call Ret Local Input) (call : Call) (before after : Data × Local) : Prop :=
  ∃ input, O.body call input before.1 before.2 = some (after.1, .inl after.2)

/-- A whole run of a body. -/
def Finishes (O : LockedObject Data Call Ret Local Input) (call : Call) (data after : Data) (ret : Ret) : Prop :=
  ∃ last input, Relation.ReflTransGen (O.Moves call) (data, O.start call) last ∧
    O.body call input last.1 last.2 = some (after, .inr ret)

/-- The same state without the lock and the bodies. Of a writer in its body nothing is seen yet. -/
def State.seen (s : State Thread Data Call Ret Local) (data : Data) : Atomic Thread Data Call Ret :=
  ⟨data, fun thread => (s.phase thread).seen, s.log⟩

/-- `data` is what the last finished writer left: everybody inside of a body began with it. -/
structure Linearized (O : LockedObject Data Call Ret Local Input) (s : State Thread Data Call Ret Local)
    (data : Data) : Prop where
  lock : LockInv O s
  settled : (∀ thread call loc, s.phase thread = .inside call loc → O.shared call = true) → data = s.data
  path : ∀ thread call loc, s.phase thread = .inside call loc →
    Relation.ReflTransGen (O.Moves call) (data, O.start call) (s.data, loc)

omit [DecidableEq Thread] in
theorem linearized_init (data : Data) :
    Linearized O (State.init data : State Thread Data Call Ret Local) data where
  lock := lockInv_init data
  settled := fun _ => rfl
  path := by simp [State.init]

/-- What is seen of a thread follows its phase. -/
theorem seen_update (phases : Thread → Phase Call Ret Local) (thread : Thread) (phase : Phase Call Ret Local) :
    (fun other => (Function.update phases thread phase other).seen) =
      Function.update (fun other => (phases other).seen) thread phase.seen :=
  Function.comp_update Phase.seen phases thread phase

theorem seen_same {thread : Thread} {phase : Phase Call Ret Local} (kept : phase.seen = (s.phase thread).seen) :
    (fun other => (Function.update s.phase thread phase other).seen) = fun other => (s.phase other).seen := by
  rw [seen_update, kept]
  exact Function.update_eq_self ..

/-- Somebody who is inside of a body is the thread that moved, or was there before. -/
theorem inside_update {phases : Thread → Phase Call Ret Local} {thread other : Thread}
    {phase : Phase Call Ret Local} {call : Call} {loc : Local}
    (here : Function.update phases thread phase other = .inside call loc) :
    other = thread ∧ phase = .inside call loc ∨ other ≠ thread ∧ phases other = .inside call loc := by
  by_cases same : other = thread
  · subst same
    rw [Function.update_self] at here
    exact Or.inl ⟨rfl, here⟩
  · rw [Function.update_of_ne same] at here
    exact Or.inr ⟨same, here⟩

omit [DecidableEq Thread] in
/-- Without a writer the last one has left what the data are. -/
theorem Linearized.settled_of {data : Data} (lin : Linearized O s data) (nobody : s.writer = none) :
    data = s.data := by
  refine lin.settled fun thread call loc inside => ?_
  by_contra writes
  have writer := (lin.lock.writer thread).mpr ⟨call, by rw [inside]; rfl, Bool.eq_false_iff.mpr writes⟩
  simp [nobody] at writer

/-- A thread that acquires the lock finds what the last writer left. -/
theorem Linearized.step_acquire {data : Data} (lin : Linearized O s data) {thread : Thread} {call : Call}
    {writer : Option Thread} {readers : List Thread} (at_ : s.phase thread = .called call)
    (nobody : s.writer = none) (lock : LockInv O { s with
      writer := writer, readers := readers, phase := Function.update s.phase thread (.inside call (O.start call)) }) :
    Linearized O { s with
      writer := writer, readers := readers, phase := Function.update s.phase thread (.inside call (O.start call)) }
      data ∧ State.seen { s with
        writer := writer, readers := readers, phase := Function.update s.phase thread (.inside call (O.start call)) }
        data = s.seen data := by
  have settled := lin.settled_of nobody
  refine ⟨⟨lock, fun _ => settled, fun other call' loc inside => ?_⟩, ?_⟩
  · rcases inside_update inside with ⟨rfl, here⟩ | ⟨_, old⟩
    · cases here
      rw [settled]
    · exact lin.path other call' loc old
  · have kept : (Phase.inside call (O.start call) : Phase Call Ret Local).seen = (s.phase thread).seen := by
      rw [at_]
      rfl
    simp only [State.seen, seen_same kept]

/-- A thread that neither enters nor leaves a body. -/
theorem Linearized.outside {data : Data} (lin : Linearized O s data) {thread : Thread} {writer : Option Thread}
    {readers : List Thread} {phase : Phase Call Ret Local} {log : List (Event Thread Call Ret)}
    (before : ∀ call loc, s.phase thread ≠ .inside call loc) (after : ∀ call loc, phase ≠ .inside call loc)
    (lock : LockInv O { s with
      writer := writer, readers := readers, phase := Function.update s.phase thread phase, log := log }) :
    Linearized O { s with
      writer := writer, readers := readers, phase := Function.update s.phase thread phase, log := log } data := by
  refine ⟨lock, fun all => lin.settled fun other call loc inside => ?_, fun other call loc inside => ?_⟩
  · refine all other call loc ?_
    rw [← inside]
    refine Function.update_of_ne ?_ _ _
    rintro rfl
    exact before call loc inside
  · rcases inside_update inside with ⟨_, here⟩ | ⟨_, old⟩
    · exact absurd here (after call loc)
    · exact lin.path other call loc old

omit [DecidableEq Thread] in
/-- Beside a reader there is no writer. -/
theorem LockInv.no_writer (inv : LockInv O s) {thread : Thread} {call : Call}
    (holds : (s.phase thread).held = some call) (shared : O.shared call = true) : s.writer = none := by
  by_contra held
  obtain ⟨other, writes⟩ := Option.ne_none_iff_exists'.mp held
  have member := (inv.readers thread).mpr ⟨call, holds, shared⟩
  simp [inv.alone other writes] at member

omit [DecidableEq Thread] in
/-- A step of a body is seen by nobody else: readers leave the data alone, and a writer is alone. -/
theorem Linearized.others_path {data after : Data} (lin : Linearized O s data) {thread : Thread} {call : Call}
    {input : Input} {loc : Local} {next : Local ⊕ Ret} (at_ : s.phase thread = .inside call loc)
    (went : O.body call input s.data loc = some (after, next)) {other : Thread} {call' : Call} {loc' : Local}
    (different : other ≠ thread) (inside : s.phase other = .inside call' loc') :
    after = s.data ∧ O.shared call = true := by
  cases shared : O.shared call with
  | true => exact ⟨O.reads call input s.data loc after next shared went, rfl⟩
  | false =>
    have holds : (s.phase thread).held = some call := by rw [at_]; rfl
    exact absurd (lin.lock.exclusive holds shared (by rw [inside]; rfl)) different

theorem Linearized.step {data : Data} (lin : Linearized O s data) (step : LockedStep O s act s') :
    ∃ data', Linearized O s' data' ∧
      (s'.seen data' = s.seen data ∨ AtomicStep O.Finishes (s.seen data) (s'.seen data')) := by
  have lock := lin.lock.step step
  cases step with
  | @call thread call at_ =>
    refine ⟨data, lin.outside (by simp [at_]) (by simp) lock, Or.inr ?_⟩
    simp only [State.seen, seen_update]
    exact .call (by simp [at_, Phase.seen])
  | share at_ _ nobody =>
    obtain ⟨next, same⟩ := lin.step_acquire at_ nobody lock
    exact ⟨data, next, Or.inl same⟩
  | seize at_ _ nobody =>
    obtain ⟨next, same⟩ := lin.step_acquire at_ nobody lock
    exact ⟨data, next, Or.inl same⟩
  | @go thread call input loc next after at_ went =>
    have holds : (s.phase thread).held = some call := by rw [at_]; rfl
    refine ⟨data, ⟨lock, fun all => ?_, fun other call' loc' inside => ?_⟩, Or.inl ?_⟩
    · have shared := all thread call next (Function.update_self ..)
      have same : after = s.data := O.reads call input s.data loc after _ shared went
      exact (lin.settled_of (lin.lock.no_writer holds shared)).trans same.symm
    · rcases inside_update inside with ⟨rfl, here⟩ | ⟨different, old⟩
      · cases here
        exact (lin.path other call loc at_).tail ⟨input, went⟩
      · obtain ⟨same, _⟩ := lin.others_path at_ went different old
        dsimp only
        rw [same]
        exact lin.path other call' loc' old
    · have kept : (Phase.inside call next : Phase Call Ret Local).seen = (s.phase thread).seen := by
        rw [at_]
        rfl
      simp only [State.seen, seen_same kept]
  | @finish thread call input loc after ret at_ went =>
    have holds : (s.phase thread).held = some call := by rw [at_]; rfl
    refine ⟨after, ⟨lock, fun _ => rfl, fun other call' loc' inside => ?_⟩, Or.inr ?_⟩
    · rcases inside_update inside with ⟨_, here⟩ | ⟨different, old⟩
      · cases here
      · obtain ⟨same, shared⟩ := lin.others_path at_ went different old
        have path := lin.path other call' loc' old
        rwa [lin.settled_of (lin.lock.no_writer holds shared), ← same] at path
    · simp only [State.seen, seen_update]
      exact .act (by simp [at_, Phase.seen]) ⟨(s.data, loc), input, lin.path thread call loc at_, went⟩
  | @unshare thread call ret at_ =>
    refine ⟨data, lin.outside (by simp [at_]) (by simp) lock, Or.inr ?_⟩
    simp only [State.seen, seen_update]
    exact .ret (by simp [at_, Phase.seen])
  | @unlock thread call ret at_ =>
    refine ⟨data, lin.outside (by simp [at_]) (by simp) lock, Or.inr ?_⟩
    simp only [State.seen, seen_update]
    exact .ret (by simp [at_, Phase.seen])

theorem AtomicStep.mono {spec wide : Call → Data → Data → Ret → Prop} {a b : Atomic Thread Data Call Ret}
    (step : AtomicStep spec a b) (weaker : ∀ call data after ret, spec call data after ret → wide call data after ret) :
    AtomicStep wide a b := by
  cases step with
  | call idle => exact .call idle
  | act pending acts => exact .act pending (weaker _ _ _ _ acts)
  | ret pending => exact .ret pending

theorem linearized_reach {data : Data} (reach : Reach O.step anyStep (State.init data) s) :
    ∃ now, Linearized O s now ∧ Relation.ReflTransGen (AtomicStep O.Finishes) (Atomic.init data) (s.seen now) := by
  induction reach with
  | start => exact ⟨data, linearized_init data, .refl⟩
  | next _ _ run ih =>
    obtain ⟨now, lin, path⟩ := ih
    obtain ⟨later, next, same | one⟩ := lin.step (step_spec run)
    · exact ⟨later, next, same ▸ path⟩
    · exact ⟨later, next, path.tail one⟩

/-- However the threads take turns inside and in front of the lock: the callers see what they would see
if each call took effect in one step, and when nobody writes the data are those of the atomic run. -/
theorem linearizable {spec : Call → Data → Data → Ret → Prop} {data : Data}
    (sound : ∀ call data after ret, O.Finishes call data after ret → spec call data after ret)
    (reach : Reach O.step anyStep (State.init data) s) :
    ∃ atomic : Atomic Thread Data Call Ret, Relation.ReflTransGen (AtomicStep spec) (Atomic.init data) atomic ∧
      atomic.log = s.log ∧ (s.writer = none → atomic.data = s.data) := by
  obtain ⟨now, lin, path⟩ := linearized_reach reach
  have wider := Relation.ReflTransGen.mono (fun _ _ (step : AtomicStep O.Finishes _ _) => step.mono sound) _ _ path
  exact ⟨s.seen now, wider, rfl, lin.settled_of⟩

/-- As long as some thread has not returned, some step other than a new call is possible, when no body
gets stuck. -/
theorem never_stuck {data : Data} (live : ∀ call before now loc,
      Relation.ReflTransGen (O.Moves call) (before, O.start call) (now, loc) →
        ∃ input, (O.body call input now loc).isSome)
    (reach : Reach O.step anyStep (State.init data) s) {thread : Thread} (busy : (s.phase thread).seen ≠ none) :
    ∃ act, (O.step act s).isSome ∧ ∀ other call, act ≠ .call other call := by
  obtain ⟨now, lin, _⟩ := linearized_reach reach
  by_cases somebody : ∃ other call, (s.phase other).held = some call
  · obtain ⟨other, call, holds⟩ := somebody
    cases at_ : s.phase other with
    | inside call loc =>
      obtain ⟨input, goes⟩ := live call now s.data loc (lin.path other call loc at_)
      obtain ⟨⟨after, next⟩, went⟩ := Option.isSome_iff_exists.mp goes
      refine ⟨.body other input, ?_, nofun⟩
      cases next with
      | inl next => simp [step, at_, went]
      | inr ret => simp [step, at_, went]
    | leaving call ret => exact ⟨.release other, by simp [step, at_], nofun⟩
    | _ => simp [at_, Phase.held] at holds
  · have nobody : s.writer = none := by
      by_contra held
      obtain ⟨other, writes⟩ := Option.ne_none_iff_exists'.mp held
      obtain ⟨call, holds, _⟩ := (lin.lock.writer other).mp writes
      exact somebody ⟨other, call, holds⟩
    have none : s.readers = [] := List.eq_nil_iff_forall_not_mem.mpr fun other member => by
      obtain ⟨call, holds, _⟩ := (lin.lock.readers other).mp member
      exact somebody ⟨other, call, holds⟩
    cases at_ : s.phase thread with
    | idle => simp [at_, Phase.seen] at busy
    | called call => exact ⟨.acquire thread, by simp [step, at_, nobody, none], nofun⟩
    | inside call loc => exact absurd ⟨thread, call, by rw [at_]; rfl⟩ somebody
    | leaving call ret => exact absurd ⟨thread, call, by rw [at_]; rfl⟩ somebody

end Atomic

end LockedObject
