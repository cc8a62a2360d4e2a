import Mathlib.Data.List.Basic
import Mathlib.Data.List.Nodup
import Mathlib.Logic.Relation
import Mathlib.Logic.Function.Basic

/-- What a worker has in hand: nothing, a job that it took, or one that it has begun. -/
inductive Hand (Job : Type)
  | empty
  | fresh (job : Job)
  | begun (job : Job)

def Hand.job {Job : Type} : Hand Job → Option Job
  | .empty => none
  | .fresh job | .begun job => some job

/-- Jobs that one source issues and hands over through a queue to workers, with the record of what
has happened to them. -/
structure JobBoard (Worker Job : Type) where
  issued : List Job
  offered : Option Job
  waiting : List Job
  hand : Worker → Hand Job
  taken : List Job
  begun : List Job
  finished : List Job
  withdrawn : List Job

namespace JobBoard

variable {Worker Job : Type} [DecidableEq Worker]

/-- A job is issued once, and the source offers it until it is in the queue. Workers take jobs from
the front; withdrawing starts at the back, and nothing is put into the queue after it. -/
inductive Step (b : JobBoard Worker Job) : JobBoard Worker Job → Prop
  | issue {job} : b.offered = none → job ∉ b.issued →
      Step b { b with issued := b.issued ++ [job], offered := some job }
  | submit {job} : b.offered = some job → b.withdrawn = [] →
      Step b { b with offered := none, waiting := b.waiting ++ [job] }
  | take {i job later} : b.hand i = .empty → b.waiting = job :: later →
      Step b { b with
        waiting := later, hand := Function.update b.hand i (.fresh job), taken := b.taken ++ [job] }
  | begin {i job} : b.hand i = .fresh job →
      Step b { b with hand := Function.update b.hand i (.begun job), begun := b.begun ++ [job] }
  | finish {i job} : b.hand i = .begun job →
      Step b { b with hand := Function.update b.hand i .empty, finished := b.finished ++ [job] }
  | withdraw {earlier job} : b.waiting = earlier ++ [job] →
      Step b { b with
        waiting := earlier, withdrawn := job :: b.withdrawn, finished := b.finished ++ [job] }

/-- Where a job can be. -/
inductive Place (Worker : Type)
  | offered
  | waiting
  | hand (i : Worker)
  | finished

/-- The job is at the place. -/
def At (b : JobBoard Worker Job) (job : Job) : Place Worker → Prop
  | .offered => b.offered = some job
  | .waiting => job ∈ b.waiting
  | .hand i => (b.hand i).job = some job
  | .finished => job ∈ b.finished

/-- No job is lost, doubled or overtaken. -/
structure Kept (b : JobBoard Worker Job) : Prop where
  once : b.issued.Nodup
  order : b.taken ++ b.waiting ++ b.withdrawn ++ b.offered.toList = b.issued
  held : ∀ i job, (b.hand i).job = some job → job ∈ b.taken ∧ job ∉ b.finished
  alone : ∀ i j job, (b.hand i).job = some job → (b.hand j).job = some job → i = j
  fresh : ∀ i job, b.hand i = .fresh job → job ∉ b.begun
  started : ∀ i job, b.hand i = .begun job → job ∈ b.begun
  beginsOnce : b.begun.Nodup
  begunTaken : ∀ job ∈ b.begun, job ∈ b.taken
  followed : ∀ job ∈ b.taken, job ∈ b.finished ∨ ∃ i, (b.hand i).job = some job
  finishesOnce : b.finished.Nodup
  finishedFrom : ∀ job ∈ b.finished, job ∈ b.begun ∨ job ∈ b.withdrawn
  withdrawnFinished : ∀ job ∈ b.withdrawn, job ∈ b.finished

variable {b b' : JobBoard Worker Job}

omit [DecidableEq Worker] in
theorem kept_of_empty (issued : b.issued = []) (offered : b.offered = none) (waiting : b.waiting = [])
    (hand : ∀ i, b.hand i = .empty) (taken : b.taken = []) (begun : b.begun = [])
    (finished : b.finished = []) (withdrawn : b.withdrawn = []) : Kept b := by
  constructor <;> simp [issued, offered, waiting, hand, taken, begun, finished, withdrawn, Hand.job]

omit [DecidableEq Worker] in
/-- A job that was issued is in one of the parts of the record. -/
theorem Kept.parts (kept : Kept b) :
    (b.taken ++ b.waiting ++ b.withdrawn ++ b.offered.toList).Nodup := by
  rw [kept.order]
  exact kept.once

omit [DecidableEq Worker] in
theorem Kept.finished_taken_or_withdrawn (kept : Kept b) {job : Job} (finished : job ∈ b.finished) :
    job ∈ b.taken ∨ job ∈ b.withdrawn :=
  (kept.finishedFrom job finished).imp_left (kept.begunTaken job)

omit [DecidableEq Worker] in
theorem Kept.waiting_apart (kept : Kept b) {job : Job} (waits : job ∈ b.waiting) :
    job ∉ b.taken ∧ job ∉ b.withdrawn ∧ b.offered ≠ some job := by
  have parts := kept.parts
  simp only [List.nodup_append, List.mem_append, Option.mem_toList] at parts
  grind

omit [DecidableEq Worker] in
theorem Kept.offered_apart (kept : Kept b) {job : Job} (offered : b.offered = some job) :
    job ∉ b.taken ∧ job ∉ b.withdrawn := by
  have parts := kept.parts
  simp only [List.nodup_append, List.mem_append, Option.mem_toList] at parts
  grind

omit [DecidableEq Worker] in
/-- Nothing has happened to a job that no worker took and that was not withdrawn. -/
theorem Kept.untouched (kept : Kept b) {job : Job} (untaken : job ∉ b.taken) (stays : job ∉ b.withdrawn) :
    job ∉ b.begun ∧ job ∉ b.finished ∧ ∀ i, (b.hand i).job ≠ some job := by
  refine ⟨fun begun => untaken (kept.begunTaken job begun), fun finished => ?_, fun i held => ?_⟩
  · rcases kept.finished_taken_or_withdrawn finished with taken | withdrawn
    · exact untaken taken
    · exact stays withdrawn
  · exact untaken (kept.held i job held).1

omit [DecidableEq Worker] in
theorem Kept.waiting_untouched (kept : Kept b) {job : Job} (waits : job ∈ b.waiting) :
    job ∉ b.begun ∧ job ∉ b.finished ∧ ∀ i, (b.hand i).job ≠ some job :=
  kept.untouched (kept.waiting_apart waits).1 (kept.waiting_apart waits).2.1

omit [DecidableEq Worker] in
theorem Kept.offered_untouched (kept : Kept b) {job : Job} (offered : b.offered = some job) :
    job ∉ b.begun ∧ job ∉ b.finished ∧ ∀ i, (b.hand i).job ≠ some job :=
  kept.untouched (kept.offered_apart offered).1 (kept.offered_apart offered).2

theorem Kept.take (kept : Kept b) {i : Worker} {job : Job} {later : List Job} (idle : b.hand i = .empty)
    (queue : b.waiting = job :: later) :
    Kept { b with
      waiting := later, hand := Function.update b.hand i (.fresh job), taken := b.taken ++ [job] } := by
  obtain ⟨unbegun, unfinished, unheld⟩ := kept.waiting_untouched (queue ▸ List.mem_cons_self ..)
  have hand : ∀ j job', (Function.update b.hand i (.fresh job) j).job = some job' →
      j = i ∧ job' = job ∨ j ≠ i ∧ (b.hand j).job = some job' := by
    intro j job' held
    by_cases same : j = i
    · simp only [same, Function.update_self, Hand.job, Option.some.injEq] at held
      exact Or.inl ⟨same, held.symm⟩
    · exact Or.inr ⟨same, by simpa [same] using held⟩
  refine { kept with
    order := by simp [← kept.order, queue]
    held := fun j job' held => ?_
    alone := fun j k job' left right => ?_
    fresh := fun j job' here => ?_
    started := fun j job' here => ?_
    begunTaken := fun job' begun => List.mem_append_left _ (kept.begunTaken job' begun)
    followed := fun job' taken => ?_ }
  · rcases hand j job' held with ⟨_, rfl⟩ | ⟨_, old⟩
    · exact ⟨by simp, unfinished⟩
    · exact ⟨List.mem_append_left _ (kept.held j job' old).1, (kept.held j job' old).2⟩
  · rcases hand j job' left with ⟨rfl, rfl⟩ | ⟨_, oldLeft⟩ <;>
      rcases hand k job' right with ⟨atK, eq⟩ | ⟨_, oldRight⟩
    · exact atK.symm
    · exact absurd oldRight (unheld k)
    · exact absurd (eq ▸ oldLeft) (unheld j)
    · exact kept.alone j k job' oldLeft oldRight
  · by_cases same : j = i
    · simp only [same, Function.update_self, Hand.fresh.injEq] at here
      exact here ▸ unbegun
    · exact kept.fresh j job' (by simpa [same] using here)
  · by_cases same : j = i
    · simp [same] at here
    · exact kept.started j job' (by simpa [same] using here)
  · rcases List.mem_append.mp taken with old | new
    · rcases kept.followed job' old with finished | ⟨j, held⟩
      · exact Or.inl finished
      · have other : j ≠ i := by rintro rfl; simp [idle, Hand.job] at held
        exact Or.inr ⟨j, by simpa [other] using held⟩
    · exact Or.inr ⟨i, by simp [List.mem_singleton.mp new, Hand.job]⟩

theorem Kept.begin (kept : Kept b) {i : Worker} {job : Job} (idle : b.hand i = .fresh job) :
    Kept { b with hand := Function.update b.hand i (.begun job), begun := b.begun ++ [job] } := by
  have unbegun := kept.fresh i job idle
  have taken := kept.held i job (by rw [idle]; rfl)
  have hand : ∀ j, (Function.update b.hand i (.begun job) j).job = (b.hand j).job := by
    intro j
    by_cases same : j = i
    · simp [same, idle, Hand.job]
    · simp [same]
  refine { kept with
    held := fun j job' held => kept.held j job' (hand j ▸ held)
    alone := fun j k job' left right => kept.alone j k job' (hand j ▸ left) (hand k ▸ right)
    fresh := fun j job' here => ?_
    started := fun j job' here => ?_
    beginsOnce := by simpa using kept.beginsOnce.concat unbegun
    begunTaken := fun job' begun => ?_
    followed := fun job' taken => (kept.followed job' taken).imp_right fun ⟨j, held⟩ => ⟨j, (hand j).trans held⟩
    finishedFrom := fun job' finished =>
      (kept.finishedFrom job' finished).imp_left (List.mem_append_left _) }
  · have other : j ≠ i := by rintro rfl; simp at here
    have old : b.hand j = .fresh job' := by simpa [other] using here
    have different : job' ≠ job := by
      rintro rfl
      exact other (kept.alone j i job' (by rw [old]; rfl) (by rw [idle]; rfl))
    simpa [different] using kept.fresh j job' old
  · by_cases same : j = i
    · simp only [same, Function.update_self, Hand.begun.injEq] at here
      simp [here]
    · exact List.mem_append_left _ (kept.started j job' (by simpa [same] using here))
  · rcases List.mem_append.mp begun with old | new
    · exact kept.begunTaken job' old
    · exact List.mem_singleton.mp new ▸ taken.1

theorem Kept.finish (kept : Kept b) {i : Worker} {job : Job} (busy : b.hand i = .begun job) :
    Kept { b with hand := Function.update b.hand i .empty, finished := b.finished ++ [job] } := by
  have holds : (b.hand i).job = some job := by rw [busy]; rfl
  have begun := kept.started i job busy
  have held := kept.held i job holds
  have hand : ∀ j job', (Function.update b.hand i .empty j).job = some job' → j ≠ i ∧ (b.hand j).job = some job' := by
    intro j job' here
    have other : j ≠ i := by rintro rfl; simp [Hand.job] at here
    exact ⟨other, by simpa [other] using here⟩
  refine { kept with
    held := fun j job' here => ?_
    alone := fun j k job' left right => kept.alone j k job' (hand j job' left).2 (hand k job' right).2
    fresh := fun j job' here => ?_
    started := fun j job' here => ?_
    followed := fun job' taken => ?_
    finishesOnce := by simpa using kept.finishesOnce.concat held.2
    finishedFrom := fun job' finished => ?_
    withdrawnFinished := fun job' withdrawn => List.mem_append_left _ (kept.withdrawnFinished job' withdrawn) }
  · obtain ⟨other, old⟩ := hand j job' here
    have different : job' ≠ job := by
      rintro rfl
      exact other (kept.alone j i job' old holds)
    exact ⟨(kept.held j job' old).1, by simpa [different] using (kept.held j job' old).2⟩
  · have other : j ≠ i := by rintro rfl; simp at here
    exact kept.fresh j job' (by simpa [other] using here)
  · have other : j ≠ i := by rintro rfl; simp at here
    exact kept.started j job' (by simpa [other] using here)
  · rcases kept.followed job' taken with finished | ⟨j, old⟩
    · exact Or.inl (List.mem_append_left _ finished)
    · by_cases same : j = i
      · rw [same, holds] at old
        exact Or.inl (by simp [Option.some.inj old])
      · exact Or.inr ⟨j, by simpa [same] using old⟩
  · rcases List.mem_append.mp finished with old | new
    · exact kept.finishedFrom job' old
    · exact Or.inl (List.mem_singleton.mp new ▸ begun)

omit [DecidableEq Worker] in
theorem Kept.withdraw (kept : Kept b) {earlier : List Job} {job : Job} (queue : b.waiting = earlier ++ [job]) :
    Kept { b with waiting := earlier, withdrawn := job :: b.withdrawn, finished := b.finished ++ [job] } := by
  obtain ⟨_, unfinished, unheld⟩ := kept.waiting_untouched (show job ∈ b.waiting by simp [queue])
  refine { kept with
    order := by simp [← kept.order, queue]
    held := fun j job' held => ?_
    followed := fun job' taken => (kept.followed job' taken).imp_left (List.mem_append_left _)
    finishesOnce := by simpa using kept.finishesOnce.concat unfinished
    finishedFrom := fun job' finished => ?_
    withdrawnFinished := fun job' withdrawn => ?_ }
  · have different : job' ≠ job := by
      rintro rfl
      exact unheld j held
    exact ⟨(kept.held j job' held).1, by simpa [different] using (kept.held j job' held).2⟩
  · rcases List.mem_append.mp finished with old | new
    · exact (kept.finishedFrom job' old).imp_right (List.mem_cons_of_mem _)
    · exact Or.inr (List.mem_singleton.mp new ▸ List.mem_cons_self ..)
  · rcases List.mem_cons.mp withdrawn with rfl | old
    · simp
    · exact List.mem_append_left _ (kept.withdrawnFinished job' old)

theorem Kept.step (kept : Kept b) (step : Step b b') : Kept b' := by
  cases step with
  | @issue job idle new =>
    exact { kept with
      once := by simpa using kept.once.concat new
      order := by simp [← kept.order, idle] }
  | submit offered closed =>
    exact { kept with order := by simp [← kept.order, offered, closed] }
  | take idle queue => exact kept.take idle queue
  | begin fresh => exact kept.begin fresh
  | finish busy => exact kept.finish busy
  | withdraw queue => exact kept.withdraw queue

/-- However a board came about from an empty one, no job is lost, doubled or overtaken. -/
theorem Kept.run (kept : Kept b) (run : Relation.ReflTransGen Step b b') : Kept b' := by
  induction run with
  | refl => exact kept
  | tail _ step ih => exact ih.step step

omit [DecidableEq Worker] in
/-- Every job that was issued is in exactly one place. -/
theorem Kept.place (kept : Kept b) {job : Job} (issued : job ∈ b.issued) : ∃! place, b.At job place := by
  have somewhere : ∃ place, b.At job place := by
    rw [← kept.order] at issued
    simp only [List.mem_append, Option.mem_toList] at issued
    rcases issued with ((taken | waiting) | withdrawn) | offered
    · rcases kept.followed job taken with finished | ⟨i, held⟩
      · exact ⟨.finished, finished⟩
      · exact ⟨.hand i, held⟩
    · exact ⟨.waiting, waiting⟩
    · exact ⟨.finished, kept.withdrawnFinished job withdrawn⟩
    · exact ⟨.offered, offered⟩
  refine existsUnique_of_exists_of_unique somewhere fun left right atLeft atRight => ?_
  cases left with
  | offered =>
    obtain ⟨_, unfinished, unheld⟩ := kept.offered_untouched atLeft
    cases right with
    | offered => rfl
    | waiting => exact absurd atLeft (kept.waiting_apart atRight).2.2
    | hand i => exact absurd atRight (unheld i)
    | finished => exact absurd atRight unfinished
  | waiting =>
    obtain ⟨_, unfinished, unheld⟩ := kept.waiting_untouched atLeft
    cases right with
    | offered => exact absurd atRight (kept.waiting_apart atLeft).2.2
    | waiting => rfl
    | hand i => exact absurd atRight (unheld i)
    | finished => exact absurd atRight unfinished
  | hand i =>
    cases right with
    | offered => exact absurd atLeft ((kept.offered_untouched atRight).2.2 i)
    | waiting => exact absurd atLeft ((kept.waiting_untouched atRight).2.2 i)
    | hand j => rw [kept.alone i j job atLeft atRight]
    | finished => exact absurd atRight (kept.held i job atLeft).2
  | finished =>
    cases right with
    | offered => exact absurd atLeft (kept.offered_untouched atRight).2.1
    | waiting => exact absurd atLeft (kept.waiting_untouched atRight).2.1
    | hand j => exact absurd atLeft (kept.held j job atRight).2
    | finished => rfl

end JobBoard
