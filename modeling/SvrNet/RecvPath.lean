import SvrNet.LoopSpec

namespace SvrNet
open CData

variable {α β : Type}

/-- The first `count` cells of the receive buffer are in use. -/
def Filled (recvBuff : List α) (count : Int) : Prop :=
  0 ≤ count ∧ count ≤ recvBuff.length ∧ count ≤ netRecvBuffSize

section Parse

variable [Cell α]

/-- What `parse_pack` does to a filled buffer: either the packet at its front is unfinished and
nothing changes, or it is taken off as it is. -/
theorem parsePack_filled {recvBuff : List α} {err : Int} (filled : Filled recvBuff err)
    (sized : netPkg.TotalsLe intMax (recvBuff.take err.toNat)) :
    (¬ netPkg.Complete (recvBuff.take err.toNat) ∧ parsePack recvBuff err = some ⟨0, none, recvBuff, err⟩) ∨
      ∃ pack buf bufLen, parsePack recvBuff err = some ⟨pack.length, some pack, buf, bufLen⟩ ∧
        netPkg.IsFrame pack ∧ recvBuff.take err.toNat = pack ++ buf.take bufLen.toNat ∧ Filled buf bufLen := by
  obtain ⟨nonneg, inside, bound⟩ := filled
  obtain ⟨size, rfl⟩ := Int.eq_ofNat_of_zero_le nonneg
  rw [Int.toNat_natCast] at sized ⊢
  have small : size ≤ intMax := (Int.ofNat_le.mp bound).trans (by decide)
  have here : size ≤ recvBuff.length := Int.ofNat_le.mp inside
  by_cases complete : netPkg.Complete (recvBuff.take size)
  · right
    have whole := complete.take_isFrame
    have fits := complete.2
    rw [List.length_take_of_le here] at fits
    have length : ((recvBuff.take size).take (netPkg.total (recvBuff.take size))).length =
        netPkg.total (recvBuff.take size) := List.length_take_of_le complete.2
    refine ⟨(recvBuff.take size).take (netPkg.total (recvBuff.take size)),
      memmove recvBuff 0 (netPkg.total (recvBuff.take size)) (size - netPkg.total (recvBuff.take size)),
      (size - netPkg.total (recvBuff.take size) : Nat), ?_, whole, ?_, ?_⟩
    · rw [parsePack_complete here small complete, length]
    · rw [Int.toNat_natCast, take_memmove_front (by omega), ← List.drop_take, List.take_append_drop]
    · refine ⟨by omega, ?_, ?_⟩
      · rw [length_memmove_front]
        omega
      · omega
  · exact Or.inl ⟨complete, parsePack_incomplete here small sized complete⟩

end Parse

/-- The unfinished packet kept for a connection; nothing when there is no entry. -/
def cached (net : NetSvr α β) (id : ConnId) : List α := (net.recvMap id).getD []

/-- The bytes of the connection being handled that were received but not handed on. -/
def inHeld (kept : List α) : InPc α → List α
  | .find recvBuff err => kept ++ recvBuff.take err.toNat
  | .uncache recvBuff err | .parse recvBuff err => recvBuff.take err.toNat
  | .push recvBuff err pack _ => pack ++ recvBuff.take err.toNat
  | .recv recvBuff cacheSize | .store recvBuff cacheSize => recvBuff.take cacheSize.toNat
  | _ => kept

/-- The bytes of any connection that were received but not handed on: between two handler runs
those in the receive map, inside a run those in the buffer as well. -/
def held (net : NetSvr α β) (pc : LoopPc α β) (id : ConnId) : List α :=
  match pc with
  | .epollin connid _ pc => if connid = id then inHeld (cached net id) pc else cached net id
  | _ => cached net id

variable {net net' : NetSvr α β} {connid : ConnId} {curfd : Int} {pc pc₂ : InPc α}

@[simp] theorem inHeld_firstRecv (kept : List α) : inHeld kept .firstRecv = kept := rfl

@[simp] theorem held_self : held net (.epollin connid curfd pc) connid = inHeld (cached net connid) pc := by
  simp [held]

@[simp] theorem held_idle (id : ConnId) : held net (.idle : LoopPc α β) id = cached net id := rfl

theorem held_other {id : ConnId} (other : id ≠ connid) :
    held net (.epollin connid curfd pc) id = cached net id := by
  simp [held, Ne.symm other]

theorem cached_congr (same : net'.recvMap = net.recvMap) : cached net' = cached net := by
  funext id
  rw [cached, same, cached]

/-- What is held depends on the receive map alone, and on the locals of a readable event. -/
theorem held_congr {pc : LoopPc α β} (same : net'.recvMap = net.recvMap) : held net' pc = held net pc := by
  funext id
  cases pc <;> simp [held, cached_congr same]

theorem cached_of_none (missing : net.recvMap connid = none) : cached net connid = [] := by
  simp [cached, missing]

variable [Cell α]

/-- What the local variables of the handler say at each of its points. -/
def InLocals (net : NetSvr α β) (connid : ConnId) : InPc α → Prop
  | .find recvBuff err => err = recvBuff.length ∧ recvBuff.length ≤ netRecvSizeLimit ∧
      (cached net connid).length ≤ netRemainCacheSize
  | .uncache recvBuff err => Filled recvBuff err
  | .parse recvBuff err => Filled recvBuff err ∧ net.recvMap connid = none
  | .push recvBuff err pack packLen => Filled recvBuff err ∧ net.recvMap connid = none ∧
      netPkg.IsFrame pack ∧ packLen = pack.length
  | .recv recvBuff cacheSize => Filled recvBuff cacheSize ∧ net.recvMap connid = none ∧
      ¬ netPkg.Complete (recvBuff.take cacheSize.toNat)
  | .store recvBuff cacheSize => Filled recvBuff cacheSize ∧ net.recvMap connid = none ∧
      ¬ netPkg.Complete (recvBuff.take cacheSize.toNat) ∧ cacheSize ≠ 0
  | _ => True

def InPc.isFirstRecv : InPc α → Bool
  | .firstRecv => true
  | _ => false

/-- The steps that give up what is held of a connection: it is closed, or `recv` failed. -/
def Leaves (pc : InPc α) (act : LoopAct α) : Prop :=
  act = .recv .closed ∨ pc = .forget ∨ ∃ errno : Errno, errno.again = false ∧ act = .recv (.fail errno)

/-- How a step of the handler moves bytes: new ones are put behind what is held, and a packet
that is handed on is taken off the front. -/
def HeldChange (connid : ConnId) (pc : InPc α) (act : LoopAct α) (event : LoopEvent α β)
    (old new : ConnId → List α) : Prop :=
  (∀ id, id ≠ connid → new id = old id) ∧
    match event with
    | .received id _ bytes => id = connid ∧ new connid = old connid ++ bytes
    | .handed _ work => work = ⟨connid, work.data.length, work.data⟩ ∧ netPkg.IsFrame work.data ∧
        old connid = work.data ++ new connid
    | _ => new connid = old connid ∨ new connid = [] ∧ Leaves pc act

theorem InStep.held_other {asserts : Bool} {act : LoopAct α} {pc' : LoopPc α β}
    {event : LoopEvent α β} {id : ConnId} (step : InStep asserts net connid curfd pc act net' pc' event)
    (other : id ≠ connid) : held net' pc' id = held net (.epollin connid curfd pc) id := by
  have same : cached net' id = cached net id := by rw [cached, step.recvMap_other other, cached]
  rw [SvrNet.held_other other]
  rcases step.pc_next with rfl | ⟨fault, rfl⟩ | ⟨next, rfl⟩
  · exact same
  · exact same
  · rw [SvrNet.held_other other, same]

/-- Each step of the handler moves the bytes it holds as its event says. -/
theorem InStep.held_change {act : LoopAct α} {pc' : LoopPc α β} {event : LoopEvent α β}
    (step : InStep true net connid curfd pc act net' pc' event) (locals : InLocals net connid pc)
    (sized : netPkg.TotalsLe intMax (inHeld (cached net connid) pc))
    (noFault : ∀ fault, pc' ≠ .fault fault) :
    HeldChange connid pc act event (held net (.epollin connid curfd pc)) (held net' pc') := by
  refine ⟨fun id other => step.held_other other, ?_⟩
  rw [held_self]
  cases step with
  | firstData => simp [inHeld]
  | firstClosed | firstAgain | purge | drop | close => exact Or.inl (by simp [inHeld, cached])
  | firstError => exact Or.inl rfl
  | findMissing missing => exact Or.inl (by simp [inHeld, cached, missing])
  | findBeyond | parseFault | recvBeyond | storeTaken => exact absurd rfl (noFault _)
  | findLong found long next =>
    obtain ⟨_, _, short⟩ := locals
    rw [cached, found, Option.getD_some] at short
    omega
  | @findCached recvBuff kept err found short inside =>
    obtain ⟨rfl, bound, _⟩ := locals
    refine Or.inl ?_
    have joined : _ = kept ++ _ := take_writeAt_memmove (le_refl recvBuff.length)
    rw [held_self, inHeld, inHeld, cached, found, Option.getD_some, Int.toNat_natCast,
      ← Nat.cast_add, Int.toNat_natCast, Nat.add_comm, joined]
  | uncache => exact Or.inl (by simp [inHeld])
  | @parsePacket recvBuff err parsed done packet =>
    obtain ⟨filled, _⟩ := locals
    rcases parsePack_filled filled sized with ⟨_, none⟩ | ⟨pack, buf, bufLen, some, _, split, _⟩
    · cases done.symm.trans none
      exact absurd rfl packet
    · cases done.symm.trans some
      exact Or.inl (by simp [inHeld, split])
  | @parseDone recvBuff err parsed done unfinished =>
    obtain ⟨filled, _⟩ := locals
    rcases parsePack_filled filled sized with ⟨_, none⟩ | ⟨pack, buf, bufLen, some, whole, _⟩
    · cases done.symm.trans none
      exact Or.inl (by simp [inHeld])
    · cases done.symm.trans some
      exact absurd (List.length_eq_zero_iff.mp (Int.ofNat_eq_zero.mp unfinished)) whole.ne_nil
  | pushFull => exact Or.inl (by simp [inHeld])
  | @pushDone recvBuff pack err packLen room =>
    obtain ⟨_, _, whole, rfl⟩ := locals
    exact ⟨rfl, whole, by simp [inHeld]⟩
  | @recvData recvBuff bytes cacheSize some bound inside =>
    obtain ⟨⟨nonneg, here, _⟩, _⟩ := locals
    obtain ⟨size, rfl⟩ := Int.eq_ofNat_of_zero_le nonneg
    refine ⟨rfl, ?_⟩
    rw [held_self, inHeld, inHeld, Int.toNat_natCast, Int.add_comm, ← Nat.cast_add, Int.toNat_natCast,
      take_writeAt (Int.ofNat_le.mp here)]
  | recvClosed =>
    obtain ⟨_, missing, _⟩ := locals
    exact Or.inr ⟨by simp [inHeld, cached_of_none missing], Or.inl rfl⟩
  | recvAgain => exact Or.inl (by simp [inHeld])
  | recvAgainEmpty again empty =>
    obtain ⟨_, missing, _⟩ := locals
    subst empty
    exact Or.inl (by simp [inHeld, cached_of_none missing])
  | recvError failed =>
    obtain ⟨_, missing, _⟩ := locals
    exact Or.inr ⟨by simp [cached_of_none missing], Or.inr (Or.inr ⟨_, failed, rfl⟩)⟩
  | @storeDone recvBuff cacheSize =>
    obtain ⟨⟨nonneg, _, bound⟩, _⟩ := locals
    have size : toSize cacheSize = cacheSize.toNat :=
      toSize_of_nonneg nonneg (bound.trans_lt (by decide))
    exact Or.inl (by simp [inHeld, cached, size])
  | storeSkipped asserts => simp at asserts
  | forget => exact Or.inr ⟨by simp [inHeld, cached, mRecvRemove], Or.inr (Or.inl rfl)⟩

/-- New bytes that the receive path can take: every announced size is a positive `int`, the
unfinished packet at their end is smaller than one `recv` asks for, and the one kept from the run
before fits into the cache buffer. -/
def Admitted (net : NetSvr α β) (connid : ConnId) (pc : InPc α) (bytes : List α) : Prop :=
  netPkg.TotalsLe intMax (inHeld (cached net connid) pc ++ bytes) ∧
    (netPkg.rest (inHeld (cached net connid) pc ++ bytes)).length < netRecvSizeLimit ∧
    (pc.isFirstRecv = true → (cached net connid).length ≤ netRemainCacheSize)

instance (net : NetSvr α β) (connid : ConnId) (pc : InPc α) (bytes : List α) :
    Decidable (Admitted net connid pc bytes) := inferInstanceAs (Decidable (_ ∧ _ ∧ _))

/-- The invariant of the receive path over the shared map and the locals of the loop thread. -/
structure RecvInv (net : NetSvr α β) (pc : LoopPc α β) : Prop where
  noFault : ∀ fault, pc ≠ .fault fault
  sized : ∀ id, netPkg.TotalsLe intMax (held net pc id)
  short : ∀ id, (netPkg.rest (held net pc id)).length < netRecvSizeLimit
  kept : ∀ id data, net.recvMap id = some data → data ≠ [] ∧ ¬ netPkg.Complete data
  locals : ∀ connid curfd inPc, pc = .epollin connid curfd inPc → InLocals net connid inPc

theorem RecvInv.cached_incomplete {pc : LoopPc α β} (inv : RecvInv net pc) (id : ConnId) :
    ¬ netPkg.Complete (cached net id) := by
  cases entry : net.recvMap id with
  | none => rw [cached_of_none entry]; exact Framing.not_complete_nil
  | some data =>
    rw [cached, entry]
    exact (inv.kept id data entry).2

section Invariant

variable {act : LoopAct α} {pc' : LoopPc α β} {event : LoopEvent α β}

/-- In front of a `recv` of the loop the buffer holds less than the call may ask for. -/
theorem RecvInv.recv_room {recvBuff : List α} {cacheSize : Int}
    (inv : RecvInv net (.epollin connid curfd (.recv recvBuff cacheSize) : LoopPc α β)) :
    0 ≤ cacheSize ∧ cacheSize < netRecvSizeLimit ∧ recvCount cacheSize = netRecvSizeLimit - cacheSize := by
  obtain ⟨⟨nonneg, inside, _⟩, _, incomplete⟩ := inv.locals _ _ _ rfl
  have small := inv.short connid
  rw [held_self, inHeld, Framing.rest_of_incomplete incomplete, List.length_take] at small
  have room : cacheSize < netRecvSizeLimit := by omega
  have limit : (netRecvSizeLimit : Int) < 2 ^ 64 := by decide
  refine ⟨nonneg, room, ?_⟩
  rw [recvCount, toSize_of_nonneg (by omega) (by omega)]
  omega

theorem InStep.no_fault (step : InStep true net connid curfd pc act net' pc' event)
    (inv : RecvInv net (.epollin connid curfd pc)) (fault : Fault) : pc' ≠ .fault fault := by
  have locals := inv.locals _ _ _ rfl
  obtain ⟨_, buff, cache, recvLimit, _⟩ := limits
  rintro rfl
  cases step with
  | findBeyond found short beyond =>
    obtain ⟨rfl, bound, _⟩ := locals
    omega
  | findLong found long =>
    obtain ⟨_, _, short⟩ := locals
    rw [cached, found, Option.getD_some] at short
    omega
  | parseFault failed =>
    have sized := inv.sized connid
    rw [held_self] at sized
    rcases parsePack_filled locals.1 sized with ⟨_, none⟩ | ⟨_, _, _, some, _⟩
    · simp [none] at failed
    · simp [some] at failed
  | recvBeyond bound beyond =>
    obtain ⟨_, _, count⟩ := inv.recv_room
    omega
  | storeTaken _ taken => exact taken locals.2.1

theorem InStep.locals_next {next : InPc α}
    (step : InStep true net connid curfd pc act net' (.epollin connid curfd next) event)
    (inv : RecvInv net (.epollin connid curfd pc))
    (admitted : ∀ bytes, act = .recv (.data bytes) → Admitted net connid pc bytes) :
    InLocals net' connid next := by
  have locals := inv.locals _ _ _ rfl
  obtain ⟨_, buff, cache, recvLimit, _⟩ := limits
  cases step with
  | firstData _ bound => exact ⟨rfl, bound, (admitted _ rfl).2.2 rfl⟩
  | findMissing =>
    obtain ⟨rfl, bound, _⟩ := locals
    exact ⟨by omega, le_rfl, by omega⟩
  | findLong found long =>
    obtain ⟨_, _, short⟩ := locals
    rw [cached, found, Option.getD_some] at short
    omega
  | findCached found short inside =>
    obtain ⟨rfl, bound, _⟩ := locals
    refine ⟨by omega, ?_, by omega⟩
    rw [length_writeAt_memmove, Int.toNat_natCast]
    omega
  | uncache => exact ⟨locals, by simp [mRecvRemove]⟩
  | parsePacket done packet =>
    obtain ⟨filled, missing⟩ := locals
    have sized := inv.sized connid
    rw [held_self] at sized
    rcases parsePack_filled filled sized with ⟨_, none⟩ | ⟨pack, buf, bufLen, some, whole, _, left⟩
    · cases done.symm.trans none
      exact absurd rfl packet
    · cases done.symm.trans some
      exact ⟨left, missing, whole, rfl⟩
  | parseDone done unfinished =>
    obtain ⟨filled, missing⟩ := locals
    have sized := inv.sized connid
    rw [held_self] at sized
    rcases parsePack_filled filled sized with ⟨incomplete, none⟩ | ⟨pack, buf, bufLen, some, whole, _⟩
    · cases done.symm.trans none
      exact ⟨filled, missing, incomplete⟩
    · cases done.symm.trans some
      exact absurd (List.length_eq_zero_iff.mp (Int.ofNat_eq_zero.mp unfinished)) whole.ne_nil
  | pushFull => exact locals
  | pushDone => exact ⟨locals.1, locals.2.1⟩
  | recvData _ _ inside =>
    obtain ⟨⟨nonneg, here, _⟩, missing, _⟩ := locals
    refine ⟨⟨by omega, ?_, by omega⟩, missing⟩
    rw [length_writeAt]
    omega
  | recvAgain _ left => exact ⟨locals.1, locals.2.1, locals.2.2, left⟩
  | firstClosed | recvClosed | purge | drop | forget => trivial

theorem InStep.kept_next (step : InStep true net connid curfd pc act net' pc' event)
    (inv : RecvInv net (.epollin connid curfd pc)) (id : ConnId) (data : List α)
    (entry : net'.recvMap id = some data) : data ≠ [] ∧ ¬ netPkg.Complete data := by
  have locals := inv.locals _ _ _ rfl
  by_cases same : id = connid
  · subst same
    cases step with
    | uncache | forget => simp [mRecvRemove] at entry
    | @storeDone recvBuff cacheSize _ missing =>
      obtain ⟨⟨nonneg, here, bound⟩, _, incomplete, left⟩ := locals
      have size : toSize cacheSize = cacheSize.toNat :=
        toSize_of_nonneg nonneg (bound.trans_lt (by decide))
      simp only [Function.update_self, Option.some.injEq, size] at entry
      subst entry
      refine ⟨fun empty => ?_, incomplete⟩
      have := congrArg List.length empty
      simp only [List.length_take, List.length_nil] at this
      omega
    | storeSkipped asserts => simp at asserts
    | _ => exact inv.kept _ _ entry
  · rw [step.recvMap_other same] at entry
    exact inv.kept id data entry

theorem InStep.act_of_received {asserts : Bool} {id : ConnId} {fd : Int} {bytes : List α}
    (step : InStep asserts net connid curfd pc act net' pc' (.received id fd bytes)) :
    act = .recv (.data bytes) := by
  cases step <;> rfl

/-- The invariant is kept by every step that receives nothing or what is admitted. -/
theorem RecvInv.step (inv : RecvInv net (.epollin connid curfd pc))
    (step : InStep true net connid curfd pc act net' pc' event)
    (admitted : ∀ bytes, act = .recv (.data bytes) → Admitted net connid pc bytes) :
    RecvInv net' pc' := by
  have noFault := step.no_fault inv
  obtain ⟨others, change⟩ := step.held_change (inv.locals _ _ _ rfl)
    (by simpa using inv.sized connid) noFault
  have sized := inv.sized connid
  have short := inv.short connid
  have both : netPkg.TotalsLe intMax (held net' pc' connid) ∧
      (netPkg.rest (held net' pc' connid)).length < netRecvSizeLimit := by
    cases event with
    | received id fd bytes =>
      rw [change.2, held_self]
      obtain ⟨sizes, unfinished, _⟩ := admitted bytes step.act_of_received
      exact ⟨sizes, unfinished⟩
    | handed fd work =>
      obtain ⟨_, whole, split⟩ := change
      rw [split] at sized short
      rw [Framing.rest_frame_append whole] at short
      exact ⟨sized.of_frame_append whole, short⟩
    | _ =>
      rcases change with same | ⟨none, _⟩
      · rw [same]
        exact ⟨sized, short⟩
      · rw [none]
        exact ⟨Framing.totalsLe_nil, show 0 < netRecvSizeLimit by decide⟩
  refine ⟨noFault, fun id => ?_, fun id => ?_, step.kept_next inv, ?_⟩
  · by_cases same : id = connid
    · exact same ▸ both.1
    · exact others id same ▸ inv.sized id
  · by_cases same : id = connid
    · exact same ▸ both.2
    · exact others id same ▸ inv.short id
  · rintro other fd next rfl
    rcases step.pc_next with stop | ⟨fault, stop⟩ | ⟨_, same⟩
    · simp at stop
    · simp at stop
    · cases same
      exact step.locals_next inv admitted

end Invariant

/-- The invariant is about the receive map alone, and about the locals of a readable event. -/
theorem RecvInv.congr {pc : LoopPc α β} (inv : RecvInv net pc) (same : net'.recvMap = net.recvMap) :
    RecvInv net' pc := by
  have caches : cached net' = cached net := cached_congr same
  have holds : held net' pc = held net pc := held_congr same
  refine ⟨inv.noFault, fun id => holds ▸ inv.sized id, fun id => holds ▸ inv.short id,
    fun id data entry => inv.kept id data (same ▸ entry), fun connid curfd inPc here => ?_⟩
  have locals := inv.locals connid curfd inPc here
  cases inPc <;> first | trivial | simpa [InLocals, caches, same] using locals

/-- Outside of a readable event only the map counts, and a run of the handler starts from it. -/
theorem RecvInv.outside {pc pc' : LoopPc α β} (inv : RecvInv net pc)
    (before : ∀ connid curfd inPc, pc ≠ .epollin connid curfd inPc) (noFault : ∀ fault, pc' ≠ .fault fault)
    (after : ∀ connid curfd inPc, pc' = .epollin connid curfd inPc → inPc = .firstRecv) :
    RecvInv net pc' := by
  have old : ∀ id, held net pc id = cached net id := by
    intro id
    cases pc with
    | epollin connid curfd inPc => exact absurd rfl (before connid curfd inPc)
    | _ => rfl
  have new : ∀ id, held net pc' id = cached net id := by
    intro id
    cases pc' with
    | epollin connid curfd inPc => cases after connid curfd inPc rfl; simp [held, inHeld]
    | _ => rfl
  refine ⟨noFault, fun id => ?_, fun id => ?_, inv.kept, fun connid curfd inPc here => ?_⟩
  · rw [new, ← old]
    exact inv.sized id
  · rw [new, ← old]
    exact inv.short id
  · cases after connid curfd inPc here
    trivial

end SvrNet
