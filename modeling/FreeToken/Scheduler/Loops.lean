/-
**What the loops over a batch leave alone.**
-/

import FreeToken.Scheduler.Scheduler

namespace FreeToken

open List Function

def Req.core (req : Req) : Req :=
  { req with
    cacheHandle := NaivePrefixCache.handle
    linearSlotIdx := none
    mambaPingPong := none
    mambaNextTrackIdx := false
    mambaLastTrackSeqlen := none
    mambaRestoreSrc := none
    swaEvictedSeqlen := 0
    decodeBatchIdx := 0
    toolcallAnchorLen := none }

namespace Req

section Core

variable {first second : Req} (same : first.core = second.core)

include same

theorem part_of_core {α : Type} (part : Req → α) (reads : ∀ req : Req, part req.core = part req) :
    part first = part second := by
  rw [← reads first, ← reads second, same]

theorem inputIds_of_core : first.inputIds = second.inputIds :=
  part_of_core same Req.inputIds fun _ => rfl
theorem tableIdx_of_core : first.tableIdx = second.tableIdx :=
  part_of_core same Req.tableIdx fun _ => rfl
theorem cachedLen_of_core : first.cachedLen = second.cachedLen :=
  part_of_core same Req.cachedLen fun _ => rfl
theorem deviceLen_of_core : first.deviceLen = second.deviceLen :=
  part_of_core same Req.deviceLen fun _ => rfl
theorem maxDeviceLen_of_core : first.maxDeviceLen = second.maxDeviceLen :=
  part_of_core same Req.maxDeviceLen fun _ => rfl
theorem outputLen_of_core : first.outputLen = second.outputLen :=
  part_of_core same Req.outputLen fun _ => rfl
theorem uid_of_core : first.uid = second.uid := part_of_core same Req.uid fun _ => rfl
theorem chunked_of_core : first.chunked = second.chunked :=
  part_of_core same Req.chunked fun _ => rfl
theorem aborted_of_core : first.aborted = second.aborted :=
  part_of_core same Req.aborted fun _ => rfl

theorem canDecode_of_core : first.canDecode = second.canDecode := by
  unfold canDecode remainLen
  rw [chunked_of_core same, maxDeviceLen_of_core same, deviceLen_of_core same]

theorem completeOne_core_congr : first.completeOne.core = second.completeOne.core :=
  congrArg (fun req => req.completeOne) same

end Core

end Req

/-! ### Commits -/

variable {finished : Bool}

namespace CacheManager

variable {cm next : CacheManager} {req res : Req}

theorem consumeFreeze_core (pageIndices : List Nat) :
    (cm.consumeFreeze req pageIndices).2.1.core = req.core := by
  unfold consumeFreeze
  split
  · split <;> rfl
  · rfl

theorem hybridRelock_core (inputIds : List Token) (from_ upto : Nat) :
    (cm.hybridRelock req inputIds from_ upto).2.core = req.core := by
  unfold hybridRelock
  split <;> rfl

theorem cacheReqPlain_core (done : cm.cacheReqPlain req finished = .ok (next, res)) :
    res.core = req.core := by
  unfold cacheReqPlain at done
  dsimp only at done
  split at done
  · obtain ⟨_, -, done⟩ := bind_eq_ok.mp done
    rw [← (Prod.mk.inj (pure_eq_ok.mp done)).2]
  · obtain ⟨_, -, done⟩ := bind_eq_ok.mp done
    split at done
    · rw [← (Prod.mk.inj (pure_eq_ok.mp done)).2]
    · rw [← (Prod.mk.inj (pure_eq_ok.mp done)).2]
      rfl

theorem finishHybrid_core (done : cm.finishHybrid req = .ok (next, res)) : res.core = req.core := by
  unfold finishHybrid at done
  dsimp only at done
  have frozen := @consumeFreeze_core cm req (cm.row (req.tableIdx.getD 0) 0 req.cachedLen)
  split at done
  all_goals
    obtain ⟨_, -, done⟩ := bind_eq_ok.mp done
    rw [← (Prod.mk.inj (pure_eq_ok.mp done)).2]
    exact frozen

theorem commitHybrid_core (done : cm.commitHybrid req = .ok (next, res)) : res.core = req.core := by
  unfold commitHybrid at done
  split at done
  · rw [← (Prod.mk.inj (pure_eq_ok.mp done)).2]
  · next boundary _ =>
    by_cases aligned : alignDown boundary cm.pageSize ≠ boundary
    · rw [if_pos aligned] at done
      rw [← (Prod.mk.inj (pure_eq_ok.mp done)).2]
      rfl
    · rw [if_neg aligned] at done
      dsimp only at done
      obtain ⟨_, -, done⟩ := bind_eq_ok.mp done
      split at done
      · rw [← (Prod.mk.inj (pure_eq_ok.mp done)).2]
        exact @hybridRelock_core _ req _ _ _
      · obtain ⟨_, -, done⟩ := bind_eq_ok.mp done
        rw [← (Prod.mk.inj (pure_eq_ok.mp done)).2]
        exact @hybridRelock_core _ req _ _ _

theorem cacheReqHybrid_core
    (done : cm.cacheReqHybrid req finished = .ok (next, res)) : res.core = req.core := by
  unfold cacheReqHybrid at done
  split at done
  · obtain ⟨_, -, done⟩ := bind_eq_ok.mp done
    split at done
    · rw [← (Prod.mk.inj (pure_eq_ok.mp done)).2]
      rfl
    · rw [← (Prod.mk.inj (pure_eq_ok.mp done)).2]
  · split at done
    · exact finishHybrid_core done
    · exact commitHybrid_core done

theorem cacheReqSwa_core (done : cm.cacheReqSwa req finished = .ok (next, res)) :
    res.core = req.core := by
  unfold cacheReqSwa at done
  split at done
  · obtain ⟨_, -, done⟩ := bind_eq_ok.mp done
    split at done
    all_goals rw [← (Prod.mk.inj (pure_eq_ok.mp done)).2]
  · obtain ⟨_, -, done⟩ := bind_eq_ok.mp done
    obtain ⟨_, -, done⟩ := bind_eq_ok.mp done
    cases finished with
    | true => rw [← (Prod.mk.inj (pure_eq_ok.mp done)).2]
    | false =>
      rw [← (Prod.mk.inj (pure_eq_ok.mp done)).2]
      rfl

/-- A commit keeps the core of its request. -/
theorem cacheReq_core (done : cm.cacheReq req finished = .ok (next, res)) :
    res.core = req.core := by
  unfold cacheReq at done
  split at done
  · exact cacheReqSwa_core done
  · exact cacheReqHybrid_core done
  · exact cacheReqPlain_core done

/-! ### The bodies of the loops before a forward -/

theorem releaseSwa_core (newEvicted : Int) : (cm.releaseSwa req newEvicted).2.core = req.core := by
  unfold releaseSwa
  dsimp only
  split <;> rfl

theorem freeSwaOfDecode_core : (cm.freeSwaOfDecode req).2.core = req.core := by
  unfold freeSwaOfDecode
  split
  · rfl
  · exact (releaseSwa_core _).trans rfl

theorem freeSwaOfExtend_core : (cm.freeSwaOfExtend req).2.core = req.core := releaseSwa_core _

theorem snapshotAnchor_core : (cm.snapshotAnchor req).2.core = req.core := by
  unfold snapshotAnchor
  split
  · split <;> rfl
  · rfl

end CacheManager

theorem noteTrack_core (req : Req) : (noteTrack req).core = req.core := by
  unfold noteTrack
  split <;> rfl

variable (cfg : SchedulerConfig) (s : Scheduler) {body : CacheManager → Req → CacheManager × Req}

namespace Scheduler

theorem restoreLinearState_core (cm : CacheManager) (req : Req) :
    (restoreLinearState cm req).2.core = req.core := by
  unfold restoreLinearState
  split <;> rfl

theorem forwardState_core (isPrefill : Bool) (tm : TableManager) (cm : CacheManager) (req : Req) :
    (forwardState isPrefill tm cm req).2.core = req.core := by
  unfold forwardState
  split
  · exact noteTrack_core req
  · rfl

/-! ### Loops by name and by value -/

def forReqs (body : CacheManager → Req → CacheManager × Req) :
    CacheManager → List Req → CacheManager × List Req
  | cm, [] => (cm, [])
  | cm, req :: rest =>
      ((forReqs body (body cm req).1 rest).1, (body cm req).2 :: (forReqs body (body cm req).1 rest).2)

theorem forReqs_pure (change : Req → Req) (cm : CacheManager) (reqs : List Req) :
    forReqs (fun cm req => (cm, change req)) cm reqs = (cm, reqs.map change) := by
  induction reqs with
  | nil => rfl
  | cons req rest ih => simp only [forReqs, ih, map_cons]

theorem forReqs_core {α : Type} (part : Req → α)
    (keeps : ∀ cm req, part (body cm req).2 = part req) (reqs : List Req) :
    ∀ cm, (forReqs body cm reqs).2.map part = reqs.map part := by
  induction reqs with
  | nil => exact fun _ => rfl
  | cons req rest ih =>
    intro cm
    simp only [forReqs, map_cons, keeps, ih]

theorem map_update_of_notMem {α : Type} (reqs : Nat → α) {name : Nat} {names : List Nat}
    (absent : name ∉ names) (req : α) : names.map (Function.update reqs name req) = names.map reqs :=
  map_congr_left fun _ mem => update_of_ne (ne_of_mem_of_not_mem mem absent) _ _

theorem forBatch_spec (body : CacheManager → Req → CacheManager × Req) :
    ∀ (names : List Nat) (s : Scheduler), names.Nodup → forBatch body s names = { s with
        cacheManager := (forReqs body s.cacheManager (names.map s.reqs)).1
        reqs := (forBatch body s names).reqs } ∧
      names.map (forBatch body s names).reqs = (forReqs body s.cacheManager (names.map s.reqs)).2 ∧
      ∀ name ∉ names, (forBatch body s names).reqs name = s.reqs name := by
  intro names
  induction names with
  | nil => exact fun s _ => ⟨rfl, rfl, fun _ _ => rfl⟩
  | cons name rest ih =>
    intro s nodup
    obtain ⟨apart, nodup⟩ := nodup_cons.mp nodup
    let mid : Scheduler := ({ s with
      cacheManager := (body s.cacheManager (s.reqs name)).1 } : Scheduler).setReq name
        (body s.cacheManager (s.reqs name)).2
    have unfolded : forBatch body s (name :: rest) = forBatch body mid rest := rfl
    obtain ⟨frame, values, others⟩ := ih mid nodup
    have midRest : rest.map mid.reqs = rest.map s.reqs := map_update_of_notMem _ apart _
    have midManager : mid.cacheManager = (body s.cacheManager (s.reqs name)).1 := rfl
    have here : (forBatch body mid rest).reqs name = (body s.cacheManager (s.reqs name)).2 :=
      (others name apart).trans (update_self ..)
    rw [midRest, midManager] at frame values
    rw [unfolded]
    refine ⟨?_, ?_, ?_⟩
    · rw [frame]
      rfl
    · rw [map_cons, here, values]
      rfl
    · intro other absent
      rw [mem_cons, not_or] at absent
      exact (others other absent.2).trans (update_of_ne absent.1 _ _)

theorem forBatch_part {α : Type} (part : Req → α)
    (keeps : ∀ cm req, part (body cm req).2 = part req) {names : List Nat} (s : Scheduler)
    (nodup : names.Nodup) (name : Nat) :
    part ((forBatch body s names).reqs name) = part (s.reqs name) := by
  obtain ⟨-, values, others⟩ := forBatch_spec body names s nodup
  by_cases mem : name ∈ names
  · have parts := congrArg (map part) values
    rw [forReqs_core part keeps, map_map, map_map] at parts
    exact map_inj_left.mp parts name mem
  · rw [others name mem]

/-! ### The launch of a batch -/

structure SameControl (s next : Scheduler) : Prop where
  nextReq : next.nextReq = s.nextReq
  pendingList : next.pendingList = s.pendingList
  finishedReqs : next.finishedReqs = s.finishedReqs
  pendingAbortAcks : next.pendingAbortAcks = s.pendingAbortAcks
  abortTombstones : next.abortTombstones = s.abortTombstones
  lastData : next.lastData = s.lastData
  ongoing : next.ongoing = s.ongoing
  todo : next.todo = s.todo
  newFinished : next.newFinished = s.newFinished
  reply : next.reply = s.reply

theorem SameControl.refl : SameControl s s := ⟨rfl, rfl, rfl, rfl, rfl, rfl, rfl, rfl, rfl, rfl⟩

theorem SameControl.trans {s mid next : Scheduler} (first : SameControl s mid)
    (second : SameControl mid next) : SameControl s next where
  nextReq := second.nextReq.trans first.nextReq
  pendingList := second.pendingList.trans first.pendingList
  finishedReqs := second.finishedReqs.trans first.finishedReqs
  pendingAbortAcks := second.pendingAbortAcks.trans first.pendingAbortAcks
  abortTombstones := second.abortTombstones.trans first.abortTombstones
  lastData := second.lastData.trans first.lastData
  ongoing := second.ongoing.trans first.ongoing
  todo := second.todo.trans first.todo
  newFinished := second.newFinished.trans first.newFinished
  reply := second.reply.trans first.reply

structure SameCores (s next : Scheduler) : Prop extends SameControl s next where
  cores : ∀ name, (next.reqs name).core = (s.reqs name).core
  decodeManager : next.decodeManager = s.decodeManager
  out : next.out = s.out
  generated : next.generated = s.generated
  tableManager : next.tableManager = s.tableManager

theorem SameCores.refl : SameCores s s := ⟨SameControl.refl s, fun _ => rfl, rfl, rfl, rfl, rfl⟩

theorem SameCores.trans {s mid next : Scheduler} (first : SameCores s mid)
    (second : SameCores mid next) : SameCores s next where
  toSameControl := first.toSameControl.trans second.toSameControl
  cores := fun name => (second.cores name).trans (first.cores name)
  decodeManager := second.decodeManager.trans first.decodeManager
  out := second.out.trans first.out
  generated := second.generated.trans first.generated
  tableManager := second.tableManager.trans first.tableManager

theorem forBatch_sameCores
    (keeps : ∀ cm req, (body cm req).2.core = req.core) {names : List Nat} (s : Scheduler)
    (nodup : names.Nodup) : SameCores s (forBatch body s names) := by
  have frame := (forBatch_spec body names s nodup).1
  refine ⟨?_, forBatch_part Req.core keeps s nodup, ?_, ?_, ?_, ?_⟩
  · constructor <;> rw [frame]
  all_goals rw [frame]

theorem prepareWindow_sameCores {batch : Batch}
    (nodup : batch.reqs.Nodup) : SameCores s (s.prepareWindow cfg batch) := by
  let counted : Scheduler := { s with forwardIter := s.forwardIter + 1 }
  have start : SameCores s counted :=
    ⟨⟨rfl, rfl, rfl, rfl, rfl, rfl, rfl, rfl, rfl, rfl⟩, fun _ => rfl, rfl, rfl, rfl, rfl⟩
  refine start.trans ?_
  unfold prepareWindow
  dsimp only
  split
  · unfold freeSwaOutOfWindowExtend
    split
    · exact SameCores.refl counted
    · exact forBatch_sameCores (fun _ _ => CacheManager.freeSwaOfExtend_core) counted nodup
  · refine SameCores.trans ?_ (forBatch_sameCores (fun _ _ => rfl) _ nodup)
    unfold maybeFreeSwaOutOfWindow
    split
    · exact SameCores.refl counted
    · exact forBatch_sameCores (fun _ _ => CacheManager.freeSwaOfDecode_core) counted nodup

/-- The launch of a batch: every request of it has completed one step. -/
structure Forwarded (s : Scheduler) (batch : Batch) (nextTokens : Nat → Token)
    (admissions : List Reply) (next : Scheduler) : Prop extends SameControl s next where
  others : ∀ name ∉ batch.reqs, (next.reqs name).core = (s.reqs name).core
  completed : ∀ name ∈ batch.reqs, (next.reqs name).core = (s.reqs name).completeOne.core
  decodeManager : next.decodeManager = s.decodeManager.filterReqs next.reqs batch.reqs
  out : next.out = s.out ++ admissions
  generated : next.generated = s.generated ++
    ((batch.reqs.filter fun name => !(s.reqs name).chunked).map
      fun name => ((s.reqs name).uid, nextTokens name))

def beforeComplete (batch : Batch) (nextTokens : Nat → Token) : Scheduler :=
  let s := if batch.isPrefill then s.forBatch restoreLinearState batch.reqs
    else if cfg.toolcallAnchorId.isSome then s.snapshotToolcallAnchor batch.reqs
    else s
  let s := s.forBatch (forwardState batch.isPrefill s.tableManager) batch.reqs
  { s with tableManager := writeSampled nextTokens s.reqs s.tableManager batch.reqs }

theorem forward_eq (batch : Batch) (nextTokens : Nat → Token) : s.forward cfg batch nextTokens =
      let done := (s.beforeComplete cfg batch nextTokens).forBatch
        (fun cm req => (cm, req.completeOne)) batch.reqs
      { done with
        decodeManager := done.decodeManager.filterReqs done.reqs batch.reqs
        generated := done.generated ++
          ((batch.reqs.filter fun name => !(done.reqs name).chunked).map
            fun name => ((done.reqs name).uid, nextTokens name)) } := rfl

theorem beforeComplete_cores {batch : Batch} (nextTokens : Nat → Token) (nodup : batch.reqs.Nodup) :
    SameControl s (s.beforeComplete cfg batch nextTokens) ∧
      (∀ name, ((s.beforeComplete cfg batch nextTokens).reqs name).core = (s.reqs name).core) ∧
      (s.beforeComplete cfg batch nextTokens).decodeManager = s.decodeManager ∧
      (s.beforeComplete cfg batch nextTokens).out = s.out ∧
      (s.beforeComplete cfg batch nextTokens).generated = s.generated := by
  have restored : SameCores s (if batch.isPrefill then s.forBatch restoreLinearState batch.reqs
      else if cfg.toolcallAnchorId.isSome then s.snapshotToolcallAnchor batch.reqs else s) := by
    split
    · exact forBatch_sameCores restoreLinearState_core s nodup
    · split
      · unfold snapshotToolcallAnchor
        split
        · exact forBatch_sameCores (fun _ _ => CacheManager.snapshotAnchor_core) s nodup
        · exact SameCores.refl s
      · exact SameCores.refl s
  have moved := restored.trans (forBatch_sameCores
    (forwardState_core batch.isPrefill (if batch.isPrefill then s.forBatch restoreLinearState batch.reqs
      else if cfg.toolcallAnchorId.isSome then s.snapshotToolcallAnchor batch.reqs else
        s).tableManager) _ nodup)
  exact ⟨⟨moved.nextReq, moved.pendingList, moved.finishedReqs, moved.pendingAbortAcks,
    moved.abortTombstones, moved.lastData, moved.ongoing, moved.todo, moved.newFinished,
    moved.reply⟩, moved.cores, moved.decodeManager, moved.out, moved.generated⟩

theorem prepare_forwarded {cfg : SchedulerConfig} {s prepared : Scheduler} {batch : Batch}
    {admissions : List Reply} (nextTokens : Nat → Token) (nodup : batch.reqs.Nodup)
    (ok : s.prepareBatch cfg batch = .ok prepared) :
    Forwarded s batch nextTokens admissions
      ((prepared.sendResult admissions).forward cfg batch nextTokens) := by
  obtain ⟨cm, -, done⟩ := bind_eq_ok.mp ok
  have window := prepareWindow_sameCores cfg s nodup
  obtain rfl := pure_eq_ok.mp done
  clear ok done
  generalize s.prepareWindow cfg batch = windowed at window ⊢
  let sent := ({ windowed with cacheManager := cm } : Scheduler).sendResult admissions
  obtain ⟨control, cores, decode, out, generated⟩ := beforeComplete_cores cfg sent nextTokens nodup
  rw [forward_eq]
  generalize sent.beforeComplete cfg batch nextTokens = ready at *
  have pre : ∀ name, (ready.reqs name).core = (s.reqs name).core :=
    fun name => (cores name).trans (window.cores name)
  obtain ⟨frame, values, others⟩ :=
    forBatch_spec (fun cm req => (cm, req.completeOne)) batch.reqs ready nodup
  rw [forReqs_pure, map_map] at values
  have completed : ∀ name ∈ batch.reqs,
      ((ready.forBatch (fun cm req => (cm, req.completeOne)) batch.reqs).reqs name) =
        (ready.reqs name).completeOne := map_inj_left.mp values
  have sameSent : SameControl s sent := ⟨window.nextReq, window.pendingList, window.finishedReqs,
    window.pendingAbortAcks, window.abortTombstones, window.lastData, window.ongoing, window.todo,
    window.newFinished, window.reply⟩
  have after := sameSent.trans control
  dsimp only
  constructor
  case toSameControl =>
    constructor
    all_goals
      rw [frame]
    exacts [after.nextReq, after.pendingList, after.finishedReqs, after.pendingAbortAcks,
      after.abortTombstones, after.lastData, after.ongoing, after.todo, after.newFinished,
      after.reply]
  case others =>
    intro name absent
    exact (congrArg Req.core (others name absent)).trans (pre name)
  case completed =>
    intro name mem
    refine (congrArg Req.core (completed name mem)).trans ?_
    exact Req.completeOne_core_congr (pre name)
  case decodeManager =>
    have same : (ready.forBatch (fun cm req => (cm, req.completeOne)) batch.reqs).decodeManager =
        s.decodeManager := by
      rw [frame]
      exact decode.trans window.decodeManager
    rw [same]
  case out =>
    rw [frame]
    refine out.trans ?_
    exact congrArg (· ++ admissions) window.out
  case generated =>
    have same : (ready.forBatch (fun cm req => (cm, req.completeOne)) batch.reqs).generated =
        s.generated := by
      rw [frame]
      exact generated.trans window.generated
    have chunked : ∀ name ∈ batch.reqs, ((ready.forBatch (fun cm req => (cm, req.completeOne))
        batch.reqs).reqs name).chunked = (s.reqs name).chunked := fun name mem => by
      rw [completed name mem]
      have same := Req.chunked_of_core (pre name)
      exact same
    rw [same]
    refine congrArg (s.generated ++ ·) ?_
    rw [filter_congr fun name mem => by rw [chunked name mem]]
    refine map_congr_left fun name mem => ?_
    rw [completed name (mem_of_mem_filter mem)]
    have sameUid := Req.uid_of_core (pre name)
    exact congrArg (·, nextTokens name) sameUid

end Scheduler

end FreeToken
