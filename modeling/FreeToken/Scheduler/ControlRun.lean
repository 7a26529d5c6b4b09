/-
**The control invariant along a run.**
-/

import FreeToken.Scheduler.Control

namespace FreeToken

open List Function Option

variable {nextTokens : Nat → Token} {name : Nat} {data : ForwardData} {away late : Option Nat}

namespace Scheduler

variable {cfg : SchedulerConfig} {s next : Scheduler}

/-! ### Messages -/

theorem abortPending_spec (uid : Nat) (list : List PendingReq) :
    (∃ front pending back, list = front ++ pending :: back ∧ pending.uid = uid ∧
      (∀ other ∈ front, other.uid ≠ uid) ∧
      abortPending list uid = (front ++ back, pending.chunkedReq)) ∨
    (∀ pending ∈ list, pending.uid ≠ uid) ∧ abortPending list uid = (list, none) := by
  induction list with
  | nil => exact Or.inr ⟨by simp, rfl⟩
  | cons first list ih =>
    by_cases same : first.uid = uid
    · refine Or.inl ⟨[], first, list, rfl, same, by simp, ?_⟩
      rw [abortPending, if_pos same]
      rfl
    · rcases ih with ⟨front, pending, back, rfl, isUid, pre, rest⟩ | ⟨absent, rest⟩
      · refine Or.inl ⟨first :: front, pending, back, rfl, isUid, ?_, ?_⟩
        · intro other mem
          rcases mem_cons.mp mem with rfl | mem
          · exact same
          · exact pre other mem
        · rw [abortPending, if_neg same, rest]
          rfl
      · refine Or.inr ⟨?_, ?_⟩
        · intro other mem
          rcases mem_cons.mp mem with rfl | mem
          · exact same
          · exact absent other mem
        · rw [abortPending, if_neg same, rest]

theorem ControlBut.sublist (control : ControlBut away late s)
    {list : List PendingReq} (sub : list.Sublist s.pendingList) :
    ControlBut away late { s with pendingList := list } where
  continuation := fun pending mem => control.continuation pending (sub.subset mem)
  chunksDistinct := control.chunksDistinct.sublist (sub.filterMap _)
  continuationsFirst := control.continuationsFirst.sublist sub
  running := control.running
  runningDistinct := control.runningDistinct
  decoding := control.decoding
  queued := control.queued
  queueDistinct := control.queueDistinct
  launched := control.launched
  launchedDistinct := control.launchedDistinct
  ended := control.ended
  endedAfter := control.endedAfter
  finished := control.finished
  lengths := fun name below seated here =>
    ⟨(control.lengths name below seated here).deviceLen,
      (control.lengths name below seated here).inputIds⟩

theorem ControlBut.removeReq {late : Option Nat} (control : ControlBut none late s) (name : Nat) :
    ControlBut (some name) late { s with decodeManager := s.decodeManager.removeReq name } where
  continuation := control.continuation
  chunksDistinct := control.chunksDistinct
  continuationsFirst := control.continuationsFirst
  running := fun other mem => control.running other (mem_of_mem_filter mem)
  runningDistinct := control.runningDistinct.filter _
  decoding := by
    intro other below decodes live seated ne
    have mem := control.decoding other below decodes live seated (by simp)
    refine mem_filter.mpr ⟨mem, ?_⟩
    simpa using fun same => ne (congrArg some same)
  queued := control.queued
  queueDistinct := control.queueDistinct
  launched := control.launched
  launchedDistinct := control.launchedDistinct
  ended := control.ended
  endedAfter := control.endedAfter
  finished := control.finished
  lengths := fun name below seated here =>
    ⟨(control.lengths name below seated here).deviceLen,
      (control.lengths name below seated here).inputIds⟩

theorem notMem_removeReq (dm : DecodeManager) (name : Nat) : name ∉ (dm.removeReq name).runningReqs := by
  simp [DecodeManager.removeReq]

/-- What an abort finds: nothing, the chunk of a pending request, or a running request; in each case
the request object is in no list but the batches any more. -/
inductive TookAborted (s : Scheduler) (uid : Nat) : Scheduler → Option Nat → Prop
  | none (list : List PendingReq) (sub : list.Sublist s.pendingList)
      (gone : ∀ pending ∈ s.pendingList, pending ∈ list ∨ pending.uid = uid)
      (notRunning : ∀ name ∈ s.decodeManager.runningReqs, (s.reqs name).uid ≠ uid) :
      TookAborted s uid { s with pendingList := list } .none
  | chunk (list : List PendingReq) (pending : PendingReq) (name : Nat)
      (sub : list.Sublist s.pendingList) (mem : pending ∈ s.pendingList)
      (same : pending.uid = uid) (chunked : pending.chunkedReq = some name)
      (gone : ∀ other ∈ s.pendingList, other ∈ list ∨ other = pending)
      (alone : ∀ other ∈ list, other.chunkedReq ≠ some name) :
      TookAborted s uid { s with pendingList := list } (some name)
  | running (list : List PendingReq) (name : Nat) (sub : list.Sublist s.pendingList)
      (gone : ∀ pending ∈ s.pendingList, pending ∈ list ∨ pending.uid = uid)
      (mem : name ∈ s.decodeManager.runningReqs) (same : (s.reqs name).uid = uid) :
      TookAborted s uid
        { s with
          pendingList := list
          decodeManager := s.decodeManager.removeReq name } (some name)

theorem takeAborted_spec (control : Control s) (uid : Nat) :
    TookAborted s uid (s.takeAborted uid).1 (s.takeAborted uid).2 := by
  have found : ∀ list : List PendingReq, list.Sublist s.pendingList →
      (∀ pending ∈ s.pendingList, pending ∈ list ∨ pending.uid = uid) →
      TookAborted s uid
        ({ s with
          pendingList := list
          decodeManager := (s.decodeManager.abortReq s.reqs uid).1 })
        (s.decodeManager.abortReq s.reqs uid).2 := by
    intro list sub gone
    unfold DecodeManager.abortReq
    cases search : s.decodeManager.runningReqs.find? fun name => (s.reqs name).uid = uid with
    | none =>
      refine TookAborted.none list sub gone fun name mem same => ?_
      have := find?_eq_none.mp search name mem
      simp [same] at this
    | some name =>
      have same := find?_some search
      exact TookAborted.running list name sub gone (mem_of_find?_eq_some search)
        (by simpa using same)
  unfold takeAborted
  rcases abortPending_spec uid s.pendingList with
    ⟨front, pending, back, split, same, pre, run⟩ | ⟨absent, run⟩
  · have sub : (front ++ back).Sublist s.pendingList := by
      rw [split]
      exact (Sublist.refl front).append (sublist_cons_self pending back)
    have gone : ∀ other ∈ s.pendingList, other ∈ front ++ back ∨ other = pending := by
      intro other mem
      rw [split] at mem
      rcases mem_append.mp mem with inFront | inBack
      · exact Or.inl (mem_append_left _ inFront)
      · rcases mem_cons.mp inBack with rfl | inBack
        · exact Or.inr rfl
        · exact Or.inl (mem_append_right _ inBack)
    rw [run]
    cases chunk : pending.chunkedReq with
    | none =>
      refine found (front ++ back) sub fun other mem => ?_
      rcases gone other mem with kept | rfl
      · exact Or.inl kept
      · exact Or.inr same
    | some name =>
      refine TookAborted.chunk (front ++ back) pending name sub ?_ same chunk gone ?_
      · rw [split]
        simp
      · have nodup := control.chunksDistinct
        rw [split, filterMap_append, filterMap_cons, chunk] at nodup
        have apart := (nodup_middle.mp nodup)
        rw [nodup_cons] at apart
        intro other mem also
        refine apart.1 ?_
        rw [← filterMap_append]
        exact mem_filterMap.mpr ⟨other, mem, also⟩
  · rw [run]
    exact found s.pendingList (Sublist.refl _) fun pending mem => Or.inl mem

theorem ControlBut.freeAborted {away : Option Nat} (control : ControlBut away none s)
    (known : name < s.nextReq) (only : ∀ other, away = some other → other = name)
    (notContinued : ∀ pending ∈ s.pendingList, pending.chunkedReq ≠ some name)
    (notRunning : name ∉ s.decodeManager.runningReqs) (todo : s.todo = none)
    (receiving : s.ongoing = none) (done : s.freeAborted (some name) = .ok next) :
    Control next ∧ Retired s name next := by
  have notLaunched : name ∉ s.inForward := by simp [inForward, receiving]
  change (if s.inFlight name then _ else _) = _ at done
  split at done
  · cases done
    obtain ⟨retired, marked⟩ := mark_retired s name
    refine ⟨control.retire known only (fun _ absurd => by cases absurd) retired notContinued notRunning ?_
      fun mem => absurd mem notLaunched, retired⟩
    intro _ _ live
    rw [marked] at live
    cases live
  · next notInFlight =>
    obtain ⟨retired, -, -⟩ := freeReqResources_retired done
    refine ⟨control.retire known only (fun _ absurd => by cases absurd) retired notContinued notRunning ?_
      fun mem => absurd mem notLaunched, retired⟩
    intro mem _ _
    refine absurd ?_ notInFlight
    unfold queue at mem
    unfold inFlight
    rw [todo] at mem
    cases launched : s.lastData with
    | none => simp [launched] at mem
    | some data => simpa [launched] using mem

theorem ControlBut.chunk_notRunning (control : ControlBut away late s)
    {pending : PendingReq} (mem : pending ∈ s.pendingList)
    (chunk : pending.chunkedReq = some name) : name ∉ s.decodeManager.runningReqs := by
  intro running
  have whole := canDecode_not_chunked (control.running name running).2.1
  rw [(control.continuation pending mem name chunk).2.chunked] at whole
  cases whole

theorem ControlBut.running_notContinued (control : ControlBut away late s) (running : name ∈ s.decodeManager.runningReqs) :
    ∀ pending ∈ s.pendingList, pending.chunkedReq ≠ some name :=
  fun _ mem chunk => control.chunk_notRunning mem chunk running

theorem processAbort_ok (control : Control s) {uid : Nat} (done : s.processAbort uid = .ok next) :
    ∃ taken freed reqToFree,
      TookAborted { s with abortTombstones := entomb s.abortTombstones uid } uid taken reqToFree ∧
      taken.freeAborted reqToFree = .ok freed ∧
      next = { freed with
        pendingAbortAcks := if uid ∈ freed.pendingAbortAcks then freed.pendingAbortAcks
          else freed.pendingAbortAcks ++ [uid] } := by
  unfold processAbort at done
  generalize entomb s.abortTombstones uid = tombstones at done ⊢
  obtain ⟨freed, freeing, done⟩ := bind_eq_ok.mp done
  have startControl : Control { s with abortTombstones := tombstones } :=
    control.of_cores rfl (fun _ _ => rfl) rfl rfl rfl rfl rfl rfl rfl
  exact ⟨_, freed, _, takeAborted_spec startControl uid, freeing, (pure_eq_ok.mp done).symm⟩

theorem processAbort_control (control : Control s) (todo : s.todo = none)
    (receiving : s.ongoing = none) {uid : Nat} (done : s.processAbort uid = .ok next) :
    Control next := by
  obtain ⟨taken, freed, reqToFree, took, freeing, rfl⟩ := processAbort_ok control done
  generalize entomb s.abortTombstones uid = tombstones at took
  let start : Scheduler := { s with abortTombstones := tombstones }
  have startControl : Control start :=
    control.of_cores rfl (fun _ _ => rfl) rfl rfl rfl rfl rfl rfl rfl
  suffices Control freed from this.of_cores rfl (fun _ _ => rfl) rfl rfl rfl rfl rfl rfl rfl
  cases took with
  | none list sub =>
    cases freeing
    exact startControl.sublist sub
  | chunk list pending name sub mem _ chunk _ alone =>
    refine ((startControl.sublist sub).freeAborted ?_ nofun alone ?_ todo
      receiving freeing).1
    · exact (startControl.continuation pending mem name chunk).1
    · exact startControl.chunk_notRunning mem chunk
  | running list name sub _ mem =>
    refine (((startControl.removeReq name).sublist sub).freeAborted ?_ ?_ ?_ ?_ todo receiving
      freeing).1
    · exact (startControl.running name mem).1
    · exact fun other same => (some.inj same).symm
    · exact fun pending inList => startControl.running_notContinued mem pending (sub.subset inList)
    · exact notMem_removeReq _ name

theorem processUser_control (control : Control s) (msg : UserMsg) : Control (s.processUser cfg msg) := by
  unfold processUser
  dsimp only
  split
  · exact control.of_cores rfl (fun _ _ => rfl) rfl rfl rfl rfl rfl rfl rfl
  · split
    · exact control.of_cores rfl (fun _ _ => rfl) rfl rfl rfl rfl rfl rfl rfl
    · constructor
      case continuation =>
        intro pending mem name chunk
        rcases mem_append.mp mem with old | new
        · exact control.continuation pending old name chunk
        · rw [mem_singleton.mp new] at chunk
          cases chunk
      case chunksDistinct => simpa using control.chunksDistinct
      case continuationsFirst =>
        refine pairwise_append.mpr ⟨control.continuationsFirst, pairwise_singleton _ _, ?_⟩
        intro first _ second mem continued
        rw [mem_singleton.mp mem] at continued
        cases continued
      case running => exact control.running
      case runningDistinct => exact control.runningDistinct
      case decoding => exact control.decoding
      case queued => exact control.queued
      case queueDistinct => exact control.queueDistinct
      case launched => exact control.launched
      case launchedDistinct => exact control.launchedDistinct
      case ended => exact control.ended
      case endedAfter => exact control.endedAfter
      case finished => exact control.finished
      case lengths =>
        intro name below seated here
        have was := control.lengths name below seated here
        exact ⟨was.deviceLen, was.inputIds⟩

theorem processOneMsg_control (control : Control s) (phase : Phase s) (todo : s.todo = none) {msg : Msg}
    (done : s.processOneMsg cfg msg = .ok next) : Control next := by
  cases msg with
  | user msg =>
    cases done
    exact processUser_control control msg
  | abort uid => exact processAbort_control control todo (phase.receiving todo).1 done

/-! ### Choosing a batch -/

/-- The state after a pass that took the requests before `rest` off the pending list. -/
def afterPass (s : Scheduler) (pass : Pass) (rest : List PendingReq) : Scheduler :=
  { s with
    cacheManager := pass.adder.cacheManager
    tableManager := pass.adder.tableManager
    reqs := pass.reqs
    nextReq := pass.nextReq
    pendingList := pass.chunkedList ++ rest }

def startPass (cfg : SchedulerConfig) (s : Scheduler) : Pass where
  adder :=
    { tokenBudget := cfg.prefillBudget
      reservedSize := s.decodeManager.inflightTokens s.reqs
      reservedSwa := 0
      cacheManager := s.cacheManager
      tableManager := s.tableManager }
  reqs := s.reqs
  nextReq := s.nextReq
  batch := []
  chunkedList := []
  promptAdmissions := []

/-- What a round chooses: the batch of a pass, or after a pass that added nothing the decode batch,
or nothing. -/
inductive Scheduled (cfg : SchedulerConfig) (s : Scheduler) :
    Scheduler → Option (Batch × List (Nat × Nat × Nat)) → Prop
  | prefill (taken rest : List PendingReq) (pass : Pass) (some_ : taken ≠ [])
      (split : s.pendingList = taken ++ rest) (of : PassOf s.nextReq s.reqs taken pass)
      (run : (startPass cfg s).run s.pendingList = .ok pass) :
      Scheduled cfg s (s.afterPass pass rest) (some (⟨pass.batch, true⟩, pass.promptAdmissions))
  | other (pass : Pass) (of : PassOf s.nextReq s.reqs [] pass)
      (run : (startPass cfg s).run s.pendingList = .ok pass)
      (batch : Option (Batch × List (Nat × Nat × Nat)))
      (decode : batch = if s.decodeManager.runningReqs = [] then none
        else some (⟨s.decodeManager.byUid pass.reqs, false⟩, [])) :
      Scheduled cfg s (s.afterPass pass s.pendingList) batch

theorem scheduleNextBatch_ok (control : Control s) {batch : Option (Batch × List (Nat × Nat × Nat))}
    (done : s.scheduleNextBatch cfg = .ok (next, batch)) : Scheduled cfg s next batch := by
  obtain ⟨⟨mid, chosen⟩, prefill, done⟩ := bind_eq_ok.mp done
  have named : ∀ pending ∈ s.pendingList, ∀ name, pending.chunkedReq = some name →
      name < (startPass cfg s).nextReq :=
    fun pending mem name chunk => (control.continuation pending mem name chunk).1
  unfold schedulePrefill at prefill
  split at prefill
  · next empty =>
    obtain ⟨rfl, rfl⟩ := Prod.mk.inj (Except.ok.inj prefill)
    have run : (startPass cfg s).run s.pendingList = .ok (startPass cfg s) := by
      rw [empty]
      rfl
    have of : PassOf s.nextReq s.reqs [] (startPass cfg s) := PassOf.start rfl rfl rfl rfl rfl
    have same : s.afterPass (startPass cfg s) s.pendingList = s := rfl
    dsimp only at done
    split at done
    · next idle =>
      obtain ⟨rfl, rfl⟩ := Prod.mk.inj (pure_eq_ok.mp done)
      have := Scheduled.other (startPass cfg s) of run none (by rw [if_pos idle])
      rwa [same] at this
    · next busy =>
      obtain ⟨rfl, rfl⟩ := Prod.mk.inj (pure_eq_ok.mp done)
      have := Scheduled.other (startPass cfg s) of run _ (by rw [if_neg busy])
      rwa [same] at this
  · obtain ⟨pass, run, prefill⟩ := bind_eq_ok.mp prefill
    obtain ⟨taken, rest, split, of⟩ := passOf_run named rfl rfl rfl rfl run
    split at prefill
    · next empty =>
      have none_ : taken = [] := by
        have := of.batch
        rw [empty] at this
        cases taken with
        | nil => rfl
        | cons _ _ => simp [range'] at this
      subst none_
      have chunks : pass.chunkedList = [] := of.chunkedList
      have same : s.afterPass pass s.pendingList = { s with
          cacheManager := pass.adder.cacheManager
          tableManager := pass.adder.tableManager
          reqs := pass.reqs
          nextReq := pass.nextReq } := by
        unfold afterPass
        rw [chunks]
        rfl
      obtain ⟨rfl, rfl⟩ := Prod.mk.inj (pure_eq_ok.mp prefill)
      dsimp only at done
      split at done
      · next idle =>
        obtain ⟨rfl, rfl⟩ := Prod.mk.inj (pure_eq_ok.mp done)
        have := Scheduled.other pass of run none (by rw [if_pos idle])
        rwa [same] at this
      · next busy =>
        obtain ⟨rfl, rfl⟩ := Prod.mk.inj (pure_eq_ok.mp done)
        have := Scheduled.other pass of run _ (by rw [if_neg busy])
        rwa [same] at this
    · next some_ =>
      obtain ⟨rfl, rfl⟩ := Prod.mk.inj (pure_eq_ok.mp prefill)
      obtain ⟨rfl, rfl⟩ := Prod.mk.inj (pure_eq_ok.mp done)
      have dropped : s.pendingList.drop pass.batch.length = rest := by
        rw [split, of.batch, length_range', drop_left]
      have nonempty : taken ≠ [] := by
        rintro rfl
        exact some_ of.batch
      rw [dropped]
      exact Scheduled.prefill taken rest pass nonempty split of run

structure Chosen (s : Scheduler) (batch : List Nat) : Prop where
  continuation : ∀ pending ∈ s.pendingList, ∀ name, pending.chunkedReq = some name →
    name < s.nextReq ∧ ContinuationOf pending
      (if name ∈ batch then (s.reqs name).completeOne else s.reqs name)
  chunksDistinct : (s.pendingList.filterMap PendingReq.chunkedReq).Nodup
  continuationsFirst : s.pendingList.Pairwise fun first second =>
    second.chunkedReq.isSome → first.chunkedReq.isSome
  running : ∀ name ∈ s.decodeManager.runningReqs, name < s.nextReq ∧
    (s.reqs name).canDecode = true ∧ (s.reqs name).aborted = false ∧ (s.reqs name).tableIdx.isSome
  runningDistinct : s.decodeManager.runningReqs.Nodup
  decoding : ∀ name < s.nextReq, name ∉ batch → (s.reqs name).canDecode = true →
    (s.reqs name).aborted = false → (s.reqs name).tableIdx.isSome →
    name ∈ s.decodeManager.runningReqs
  queued : ∀ name ∈ s.queue, name < s.nextReq
  queueDistinct : s.queue.Nodup
  ended : ∀ name ∈ s.queue, (s.reqs name).chunked = false → (s.reqs name).aborted = false →
    (s.reqs name).tableIdx = none → name ∈ s.finishedReqs
  finished : ∀ name ∈ s.finishedReqs ++ s.newFinished,
    name < s.nextReq ∧ (s.reqs name).tableIdx = none
  lengths : ∀ name < s.nextReq, name ∉ batch → (s.reqs name).tableIdx.isSome → s.Lengths name
  ongoing : s.ongoing = none
  distinct : batch.Nodup
  ready : ∀ name ∈ batch, name < s.nextReq ∧ (s.reqs name).aborted = false ∧
    (s.reqs name).tableIdx.isSome ∧ (s.reqs name).inputIds.length +
      (if (s.reqs name).chunked then 0 else (s.undelivered name).length) = (s.reqs name).deviceLen

theorem Scheduled.chosen_prefill (control : Control s) (receiving : s.ongoing = none)
    {taken rest : List PendingReq} {pass : Pass} (split : s.pendingList = taken ++ rest)
    (of : PassOf s.nextReq s.reqs taken pass) : Chosen (s.afterPass pass rest) pass.batch := by
  have sameLength : taken.length = pass.batch.length := by rw [of.batch, length_range']
  have inBatch : ∀ name, name ∈ pass.batch ↔ s.nextReq ≤ name ∧ name < pass.nextReq := by
    intro name
    rw [of.batch, of.nextReq, mem_range'_1]
  have more : s.nextReq ≤ pass.nextReq := by
    rw [of.nextReq]
    exact Nat.le_add_right _ _
  have outside : ∀ name < s.nextReq, name ∉ pass.batch := fun name below mem =>
    absurd ((inBatch name).mp mem).1 (by omega)
  have launched : ∀ name ∈ pass.batch, ∃ pending ∈ taken,
      Launched pending (pending.chunkedReq.map s.reqs) (pass.reqs name) := by
    intro name mem
    obtain ⟨i, bound, rfl⟩ := mem_iff_getElem.mp mem
    have zipped : (taken.get ⟨i, sameLength ▸ bound⟩, pass.batch[i]) ∈ taken.zip pass.batch := by
      rw [mem_iff_getElem]
      exact ⟨i, by simpa [sameLength] using bound, by simp⟩
    exact ⟨_, getElem_mem _, of.launched _ zipped⟩
  have inChunks : ∀ pending ∈ pass.chunkedList, ∃ pre name, name ∈ pass.batch ∧
      pending = { pre with chunkedReq := some name } ∧ (pass.reqs name).chunked = true ∧
      Launched pre (pre.chunkedReq.map s.reqs) (pass.reqs name) := by
    intro pending mem
    rw [of.chunkedList] at mem
    obtain ⟨entry, zipped, made⟩ := mem_filterMap.mp mem
    split at made
    · next chunked =>
      refine ⟨entry.1, entry.2, ?_, (some.inj made).symm, chunked, of.launched entry zipped⟩
      exact (of_mem_zip (show (entry.1, entry.2) ∈ taken.zip pass.batch from zipped)).2
    · cases made
  have restOld : ∀ pending ∈ rest, pending ∈ s.pendingList := fun pending mem =>
    split ▸ mem_append_right _ mem
  have chunkNames : (pass.chunkedList.filterMap PendingReq.chunkedReq).Sublist pass.batch := by
    rw [of.chunkedList, filterMap_filterMap]
    have : ∀ (first : List PendingReq) (second : List Nat),
        ((first.zip second).filterMap fun entry =>
          (if (pass.reqs entry.2).chunked then
            some { entry.1 with chunkedReq := some entry.2 } else none).bind
            PendingReq.chunkedReq).Sublist second := by
      intro first
      induction first with
      | nil => simp
      | cons pending first ih =>
        intro second
        cases second with
        | nil => simp
        | cons name second =>
          rw [zip_cons_cons, filterMap_cons]
          split
          · exact (ih second).cons name
          · next same =>
            split at same
            · obtain rfl := some.inj same
              exact (ih second).cons_cons name
            · cases same
    exact this taken pass.batch
  obtain ⟨queueSame, -, undeliveredSame⟩ :=
    @undelivered_congr s (s.afterPass pass rest) rfl rfl rfl
  have oldReq : ∀ name < s.nextReq, (s.afterPass pass rest).reqs name = s.reqs name := of.old
  constructor
  case continuation =>
    intro pending mem name chunk
    rcases mem_append.mp mem with new | old
    · obtain ⟨pre, other, batched, rfl, chunked, made⟩ := inChunks pending new
      obtain rfl := some.inj chunk
      have within : (pass.reqs other).deviceLen < pre.inputLen := by
        have := made.chunked
        rw [chunked] at this
        exact of_decide_eq_true this.symm
      refine ⟨((inBatch other).mp batched).2, ?_⟩
      rw [if_pos batched]
      exact ⟨chunked, made.aborted, made.seated, made.uid, made.inputIds, within, made.outputLen,
        made.mmEmbeds⟩
    · obtain ⟨below, is⟩ := control.continuation pending (restOld pending old) name chunk
      refine ⟨below.trans_le more, ?_⟩
      rw [if_neg (outside name below), oldReq name below]
      exact is
  case chunksDistinct =>
    change ((pass.chunkedList ++ rest).filterMap _).Nodup
    rw [filterMap_append]
    refine Nodup.append ?_ ?_ ?_
    · refine Nodup.sublist chunkNames ?_
      rw [of.batch]
      exact nodup_range'
    · refine control.chunksDistinct.sublist ?_
      rw [split]
      exact (sublist_append_right taken rest).filterMap _
    · intro name first second
      obtain ⟨pending, mem, chunk⟩ := mem_filterMap.mp second
      exact outside name (control.continuation pending (restOld pending mem) name chunk).1
        (chunkNames.subset first)
  case continuationsFirst =>
    refine pairwise_append.mpr ⟨?_, ?_, ?_⟩
    · refine pairwise_of_forall_mem_list fun first mem second _ _ => ?_
      obtain ⟨_, name, _, rfl, _⟩ := inChunks first mem
      rfl
    · refine control.continuationsFirst.sublist ?_
      rw [split]
      exact sublist_append_right taken rest
    · intro first mem second _ _
      obtain ⟨_, name, _, rfl, _⟩ := inChunks first mem
      rfl
  case running =>
    intro name mem
    obtain ⟨below, facts⟩ := control.running name mem
    rw [oldReq name below]
    exact ⟨below.trans_le more, facts⟩
  case runningDistinct => exact control.runningDistinct
  case decoding =>
    intro name below absent decodes live seated
    have old : name < s.nextReq := by
      by_contra new
      exact absent ((inBatch name).mpr ⟨by omega, below⟩)
    rw [oldReq name old] at decodes live seated
    exact control.decoding name old decodes live seated (by simp)
  case queued =>
    intro name mem
    rw [queueSame] at mem
    exact (control.queued name mem).trans_le more
  case queueDistinct =>
    rw [queueSame]
    exact control.queueDistinct
  case ended =>
    intro name mem whole live gone
    rw [queueSame] at mem
    rw [oldReq name (control.queued name mem)] at whole live gone
    exact control.ended name mem whole live gone
  case finished =>
    intro name mem
    obtain ⟨below, gone⟩ := control.finished name mem
    rw [oldReq name below]
    exact ⟨below.trans_le more, gone⟩
  case lengths =>
    intro name below absent seated
    have old : name < s.nextReq := by
      by_contra new
      exact absent ((inBatch name).mpr ⟨by omega, below⟩)
    rw [oldReq name old] at seated
    obtain ⟨device, ids⟩ := control.lengths name old seated (by simp)
    refine ⟨?_, ?_⟩
    · rw [oldReq name old]
      exact device
    · rw [oldReq name old, undeliveredSame]
      exact ids
  case ongoing => exact receiving
  case distinct =>
    rw [of.batch]
    exact nodup_range'
  case ready =>
    intro name mem
    obtain ⟨pending, _, made⟩ := launched name mem
    refine ⟨((inBatch name).mp mem).2, made.aborted, made.seated, ?_⟩
    have notQueued : name ∉ s.queue := fun inQueue =>
      outside name (control.queued name inQueue) mem
    have none_ : (s.afterPass pass rest).undelivered name = [] := by
      rw [undeliveredSame]
      unfold undelivered inForward
      rw [if_neg notQueued, receiving]
      simp
    change (pass.reqs name).inputIds.length + _ = (pass.reqs name).deviceLen
    rw [none_, made.idsLength]
    simp

theorem Scheduled.chosen_decode (control : Control s) (receiving : s.ongoing = none) {pass : Pass}
    (of : PassOf s.nextReq s.reqs [] pass) :
    Chosen (s.afterPass pass s.pendingList) (s.decodeManager.byUid pass.reqs) := by
  have same : Control (s.afterPass pass s.pendingList) := by
    refine control.of_cores of.nextReq (fun name below => ?_) ?_ rfl rfl rfl rfl rfl rfl
    · exact congrArg Req.core (of.old name below)
    · change pass.chunkedList ++ s.pendingList = s.pendingList
      rw [of.chunkedList]
      rfl
  have inBatch : ∀ name, name ∈ s.decodeManager.byUid pass.reqs ↔
      name ∈ s.decodeManager.runningReqs := fun name => mem_insertionSort _
  constructor
  case continuation =>
    intro pending mem name chunk
    obtain ⟨below, is⟩ := same.continuation pending mem name chunk
    refine ⟨below, ?_⟩
    rw [if_neg fun batched => same.chunk_notRunning mem chunk ((inBatch name).mp batched)]
    exact is
  case chunksDistinct => exact same.chunksDistinct
  case continuationsFirst => exact same.continuationsFirst
  case running => exact same.running
  case runningDistinct => exact same.runningDistinct
  case decoding =>
    exact fun name below _ decodes live seated =>
      same.decoding name below decodes live seated (by simp)
  case queued => exact same.queued
  case queueDistinct => exact same.queueDistinct
  case ended => exact same.ended
  case finished => exact same.finished
  case lengths => exact fun name below _ seated => same.lengths name below seated (by simp)
  case ongoing => exact receiving
  case distinct => exact (perm_insertionSort _ _).nodup_iff.mpr same.runningDistinct
  case ready =>
    intro name mem
    obtain ⟨below, decodes, live, seated⟩ := same.running name ((inBatch name).mp mem)
    refine ⟨below, live, seated, ?_⟩
    have ids := (same.lengths name below seated (by simp)).inputIds
    rw [canDecode_not_chunked decodes] at ids ⊢
    simpa using ids

/-! ### The launch -/

/-- **The launch of a chosen batch.** -/
theorem Chosen.launch {batch : Batch} {admissions : List Reply}
    (chosen : Chosen s batch.reqs) (forwarded : Forwarded s batch nextTokens admissions next) :
    Control { next with ongoing := some ⟨batch, nextTokens⟩ } := by
  have queueSame : queue { next with ongoing := some ⟨batch, nextTokens⟩ } = s.queue := by
    unfold queue
    rw [forwarded.todo, forwarded.lastData]
  have forwardSame : inForward { next with ongoing := some ⟨batch, nextTokens⟩ } = batch.reqs := rfl
  have undeliveredSame : ∀ name, undelivered { next with ongoing := some ⟨batch, nextTokens⟩ } name =
      s.undelivered name ++ if name ∈ batch.reqs then [nextTokens name] else [] := by
    intro name
    unfold undelivered
    rw [queueSame, forwardSame]
    rw [forwarded.lastData]
    rw [chosen.ongoing]
    simp [sampledIn]
  have core : ∀ name, (next.reqs name).core =
      (if name ∈ batch.reqs then (s.reqs name).completeOne else s.reqs name).core := by
    intro name
    split
    · next mem => exact forwarded.completed name mem
    · next absent => exact forwarded.others name absent
  have table : ∀ name, (next.reqs name).tableIdx = (s.reqs name).tableIdx := fun name => by
    rw [Req.tableIdx_of_core (core name)]
    split <;> rfl
  have aborted : ∀ name, (next.reqs name).aborted = (s.reqs name).aborted := fun name => by
    rw [Req.aborted_of_core (core name)]
    split <;> rfl
  have chunked : ∀ name, (next.reqs name).chunked = (s.reqs name).chunked := fun name => by
    rw [Req.chunked_of_core (core name)]
    split <;> rfl
  have runs : ∀ name, name ∈ next.decodeManager.runningReqs ↔
      (name ∈ s.decodeManager.runningReqs ∨ name ∈ batch.reqs) ∧
        (next.reqs name).canDecode = true := by
    intro name
    rw [forwarded.decodeManager]
    simp only [DecodeManager.filterReqs, mem_filter, mem_append, decide_eq_true_eq]
    tauto
  constructor
  case continuation =>
    intro pending mem name chunk
    rw [show ({ next with ongoing := some ⟨batch, nextTokens⟩ } : Scheduler).pendingList =
      s.pendingList from forwarded.pendingList] at mem
    obtain ⟨below, is⟩ := chosen.continuation pending mem name chunk
    exact ⟨forwarded.nextReq ▸ below, is.of_core (core name)⟩
  case chunksDistinct =>
    rw [forwarded.pendingList]
    exact chosen.chunksDistinct
  case continuationsFirst =>
    rw [forwarded.pendingList]
    exact chosen.continuationsFirst
  case running =>
    intro name mem
    obtain ⟨which, decodes⟩ := (runs name).mp mem
    rw [forwarded.nextReq, aborted, table]
    rcases which with running | batched
    · obtain ⟨below, -, live, seated⟩ := chosen.running name running
      exact ⟨below, decodes, live, seated⟩
    · obtain ⟨below, live, seated, -⟩ := chosen.ready name batched
      exact ⟨below, decodes, live, seated⟩
  case runningDistinct =>
    rw [forwarded.decodeManager]
    refine Nodup.filter _ (Nodup.append chosen.runningDistinct (chosen.distinct.filter _) ?_)
    intro name running batched
    simpa [running] using (mem_filter.mp batched).2
  case decoding =>
    intro name below decodes live seated _
    rw [forwarded.nextReq] at below
    rw [aborted] at live
    rw [table] at seated
    refine (runs name).mpr ⟨?_, decodes⟩
    by_cases batched : name ∈ batch.reqs
    · exact Or.inr batched
    · refine Or.inl (chosen.decoding name below batched ?_ live seated)
      rw [Req.canDecode_of_core (core name), if_neg batched] at decodes
      exact decodes
  case queued =>
    rw [queueSame]
    rw [forwarded.nextReq]
    exact chosen.queued
  case queueDistinct =>
    rw [queueSame]
    exact chosen.queueDistinct
  case launched =>
    intro name mem
    obtain ⟨below, live, -⟩ := chosen.ready name mem
    exact ⟨forwarded.nextReq ▸ below, (aborted name).trans live⟩
  case launchedDistinct => exact chosen.distinct
  case ended =>
    intro name mem whole live gone
    rw [queueSame] at mem
    rw [forwarded.finishedReqs]
    exact chosen.ended name mem ((chunked name).symm.trans whole) ((aborted name).symm.trans live)
      ((table name).symm.trans gone)
  case endedAfter =>
    intro name mem _ gone
    obtain ⟨-, -, seated, -⟩ := chosen.ready name mem
    rw [← table name, show (next.reqs name).tableIdx = none from gone] at seated
    cases seated
  case finished =>
    intro name mem
    rw [forwarded.finishedReqs, forwarded.newFinished] at mem
    obtain ⟨below, gone⟩ := chosen.finished name mem
    exact ⟨forwarded.nextReq ▸ below, (table name).trans gone⟩
  case lengths =>
    intro name below seated _
    rw [forwarded.nextReq] at below
    rw [table] at seated
    have device := Req.deviceLen_of_core (core name)
    have cached := Req.cachedLen_of_core (core name)
    have inputs := Req.inputIds_of_core (core name)
    by_cases batched : name ∈ batch.reqs
    · rw [if_pos batched] at device cached inputs
      obtain ⟨-, -, -, ids⟩ := chosen.ready name batched
      have deviceNow : (next.reqs name).deviceLen = (s.reqs name).deviceLen + 1 := device
      have cachedNow : (next.reqs name).cachedLen = (s.reqs name).deviceLen := cached
      have inputsNow : (next.reqs name).inputIds = (s.reqs name).inputIds := inputs
      refine ⟨?_, ?_⟩
      · rw [deviceNow, cachedNow]
      · rw [undeliveredSame, if_pos batched]
        rw [deviceNow, inputsNow, chunked, ← ids]
        split
        · rfl
        · rw [length_append, length_singleton, add_assoc]
    · rw [if_neg batched] at device cached inputs
      obtain ⟨deviceWas, ids⟩ := chosen.lengths name below batched seated
      refine ⟨?_, ?_⟩
      · rw [device, cached]
        exact deviceWas
      · rw [undeliveredSame, if_neg batched, append_nil]
        rw [device, inputs, chunked]
        exact ids

/-- What a launch leads to: the batch it launched, if any, on the state it chose. -/
inductive LaunchedBatch (cfg : SchedulerConfig) (s : Scheduler) (nextTokens : Nat → Token) :
    Scheduler → Prop
  | idle (chosen : Scheduler) (scheduled : Scheduled cfg s chosen none) :
      LaunchedBatch cfg s nextTokens { chosen with ongoing := none }
  | batch (chosen prepared : Scheduler) (batch : Batch) (admissions : List (Nat × Nat × Nat))
      (scheduled : Scheduled cfg s chosen (some (batch, admissions)))
      (prepare : chosen.prepareBatch cfg batch = .ok prepared)
      (forwarded : Forwarded chosen batch nextTokens
        (admissions.map fun entry => .promptAdmitted entry.1 entry.2.1 entry.2.2)
        ((prepared.sendResult (admissions.map fun entry =>
          .promptAdmitted entry.1 entry.2.1 entry.2.2)).forward cfg batch nextTokens)) :
      LaunchedBatch cfg s nextTokens
        { (prepared.sendResult (admissions.map fun entry =>
            .promptAdmitted entry.1 entry.2.1 entry.2.2)).forward cfg batch nextTokens with
          ongoing := some ⟨batch, nextTokens⟩ }

theorem Scheduled.chosen (control : Control s) (receiving : s.ongoing = none) {mid : Scheduler}
    {batch : Batch} {admissions : List (Nat × Nat × Nat)}
    (scheduled : Scheduled cfg s mid (some (batch, admissions))) : Chosen mid batch.reqs := by
  cases scheduled with
  | prefill taken rest pass _ split of _ => exact chosen_prefill control receiving split of
  | other pass of _ _ decode =>
    split at decode
    · cases decode
    · obtain ⟨rfl, -⟩ := Prod.mk.inj (some.inj decode)
      exact chosen_decode control receiving of

theorem launchBatch_ok (control : Control s) (receiving : s.ongoing = none) (done : s.launchBatch cfg nextTokens = .ok next) :
    LaunchedBatch cfg s nextTokens next := by
  obtain ⟨⟨mid, batch⟩, chosen, done⟩ := bind_eq_ok.mp done
  have scheduled := scheduleNextBatch_ok control chosen
  cases batch with
  | none =>
    obtain rfl := pure_eq_ok.mp done
    exact LaunchedBatch.idle mid scheduled
  | some batch =>
    obtain ⟨batch, admissions⟩ := batch
    obtain ⟨prepared, prepare, done⟩ := bind_eq_ok.mp done
    obtain rfl := pure_eq_ok.mp done
    have nodup := (scheduled.chosen control receiving).distinct
    exact LaunchedBatch.batch mid prepared batch admissions scheduled prepare
      (prepare_forwarded nextTokens nodup prepare)

theorem LaunchedBatch.control (control : Control s) (receiving : s.ongoing = none) (launched : LaunchedBatch cfg s nextTokens next) : Control next := by
  cases launched with
  | idle mid scheduled =>
    cases scheduled with
    | other pass of _ _ _ =>
      refine control.of_cores of.nextReq (fun name below => ?_) ?_ rfl rfl receiving.symm rfl rfl rfl
      · exact congrArg Req.core (of.old name below)
      · change pass.chunkedList ++ s.pendingList = s.pendingList
        rw [of.chunkedList]
        rfl
  | batch mid prepared batch admissions scheduled _ forwarded =>
    exact (scheduled.chosen control receiving).launch forwarded

theorem LaunchedBatch.frame
    (launched : LaunchedBatch cfg s nextTokens next) : next.lastData = s.lastData ∧
      next.todo = s.todo ∧ next.reply = s.reply ∧ next.finishedReqs = s.finishedReqs ∧
      next.newFinished = s.newFinished ∧ next.pendingAbortAcks = s.pendingAbortAcks ∧
      next.abortTombstones = s.abortTombstones := by
  cases launched with
  | idle mid scheduled =>
    cases scheduled with
    | other => exact ⟨rfl, rfl, rfl, rfl, rfl, rfl, rfl⟩
  | batch mid prepared batch admissions scheduled _ forwarded =>
    have sames : mid.lastData = s.lastData ∧ mid.todo = s.todo ∧ mid.reply = s.reply ∧
        mid.finishedReqs = s.finishedReqs ∧ mid.newFinished = s.newFinished ∧
        mid.pendingAbortAcks = s.pendingAbortAcks ∧ mid.abortTombstones = s.abortTombstones := by
      cases scheduled <;> exact ⟨rfl, rfl, rfl, rfl, rfl, rfl, rfl⟩
    obtain ⟨last, todo, reply, finished, newFinished, acks, tombs⟩ := sames
    exact ⟨forwarded.lastData.trans last, forwarded.todo.trans todo, forwarded.reply.trans reply,
      forwarded.finishedReqs.trans finished, forwarded.newFinished.trans newFinished,
      forwarded.pendingAbortAcks.trans acks, forwarded.abortTombstones.trans tombs⟩

theorem launch_ok (done : s.launch cfg nextTokens = .ok next) :
    ∃ launched, s.launchBatch cfg nextTokens = .ok launched ∧ (launched.lastData = none ∧
          next = { launched.flushAbortAcks with lastData := launched.ongoing, ongoing := none } ∨
        ∃ data, launched.lastData = some data ∧ next = { launched with
            cacheManager := launched.cacheManager.openLazyFreeRegion
            todo := some data.batch.reqs
            newFinished := []
            reply := [] }) := by
  obtain ⟨launched, ok, done⟩ := bind_eq_ok.mp done
  refine ⟨launched, ok, ?_⟩
  split at done
  · next nothing => exact Or.inl ⟨nothing, (pure_eq_ok.mp done).symm⟩
  · next data some_ => exact Or.inr ⟨data, some_, (pure_eq_ok.mp done).symm⟩

theorem LaunchedBatch.seated (control : Control s) (receiving : s.ongoing = none) (launched : LaunchedBatch cfg s nextTokens next) :
    ∀ name ∈ next.inForward, (next.reqs name).tableIdx.isSome := by
  cases launched with
  | idle => simp [inForward]
  | batch mid prepared batch admissions scheduled _ forwarded =>
    intro name mem
    obtain ⟨-, -, seated, -⟩ := (scheduled.chosen control receiving).ready name mem
    rw [show (_ : Req).tableIdx = _ from Req.tableIdx_of_core (forwarded.completed name mem)]
    exact seated

/-! ### The drain -/

theorem ControlBut.rotate (control : Control s) (drained : s.queue = [])
    (same : next.reqs = s.reqs) (nextReq : next.nextReq = s.nextReq)
    (pending : next.pendingList = s.pendingList) (decode : next.decodeManager = s.decodeManager)
    (last : next.lastData = s.ongoing) (ongoing : next.ongoing = none) (todo : next.todo = none)
    (finished : ∀ name ∈ next.finishedReqs ++ next.newFinished,
      name ∈ s.finishedReqs ++ s.newFinished)
    (ended : ∀ name ∈ s.inForward, (s.reqs name).chunked = false →
      (s.reqs name).tableIdx = none → name ∈ next.finishedReqs) : Control next := by
  have queueSame : next.queue = s.inForward := by
    unfold queue inForward
    rw [todo, last]
  have forwardSame : next.inForward = [] := by
    unfold inForward
    rw [ongoing]
    rfl
  have undeliveredSame : ∀ name, next.undelivered name = s.undelivered name := by
    intro name
    unfold undelivered
    rw [queueSame, forwardSame, drained, last]
    simp
  constructor
  case continuation =>
    rw [pending, same, nextReq]
    exact control.continuation
  case chunksDistinct =>
    rw [pending]
    exact control.chunksDistinct
  case continuationsFirst =>
    rw [pending]
    exact control.continuationsFirst
  case running =>
    rw [decode, same, nextReq]
    exact control.running
  case runningDistinct =>
    rw [decode]
    exact control.runningDistinct
  case decoding =>
    rw [decode, same, nextReq]
    exact control.decoding
  case queued =>
    rw [queueSame, nextReq]
    exact fun name mem => (control.launched name mem).1
  case queueDistinct =>
    rw [queueSame]
    exact control.launchedDistinct
  case launched => simp [forwardSame]
  case launchedDistinct => simp [forwardSame]
  case ended =>
    intro name mem whole _ gone
    rw [queueSame] at mem
    rw [same] at whole gone
    exact ended name mem whole gone
  case endedAfter => simp [forwardSame]
  case finished =>
    intro name mem
    rw [nextReq, same]
    exact control.finished name (finished name mem)
  case lengths =>
    intro name below seated here
    rw [nextReq] at below
    rw [same] at seated
    obtain ⟨device, ids⟩ := control.lengths name below seated here
    refine ⟨?_, ?_⟩
    · rw [same]
      exact device
    · rw [same, undeliveredSame]
      exact ids

theorem launch_control (control : Control s) (phase : Phase s) (todo : s.todo = none) (done : s.launch cfg nextTokens = .ok next) :
    Control next ∧ Phase next := by
  have receiving := (phase.receiving todo).1
  obtain ⟨launched, ok, after⟩ := launch_ok done
  have batch := launchBatch_ok control receiving ok
  have launchedControl := batch.control control receiving
  have seated := batch.seated control receiving
  obtain ⟨lastSame, todoSame, replySame, -⟩ := batch.frame
  have gone : ∀ name ∈ launched.inForward, (launched.reqs name).tableIdx ≠ none := by
    intro name mem none_
    have := seated name mem
    rw [none_] at this
    cases this
  rcases after with ⟨nothing, rfl⟩ | ⟨data, some_, rfl⟩
  · refine ⟨?_, ?_⟩
    · refine launchedControl.rotate ?_ rfl rfl rfl rfl rfl rfl (todoSame.trans todo)
        (fun _ mem => mem) ?_
      · unfold queue
        rw [todoSame.trans todo, nothing]
        rfl
      · exact fun name mem _ none_ => absurd none_ (gone name mem)
    · refine ⟨fun _ => ⟨rfl, replySame.trans (phase.receiving todo).2⟩, fun draining => ?_⟩
      change launched.todo.isSome = true at draining
      rw [todoSame, todo] at draining
      cases draining
  · refine ⟨?_, ⟨fun receives => (by cases receives), fun _ => ?_⟩⟩
    · have queueSame : launched.queue = data.batch.reqs := by
        unfold queue
        rw [todoSame.trans todo, some_]
        rfl
      constructor
      case continuation => exact launchedControl.continuation
      case chunksDistinct => exact launchedControl.chunksDistinct
      case continuationsFirst => exact launchedControl.continuationsFirst
      case running => exact launchedControl.running
      case runningDistinct => exact launchedControl.runningDistinct
      case decoding => exact launchedControl.decoding
      case queued => exact queueSame ▸ launchedControl.queued
      case queueDistinct => exact queueSame ▸ launchedControl.queueDistinct
      case launched => exact launchedControl.launched
      case launchedDistinct => exact launchedControl.launchedDistinct
      case ended => exact queueSame ▸ launchedControl.ended
      case endedAfter => exact fun name member _ none_ => absurd none_ (gone name member)
      case finished =>
        intro name mem
        exact launchedControl.finished name
          (mem_append_left _ (by simpa using mem))
      case lengths =>
        intro name below seated here
        obtain ⟨device, ids⟩ := launchedControl.lengths name below seated here
        refine ⟨device, ?_⟩
        have same : undelivered { launched with
            cacheManager := launched.cacheManager.openLazyFreeRegion
            todo := some data.batch.reqs
            newFinished := []
            reply := [] } name = launched.undelivered name := by
          unfold undelivered
          rw [queueSame]
          rfl
        rw [same]
        exact ids
    · rw [some_]
      rfl

theorem ControlBut.dequeue (control : Control s) {rest : List Nat}
    (todo : s.todo = some (name :: rest)) (last : s.lastData = some data) :
    ControlBut none (some name) { s with todo := some rest } ∧ name < s.nextReq ∧
      ((s.reqs name).chunked = false → (s.reqs name).aborted = false →
        (s.reqs name).tableIdx = none → name ∈ s.finishedReqs) ∧
      ((s.reqs name).tableIdx.isSome → (s.reqs name).deviceLen = (s.reqs name).cachedLen + 1 ∧
        (s.reqs name).inputIds.length + 1 + (if (s.reqs name).chunked then 0
          else (undelivered { s with todo := some rest } name).length) = (s.reqs name).deviceLen) := by
  have queueIs : s.queue = name :: rest := by
    unfold queue
    rw [todo]
  have nodup := control.queueDistinct
  rw [queueIs] at nodup
  obtain ⟨apart, restDistinct⟩ := nodup_cons.mp nodup
  have sub : ∀ other ∈ rest, other ∈ s.queue := fun other mem => queueIs ▸ mem_cons_of_mem _ mem
  have head : name ∈ s.queue := by
    rw [queueIs]
    exact mem_cons_self
  have restQueue : queue { s with todo := some rest } = rest := rfl
  refine ⟨?_, control.queued name head, control.ended name head, fun seated => ?_⟩
  · constructor
    case continuation => exact control.continuation
    case chunksDistinct => exact control.chunksDistinct
    case continuationsFirst => exact control.continuationsFirst
    case running => exact control.running
    case runningDistinct => exact control.runningDistinct
    case decoding => exact control.decoding
    case queued => exact fun other member => control.queued other (sub other member)
    case queueDistinct => exact restDistinct
    case launched => exact control.launched
    case launchedDistinct => exact control.launchedDistinct
    case ended => exact fun other member => control.ended other (sub other member)
    case endedAfter => exact control.endedAfter
    case finished => exact control.finished
    case lengths =>
      intro other below seated ne
      have apart : other ≠ name := fun same => ne (congrArg some same)
      obtain ⟨device, ids⟩ := control.lengths other below seated (by simp)
      refine ⟨device, ?_⟩
      have same : undelivered { s with todo := some rest } other = s.undelivered other := by
        unfold undelivered
        rw [queueIs, restQueue]
        refine congrArg₂ (· ++ ·) (if_congr ?_ rfl rfl) rfl
        rw [mem_cons]
        exact ⟨Or.inr, fun either => either.resolve_left apart⟩
      rw [same]
      exact ids
  · obtain ⟨device, ids⟩ := control.lengths name (control.queued name head) seated (by simp)
    refine ⟨device, ?_⟩
    have now : undelivered { s with todo := some rest } name =
        if name ∈ s.inForward then sampledIn s.ongoing name else [] := by
      unfold undelivered
      rw [restQueue, if_neg apart]
      rfl
    have was : s.undelivered name =
        [data.nextTokens name] ++ undelivered { s with todo := some rest } name := by
      rw [now]
      unfold undelivered
      rw [if_pos head, last]
      rfl
    rw [was] at ids
    rw [← ids]
    split
    · rfl
    · rw [length_append, length_singleton, add_assoc]

theorem ControlBut.onTime (control : ControlBut none (some name) s)
    (lengths : (s.reqs name).tableIdx.isSome → s.Lengths name) : Control s :=
  { control with
    lengths := fun other below seated _ => by
      by_cases same : other = name
      · subst same
        exact lengths seated
      · exact control.lengths other below seated fun equal => same (some.inj equal) }

theorem ControlBut.append (control : ControlBut none (some name) s)
    (whole : (s.reqs name).chunked = false) {req : Req} {token : Token}
    (core : req.core = { (s.reqs name).core with inputIds := (s.reqs name).inputIds ++ [token] })
    (reply : List Reply) :
    ControlBut none (some name) { s.setReq name req with reply := reply } := by
  have here : ({ s.setReq name req with reply := reply } : Scheduler).reqs name = req :=
    update_self ..
  have others : ∀ other, other ≠ name →
      ({ s.setReq name req with reply := reply } : Scheduler).reqs other = s.reqs other :=
    fun other ne => update_of_ne ne _ _
  have table : req.tableIdx = (s.reqs name).tableIdx := by
    have := congrArg Req.tableIdx core
    exact this
  have aborted : req.aborted = (s.reqs name).aborted := by
    have := congrArg Req.aborted core
    exact this
  have chunked : req.chunked = (s.reqs name).chunked := by
    have := congrArg Req.chunked core
    exact this
  have decode : req.canDecode = (s.reqs name).canDecode := by
    have maxLen := congrArg Req.maxDeviceLen core
    have deviceLen := congrArg Req.deviceLen core
    change req.maxDeviceLen = (s.reqs name).maxDeviceLen at maxLen
    change req.deviceLen = (s.reqs name).deviceLen at deviceLen
    unfold Req.canDecode Req.remainLen
    rw [chunked, maxLen, deviceLen]
  have notContinued : ∀ pending ∈ s.pendingList, pending.chunkedReq ≠ some name := by
    intro pending inList chunk
    have := (control.continuation pending inList name chunk).2.chunked
    rw [whole] at this
    cases this
  have parts : ∀ other, ({ s.setReq name req with reply := reply } : Scheduler).reqs other =
      s.reqs other ∨ other = name := fun other => by
    by_cases same : other = name
    · exact Or.inr same
    · exact Or.inl (others other same)
  constructor
  case continuation =>
    intro pending inList other chunk
    rw [others other fun same => notContinued pending inList (same ▸ chunk)]
    exact control.continuation pending inList other chunk
  case chunksDistinct => exact control.chunksDistinct
  case continuationsFirst => exact control.continuationsFirst
  case running =>
    intro other running
    rcases parts other with same | rfl
    · rw [same]
      exact control.running other running
    · rw [here, decode, aborted, table]
      exact control.running other running
  case runningDistinct => exact control.runningDistinct
  case decoding =>
    intro other below
    rcases parts other with same | rfl
    · rw [same]
      exact control.decoding other below
    · rw [here, decode, aborted, table]
      exact control.decoding other below
  case queued => exact control.queued
  case queueDistinct => exact control.queueDistinct
  case launched =>
    intro other launched
    rcases parts other with same | rfl
    · rw [same]
      exact control.launched other launched
    · rw [here, aborted]
      exact control.launched other launched
  case launchedDistinct => exact control.launchedDistinct
  case ended =>
    intro other queued
    rcases parts other with same | rfl
    · rw [same]
      exact control.ended other queued
    · rw [here, aborted, table, chunked]
      exact control.ended other queued
  case endedAfter =>
    intro other launched
    rcases parts other with same | rfl
    · rw [same]
      exact control.endedAfter other launched
    · rw [here, table, chunked]
      exact control.endedAfter other launched
  case finished =>
    intro other ended
    rcases parts other with same | rfl
    · rw [same]
      exact control.finished other ended
    · rw [here, table]
      exact control.finished other ended
  case lengths =>
    intro other below seated ne
    have apart : other ≠ name := fun same => ne (congrArg some same)
    rw [others other apart] at seated
    obtain ⟨device, ids⟩ := control.lengths other below seated ne
    refine ⟨?_, ?_⟩
    · rw [others other apart]
      exact device
    · rw [others other apart]
      exact ids

theorem finishReq_retired (done : s.finishReq name = .ok next) :
    Retired { s with decodeManager := s.decodeManager.removeReq name } name next ∧
      next.newFinished = s.newFinished ++ [name] ∧ (next.reqs name).tableIdx = none ∧
      (next.reqs name).aborted = (s.reqs name).aborted := by
  obtain ⟨freed, freeing, done⟩ := bind_eq_ok.mp done
  obtain rfl := pure_eq_ok.mp done
  obtain ⟨retired, gone, kept⟩ := freeReqResources_retired freeing
  have same : freed.newFinished = s.newFinished := by
    unfold freeReqResources at freeing
    split at freeing
    · cases freeing
      rfl
    · obtain ⟨_, -, freeing⟩ := bind_eq_ok.mp freeing
      obtain rfl := pure_eq_ok.mp freeing
      rfl
  have appended : freed.newFinished ++ [name] = s.newFinished ++ [name] := by rw [same]
  exact ⟨{ retired with newFinished := Or.inr ⟨appended, gone⟩ }, appended, gone, kept⟩

theorem finishReq_control {late : Option Nat} (control : ControlBut none late s)
    (only : ∀ other, late = some other → other = name) (known : name < s.nextReq)
    (whole : (s.reqs name).chunked = false) (notQueued : name ∉ s.queue)
    (done : s.finishReq name = .ok next) : Control next := by
  obtain ⟨retired, noted, gone, kept⟩ := finishReq_retired done
  refine (control.removeReq name).retire known (fun _ same => (some.inj same).symm)
    (fun other same => ⟨only other same, gone⟩) retired ?_ ?_ ?_ ?_
  · intro pending mem chunk
    have := (control.continuation pending mem name chunk).2.chunked
    rw [whole] at this
    cases this
  · exact notMem_removeReq _ name
  · exact fun mem => absurd mem notQueued
  · intro mem
    refine ⟨kept.trans (control.launched name mem).2, fun _ _ => ?_⟩
    rw [noted]
    exact mem_append_right _ (mem_singleton_self name)

theorem noteAnchor_core (cfg : SchedulerConfig) (req : Req) (nextToken : Token) (finished : Bool) :
    (noteAnchor cfg req nextToken finished).core = req.core := by
  unfold noteAnchor
  split <;> rfl

theorem appendHost_ok {req res : Req} {nextToken : Token}
    (done : req.appendHost nextToken = .ok res) :
    req.chunked = false ∧ req.inputIds.length + 1 ≤ req.maxDeviceLen ∧
      res = { req with inputIds := req.inputIds ++ [nextToken] } := by
  unfold Req.appendHost at done
  split at done
  · cases done
  · next whole =>
    obtain ⟨_, passed, done⟩ := bind_eq_ok.mp done
    exact ⟨by simpa using whole, ensure_ok passed, (pure_eq_ok.mp done).symm⟩

/-- What the delivery of a token leads to: the request with the token and a reply, and then its end
or its commit. -/
inductive Delivered (cfg : SchedulerConfig) (s : Scheduler) (isPrefill : Bool) (name : Nat)
    (nextToken : Token) (given : Req) : Scheduler → Prop
  | finished (next : Scheduler) (ends : (verdict cfg
        { s.reqs name with inputIds := (s.reqs name).inputIds ++ [nextToken] } nextToken).finished = true)
      (done : ({ s.setReq name given with
        reply := s.reply ++ [tokenReply given nextToken (verdict cfg { s.reqs name with
          inputIds := (s.reqs name).inputIds ++ [nextToken] } nextToken)] } :
            Scheduler).finishReq name = .ok next) :
      Delivered cfg s isPrefill name nextToken given next
  | committed (cm : CacheManager) (req : Req) (goesOn : (verdict cfg
        { s.reqs name with inputIds := (s.reqs name).inputIds ++ [nextToken] } nextToken).finished = false)
      (prefill : isPrefill = true) (seated : given.tableIdx.isSome)
      (commit : s.cacheManager.cacheReq given false = .ok (cm, req)) :
      Delivered cfg s isPrefill name nextToken given
        (({ s.setReq name given with
          reply := s.reply ++ [tokenReply given nextToken (verdict cfg { s.reqs name with
            inputIds := (s.reqs name).inputIds ++ [nextToken] } nextToken)]
          cacheManager := cm } : Scheduler).setReq name req)
  | kept (goesOn : (verdict cfg
        { s.reqs name with inputIds := (s.reqs name).inputIds ++ [nextToken] } nextToken).finished = false) :
      Delivered cfg s isPrefill name nextToken given
        { s.setReq name given with
          reply := s.reply ++ [tokenReply given nextToken (verdict cfg { s.reqs name with
            inputIds := (s.reqs name).inputIds ++ [nextToken] } nextToken)] }

theorem deliver_ok {isPrefill : Bool} {nextToken : Token}
    (done : s.deliver cfg isPrefill name nextToken = .ok next) :
    (s.reqs name).chunked = false ∧ (s.reqs name).inputIds.length + 1 ≤ (s.reqs name).maxDeviceLen ∧
      ∃ given : Req, given.core = { (s.reqs name).core with
          inputIds := (s.reqs name).inputIds ++ [nextToken] } ∧
        given = noteAnchor cfg { s.reqs name with inputIds := (s.reqs name).inputIds ++ [nextToken] }
          nextToken (verdict cfg { s.reqs name with
            inputIds := (s.reqs name).inputIds ++ [nextToken] } nextToken).finished ∧
        Delivered cfg s isPrefill name nextToken given next := by
  obtain ⟨req, appended, done⟩ := bind_eq_ok.mp done
  obtain ⟨whole, room, rfl⟩ := appendHost_ok appended
  dsimp only at done
  refine ⟨whole, room, _, noteAnchor_core _ _ _ _, rfl, ?_⟩
  split at done
  · next ends => exact Delivered.finished next ends done
  · next goesOn =>
    have goesOn := Bool.not_eq_true _ ▸ goesOn
    split at done
    · next both =>
      obtain ⟨⟨cm, req⟩, commit, done⟩ := bind_eq_ok.mp done
      obtain rfl := pure_eq_ok.mp done
      exact Delivered.committed cm req goesOn both.1 both.2 commit
    · obtain rfl := pure_eq_ok.mp done
      exact Delivered.kept goesOn

inductive DrainedReq (cfg : SchedulerConfig) (s : Scheduler) (data : ForwardData) (name : Nat) :
    Scheduler → Prop
  | chunk (chunked : (s.reqs name).chunked = true) (live : (s.reqs name).aborted = false) :
      DrainedReq cfg s data name s
  | chunkFreed (next : Scheduler) (chunked : (s.reqs name).chunked = true)
      (aborted : (s.reqs name).aborted = true) (done : s.freeReqResources name = .ok next) :
      DrainedReq cfg s data name next
  | aborted (next : Scheduler) (whole : (s.reqs name).chunked = false)
      (aborted : (s.reqs name).aborted = true) (done : s.finishReq name = .ok next) :
      DrainedReq cfg s data name next
  | skipped (whole : (s.reqs name).chunked = false) (live : (s.reqs name).aborted = false)
      (ended : name ∈ s.finishedReqs) : DrainedReq cfg s data name s
  | delivered (next : Scheduler) (whole : (s.reqs name).chunked = false)
      (live : (s.reqs name).aborted = false) (goesOn : name ∉ s.finishedReqs)
      (done : s.deliver cfg data.batch.isPrefill name (data.nextTokens name) = .ok next) :
      DrainedReq cfg s data name next

theorem drainReq_ok
    (done : s.drainReq cfg data name = .ok next) : DrainedReq cfg s data name next := by
  unfold drainReq at done
  dsimp only at done
  split at done
  · next chunked =>
    split at done
    · next aborted => exact DrainedReq.chunkFreed next chunked aborted done
    · next live =>
      cases done
      exact DrainedReq.chunk chunked (by simpa using live)
  · next whole =>
    have whole : (s.reqs name).chunked = false := by simpa using whole
    split at done
    · next aborted => exact DrainedReq.aborted next whole aborted done
    · next live =>
      have live : (s.reqs name).aborted = false := by simpa using live
      split at done
      · next ended =>
        cases done
        exact DrainedReq.skipped whole live ended
      · next goesOn => exact DrainedReq.delivered next whole live goesOn done

theorem drain_ok (phase : Phase s) (draining : s.todo.isSome) (done : s.drain cfg = .ok next) :
    (∃ name rest data, s.todo = some (name :: rest) ∧ s.lastData = some data ∧
      DrainedReq cfg { s with todo := some rest } data name next) ∨
    s.todo = some [] ∧ next = s.finishDrain := by
  unfold drain at done
  split at done
  · next name rest data todo last => exact Or.inl ⟨name, rest, data, todo, last, drainReq_ok done⟩
  · next todo isTodo rest =>
    obtain ⟨data, last⟩ := isSome_iff_exists.mp (phase.draining draining)
    refine Or.inr ⟨?_, (Except.ok.inj done).symm⟩
    rw [isTodo]
    cases todo with
    | nil => rfl
    | cons name others => exact absurd rfl (rest name others data last)
  · next nothing =>
    rw [nothing] at draining
    cases draining

theorem DrainedReq.control
    (control : ControlBut none (some name) s) (known : name < s.nextReq) (notQueued : name ∉ s.queue)
    (ended : (s.reqs name).chunked = false → (s.reqs name).aborted = false →
      (s.reqs name).tableIdx = none → name ∈ s.finishedReqs)
    (lengths : (s.reqs name).tableIdx.isSome →
      (s.reqs name).deviceLen = (s.reqs name).cachedLen + 1 ∧
        (s.reqs name).inputIds.length + 1 + (if (s.reqs name).chunked then 0
          else (s.undelivered name).length) = (s.reqs name).deviceLen)
    (continued : (s.reqs name).chunked = true → (s.reqs name).aborted = true →
      ∀ pending ∈ s.pendingList, pending.chunkedReq ≠ some name)
    (drained : DrainedReq cfg s data name next) : Control next := by
  have onlyName : ∀ other, some name = some other → other = name := fun _ same =>
    (some.inj same).symm
  cases drained with
  | chunk chunked live =>
    refine control.onTime fun seated => ?_
    obtain ⟨device, ids⟩ := lengths seated
    rw [chunked] at ids
    exact ⟨device, by rw [chunked]; exact ids⟩
  | chunkFreed next chunked aborted done =>
    obtain ⟨retired, gone, kept⟩ := freeReqResources_retired done
    refine control.retire known nofun
      (fun other same => ⟨onlyName other same, gone⟩) retired (continued chunked aborted) ?_
      (fun mem => absurd mem notQueued) ?_
    · intro running
      have := canDecode_not_chunked (control.running name running).2.1
      rw [chunked] at this
      cases this
    · intro mem
      have := (control.launched name mem).2
      rw [aborted] at this
      cases this
  | aborted next whole aborted done =>
    exact finishReq_control control onlyName known whole notQueued done
  | skipped whole live isEnded =>
    refine control.onTime fun seated => ?_
    rw [(control.finished name (mem_append_left _ isEnded)).2] at seated
    cases seated
  | delivered next whole live goesOn done =>
    have seated : (s.reqs name).tableIdx.isSome := by
      rcases unseated : (s.reqs name).tableIdx with _ | idx
      · exact absurd (ended whole live unseated) goesOn
      · rfl
    obtain ⟨device, ids⟩ := lengths seated
    obtain ⟨-, -, given, core, -, delivered⟩ := deliver_ok done
    have givenWhole : given.chunked = false := by
      have same := congrArg Req.chunked core
      exact same.trans whole
    have givenDevice : given.deviceLen = (s.reqs name).deviceLen := by
      have same := congrArg Req.deviceLen core
      exact same
    have givenCached : given.cachedLen = (s.reqs name).cachedLen := by
      have same := congrArg Req.cachedLen core
      exact same
    have givenIds : given.inputIds = (s.reqs name).inputIds ++ [data.nextTokens name] := by
      have same := congrArg Req.inputIds core
      exact same
    have appended : ∀ reply, Control { s.setReq name given with reply := reply } := by
      intro reply
      refine (control.append whole core reply).onTime fun _ => ?_
      have here : ({ s.setReq name given with reply := reply } : Scheduler).reqs name = given :=
        update_self ..
      refine ⟨?_, ?_⟩
      · rw [here, givenDevice, givenCached]
        exact device
      · rw [here, givenWhole, givenDevice, givenIds, ← ids, whole]
        simp only [length_append, length_singleton]
        rfl
    cases delivered with
    | finished _ _ done =>
      refine finishReq_control (appended _) nofun known ?_ notQueued done
      change (update s.reqs name given name).chunked = false
      rw [update_self]
      exact givenWhole
    | committed cm req _ _ _ commit =>
      refine (appended []).of_cores rfl (fun other _ => ?_) rfl rfl rfl rfl rfl rfl rfl
      change (update (update s.reqs name given) name req other).core =
        (update s.reqs name given other).core
      by_cases same : other = name
      · rw [same, update_self, update_self]
        exact CacheManager.cacheReq_core commit
      · rw [update_of_ne same]
    | kept => exact appended _

theorem DrainedReq.frame
    (drained : DrainedReq cfg s data name next) : next.todo = s.todo ∧ next.lastData = s.lastData ∧
      next.ongoing = s.ongoing := by
  have finish : ∀ {start last : Scheduler}, start.finishReq name = .ok last →
      last.todo = start.todo ∧ last.lastData = start.lastData ∧ last.ongoing = start.ongoing := by
    intro start last done
    obtain ⟨retired, -⟩ := finishReq_retired done
    exact ⟨retired.todo, retired.lastData, retired.ongoing⟩
  cases drained with
  | chunk | skipped => exact ⟨rfl, rfl, rfl⟩
  | chunkFreed next _ _ done =>
    obtain ⟨retired, -⟩ := freeReqResources_retired done
    exact ⟨retired.todo, retired.lastData, retired.ongoing⟩
  | aborted next _ _ done => exact finish done
  | delivered next _ _ _ done =>
    obtain ⟨-, -, given, -, -, delivered⟩ := deliver_ok done
    cases delivered with
    | finished _ _ done =>
      have same := finish done
      exact same
    | committed | kept => exact ⟨rfl, rfl, rfl⟩

theorem drain_control (control : Control s) (phase : Phase s) (draining : s.todo.isSome)
    (continued : ∀ name, (s.reqs name).chunked = true → (s.reqs name).aborted = true →
      ∀ pending ∈ s.pendingList, pending.chunkedReq ≠ some name)
    (done : s.drain cfg = .ok next) : Control next ∧ Phase next := by
  rcases drain_ok phase draining done with ⟨name, rest, data, todo, last, drained⟩ | ⟨todo, rfl⟩
  · obtain ⟨late, known, ended, lengths⟩ := control.dequeue todo last
    have notQueued : name ∉ queue { s with todo := some rest } := by
      have nodup := control.queueDistinct
      rw [show s.queue = name :: rest by
        unfold queue
        rw [todo]] at nodup
      exact (nodup_cons.mp nodup).1
    refine ⟨drained.control late known notQueued ended lengths (continued name), ?_⟩
    obtain ⟨todoSame, lastSame, -⟩ := drained.frame
    refine ⟨fun none_ => ?_, fun _ => ?_⟩
    · rw [todoSame] at none_
      cases none_
    · rw [lastSame]
      exact phase.draining draining
  · refine ⟨control.rotate ?_ rfl rfl rfl rfl rfl rfl rfl ?_ ?_, ⟨fun _ => ⟨rfl, rfl⟩, ?_⟩⟩
    · unfold queue
      rw [todo]
    · intro name mem
      refine mem_append_right _ ?_
      rcases mem_append.mp mem with first | second
      · exact first
      · exact second
    · exact control.endedAfter
    · exact fun absurd => nomatch absurd

theorem processOneMsg_frame (control : Control s) {msg : Msg}
    (done : s.processOneMsg cfg msg = .ok next) : next.todo = s.todo ∧ next.lastData = s.lastData ∧
      next.ongoing = s.ongoing ∧ next.reply = s.reply := by
  cases msg with
  | user msg =>
    cases done
    unfold processUser
    dsimp only
    split
    · exact ⟨rfl, rfl, rfl, rfl⟩
    · split <;> exact ⟨rfl, rfl, rfl, rfl⟩
  | abort uid =>
    obtain ⟨taken, freed, reqToFree, took, freeing, rfl⟩ := processAbort_ok control done
    have retired : ∀ {start freed : Scheduler} {name : Nat},
        start.freeAborted (some name) = .ok freed → freed.todo = start.todo ∧
          freed.lastData = start.lastData ∧ freed.ongoing = start.ongoing ∧
          freed.reply = start.reply := by
      intro start freed name freeing
      change (if start.inFlight name then _ else _) = _ at freeing
      split at freeing
      · cases freeing
        exact ⟨rfl, rfl, rfl, rfl⟩
      · obtain ⟨retired, -⟩ := freeReqResources_retired freeing
        exact ⟨retired.todo, retired.lastData, retired.ongoing, retired.reply⟩
    cases took with
    | none =>
      cases freeing
      exact ⟨rfl, rfl, rfl, rfl⟩
    | chunk | running =>
      have same := retired freeing
      exact same

/-- **The invariant holds in every state that is reached**. -/
theorem control_run {cm : CacheManager} {maxRunningReqs : Nat} {events : List Event}
    (run : Run cfg (Scheduler.new cm maxRunningReqs) events s) : Control s ∧ Phase s := by
  induction run with
  | nil => exact control_new cm maxRunningReqs
  | @snoc events s next event _ enabled step ih =>
    obtain ⟨control, phase⟩ := ih
    cases event with
    | recv msg =>
      have todo : s.todo = none := by simpa [Scheduler.enabled] using enabled
      obtain ⟨todoSame, -, ongoingSame, replySame⟩ := processOneMsg_frame control step
      refine ⟨processOneMsg_control control phase todo step, fun _ => ?_, fun draining => ?_⟩
      · rw [ongoingSame, replySame]
        exact phase.receiving todo
      · rw [todoSame, todo] at draining
        cases draining
    | launch nextTokens =>
      have todo : s.todo = none := by simpa [Scheduler.enabled] using enabled
      exact launch_control control phase todo step
    | drain =>
      refine drain_control control phase enabled ?_ step
      intro name chunked aborted pending mem chunk
      have := (control.continuation pending mem name chunk).2.aborted
      rw [aborted] at this
      cases this

end Scheduler

end FreeToken
