/-
**The control invariant of the scheduler.**

* `control_run`: it holds in every state that is reached.
-/

import FreeToken.Scheduler.Loops
import FreeToken.Scheduler.Admission

namespace FreeToken

open List Function

/-- The request object of the chunk before, seen from the pending request. -/
structure ContinuationOf (pending : PendingReq) (req : Req) : Prop where
  chunked : req.chunked = true
  aborted : req.aborted = false
  seated : req.tableIdx.isSome
  uid : req.uid = pending.uid
  inputIds : req.inputIds = pending.inputIds.take req.cachedLen
  within : req.cachedLen < pending.inputLen
  outputLen : req.outputLen = pending.outputLen
  mmEmbeds : req.mmEmbeds = pending.mmEmbeds

theorem ContinuationOf.of_core {pending : PendingReq} {first second : Req}
    (of : ContinuationOf pending first) (same : second.core = first.core) :
    ContinuationOf pending second where
  chunked := (Req.chunked_of_core same).trans of.chunked
  aborted := (Req.aborted_of_core same).trans of.aborted
  seated := Req.tableIdx_of_core same ▸ of.seated
  uid := (Req.uid_of_core same).trans of.uid
  inputIds := by rw [Req.inputIds_of_core same, Req.cachedLen_of_core same, of.inputIds]
  within := Req.cachedLen_of_core same ▸ of.within
  outputLen := (Req.outputLen_of_core same).trans of.outputLen
  mmEmbeds := (Req.part_of_core same Req.mmEmbeds fun _ => rfl).trans of.mmEmbeds

variable (s : Scheduler)

namespace Scheduler

/-- The batch that is drained. -/
def queue : List Nat :=
  match s.todo with
  | some todo => todo
  | none => s.lastData.elim [] fun data => data.batch.reqs

/-- The batch in flight. -/
def inForward : List Nat := s.ongoing.elim [] fun data => data.batch.reqs

def sampledIn (data : Option ForwardData) (name : Nat) : List Token :=
  data.elim [] fun data => [data.nextTokens name]

/-- The sampled tokens that a request has not been given yet. -/
def undelivered (name : Nat) : List Token :=
  (if name ∈ s.queue then sampledIn s.lastData name else []) ++
    (if name ∈ s.inForward then sampledIn s.ongoing name else [])

structure Lengths (s : Scheduler) (name : Nat) : Prop where
  deviceLen : (s.reqs name).deviceLen = (s.reqs name).cachedLen + 1
  inputIds : (s.reqs name).inputIds.length +
    (if (s.reqs name).chunked then 1 else (s.undelivered name).length) = (s.reqs name).deviceLen

/-- **Who is where**, but for a request that was taken out of the running set and is not freed
yet, and for one that is given a token and is not off the queue yet. -/
structure ControlBut (away late : Option Nat) (s : Scheduler) : Prop where
  continuation : ∀ pending ∈ s.pendingList, ∀ name, pending.chunkedReq = some name →
    name < s.nextReq ∧ ContinuationOf pending (s.reqs name)
  chunksDistinct : (s.pendingList.filterMap PendingReq.chunkedReq).Nodup
  continuationsFirst : s.pendingList.Pairwise fun first second =>
    second.chunkedReq.isSome → first.chunkedReq.isSome
  running : ∀ name ∈ s.decodeManager.runningReqs, name < s.nextReq ∧
    (s.reqs name).canDecode = true ∧ (s.reqs name).aborted = false ∧ (s.reqs name).tableIdx.isSome
  runningDistinct : s.decodeManager.runningReqs.Nodup
  decoding : ∀ name < s.nextReq, (s.reqs name).canDecode = true → (s.reqs name).aborted = false →
    (s.reqs name).tableIdx.isSome → some name ≠ away → name ∈ s.decodeManager.runningReqs
  queued : ∀ name ∈ s.queue, name < s.nextReq
  queueDistinct : s.queue.Nodup
  launched : ∀ name ∈ s.inForward, name < s.nextReq ∧ (s.reqs name).aborted = false
  launchedDistinct : s.inForward.Nodup
  ended : ∀ name ∈ s.queue, (s.reqs name).chunked = false → (s.reqs name).aborted = false →
    (s.reqs name).tableIdx = none → name ∈ s.finishedReqs
  endedAfter : ∀ name ∈ s.inForward, (s.reqs name).chunked = false →
    (s.reqs name).tableIdx = none → name ∈ s.newFinished
  finished : ∀ name ∈ s.finishedReqs ++ s.newFinished,
    name < s.nextReq ∧ (s.reqs name).tableIdx = none
  lengths : ∀ name < s.nextReq, (s.reqs name).tableIdx.isSome → some name ≠ late → s.Lengths name

/-- **Who is where**: the continuations, the running set, the two batches and the finished requests,
with the lengths of every request. -/
abbrev Control : Prop := ControlBut none none s

/-- The phase of a round: nothing is in flight beside the last batch while messages are received,
and a batch is drained only after one was launched. -/
structure Phase (s : Scheduler) : Prop where
  receiving : s.todo = none → s.ongoing = none ∧ s.reply = []
  draining : s.todo.isSome → s.lastData.isSome

theorem canDecode_not_chunked {req : Req} (decodes : req.canDecode = true) : req.chunked = false := by
  unfold Req.canDecode at decodes
  simp only [Bool.and_eq_true, Bool.not_eq_true'] at decodes
  exact decodes.1

theorem control_new (cm : CacheManager) (maxRunningReqs : Nat) :
    Control (Scheduler.new cm maxRunningReqs) ∧ Phase (Scheduler.new cm maxRunningReqs) := by
  refine ⟨?_, ?_⟩
  · constructor <;> simp [Scheduler.new, queue, inForward]
  · constructor <;> simp [Scheduler.new]

/-! ### Changes that keep the cores -/

section SameCores

variable {s next : Scheduler}

theorem undelivered_congr (last : next.lastData = s.lastData) (ongoing : next.ongoing = s.ongoing)
    (todo : next.todo = s.todo) :
    next.queue = s.queue ∧ next.inForward = s.inForward ∧
      ∀ name, next.undelivered name = s.undelivered name := by
  have queueSame : next.queue = s.queue := by
    unfold queue
    rw [last, todo]
  have forwardSame : next.inForward = s.inForward := by
    unfold inForward
    rw [ongoing]
  refine ⟨queueSame, forwardSame, fun name => ?_⟩
  unfold undelivered
  rw [queueSame, forwardSame, last, ongoing]

theorem ControlBut.of_cores {away late : Option Nat} (control : ControlBut away late s) (nextReq : next.nextReq = s.nextReq)
    (cores : ∀ name < s.nextReq, (next.reqs name).core = (s.reqs name).core)
    (pending : next.pendingList = s.pendingList) (decode : next.decodeManager = s.decodeManager)
    (last : next.lastData = s.lastData) (ongoing : next.ongoing = s.ongoing)
    (todo : next.todo = s.todo) (finished : next.finishedReqs = s.finishedReqs)
    (newFinished : next.newFinished = s.newFinished) : ControlBut away late next := by
  obtain ⟨queueSame, forwardSame, undeliveredSame⟩ := undelivered_congr last ongoing todo
  have tableSame : ∀ name < s.nextReq, (next.reqs name).tableIdx = (s.reqs name).tableIdx :=
    fun name below => Req.tableIdx_of_core (cores name below)
  have abortedSame : ∀ name < s.nextReq, (next.reqs name).aborted = (s.reqs name).aborted :=
    fun name below => Req.aborted_of_core (cores name below)
  have chunkedSame : ∀ name < s.nextReq, (next.reqs name).chunked = (s.reqs name).chunked :=
    fun name below => Req.chunked_of_core (cores name below)
  have decodeSame : ∀ name < s.nextReq, (next.reqs name).canDecode = (s.reqs name).canDecode :=
    fun name below => Req.canDecode_of_core (cores name below)
  constructor
  case continuation =>
    intro p mem name chunk
    rw [pending] at mem
    obtain ⟨below, of⟩ := control.continuation p mem name chunk
    exact ⟨nextReq ▸ below, of.of_core (cores name below)⟩
  case chunksDistinct =>
    rw [pending]
    exact control.chunksDistinct
  case continuationsFirst =>
    rw [pending]
    exact control.continuationsFirst
  case running =>
    intro name mem
    rw [decode] at mem
    obtain ⟨below, decodes, live, seated⟩ := control.running name mem
    rw [nextReq, decodeSame name below, abortedSame name below, tableSame name below]
    exact ⟨below, decodes, live, seated⟩
  case runningDistinct =>
    rw [decode]
    exact control.runningDistinct
  case decoding =>
    intro name below decodes live seated here
    rw [nextReq] at below
    rw [decodeSame name below] at decodes
    rw [abortedSame name below] at live
    rw [tableSame name below] at seated
    rw [decode]
    exact control.decoding name below decodes live seated here
  case queued =>
    rw [queueSame, nextReq]
    exact control.queued
  case queueDistinct =>
    rw [queueSame]
    exact control.queueDistinct
  case launched =>
    intro name mem
    rw [forwardSame] at mem
    obtain ⟨below, live⟩ := control.launched name mem
    rw [nextReq, abortedSame name below]
    exact ⟨below, live⟩
  case launchedDistinct =>
    rw [forwardSame]
    exact control.launchedDistinct
  case ended =>
    intro name mem whole live freed
    rw [queueSame] at mem
    have below := control.queued name mem
    rw [chunkedSame name below] at whole
    rw [abortedSame name below] at live
    rw [tableSame name below] at freed
    rw [finished]
    exact control.ended name mem whole live freed
  case endedAfter =>
    intro name mem whole freed
    rw [forwardSame] at mem
    have below := (control.launched name mem).1
    rw [chunkedSame name below] at whole
    rw [tableSame name below] at freed
    rw [newFinished]
    exact control.endedAfter name mem whole freed
  case finished =>
    intro name mem
    rw [finished, newFinished] at mem
    obtain ⟨below, freed⟩ := control.finished name mem
    rw [nextReq, tableSame name below]
    exact ⟨below, freed⟩
  case lengths =>
    intro name below seated here
    rw [nextReq] at below
    rw [tableSame name below] at seated
    obtain ⟨device, ids⟩ := control.lengths name below seated here
    refine ⟨?_, ?_⟩
    · rw [Req.deviceLen_of_core (cores name below), Req.cachedLen_of_core (cores name below)]
      exact device
    · rw [Req.deviceLen_of_core (cores name below), Req.inputIds_of_core (cores name below),
        chunkedSame name below, undeliveredSame]
      exact ids

end SameCores

/-! ### Retiring a request -/

section Retire

variable {s next : Scheduler} {name : Nat}

/-- What freeing a request, noting it as finished or marking it as aborted changes: only the request,
and of its core only the seat and the mark. -/
structure Retired (s : Scheduler) (name : Nat) (next : Scheduler) : Prop where
  nextReq : next.nextReq = s.nextReq
  pendingList : next.pendingList = s.pendingList
  finishedReqs : next.finishedReqs = s.finishedReqs
  pendingAbortAcks : next.pendingAbortAcks = s.pendingAbortAcks
  abortTombstones : next.abortTombstones = s.abortTombstones
  lastData : next.lastData = s.lastData
  ongoing : next.ongoing = s.ongoing
  todo : next.todo = s.todo
  newFinished : next.newFinished = s.newFinished ∨
    next.newFinished = s.newFinished ++ [name] ∧ (next.reqs name).tableIdx = none
  reply : next.reply = s.reply
  others : ∀ other, other ≠ name → next.reqs other = s.reqs other
  core : { (next.reqs name).core with tableIdx := none, aborted := true } =
    { (s.reqs name).core with tableIdx := none, aborted := true }
  seat : (next.reqs name).tableIdx = none ∨
    (next.reqs name).tableIdx = (s.reqs name).tableIdx ∧ (next.reqs name).aborted = true
  mark : (next.reqs name).aborted = (s.reqs name).aborted ∨ (next.reqs name).aborted = true
  decodeManager : next.decodeManager = s.decodeManager
  out : next.out = s.out
  generated : next.generated = s.generated

theorem freeReqResources_retired (done : s.freeReqResources name = .ok next) :
    Retired s name next ∧ (next.reqs name).tableIdx = none ∧
      (next.reqs name).aborted = (s.reqs name).aborted := by
  unfold freeReqResources at done
  split at done
  · next unseated =>
    cases done
    exact ⟨⟨rfl, rfl, rfl, rfl, rfl, rfl, rfl, rfl, Or.inl rfl, rfl, fun _ _ => rfl, rfl,
      Or.inl unseated, Or.inl rfl, rfl, rfl, rfl⟩, unseated, rfl⟩
  · next tableIdx _ =>
    obtain ⟨⟨cm, req⟩, committed, done⟩ := bind_eq_ok.mp done
    obtain rfl := pure_eq_ok.mp done
    have same := CacheManager.cacheReq_core committed
    have here : (setReq { s with
        cacheManager := cm
        tableManager := s.tableManager.free tableIdx } name { req with tableIdx := none }).reqs name =
        { req with tableIdx := none } := update_self ..
    refine ⟨⟨rfl, rfl, rfl, rfl, rfl, rfl, rfl, rfl, Or.inl rfl, rfl,
      fun other ne => update_of_ne ne _ _, ?_, Or.inl ?_, Or.inl ?_, rfl, rfl,
      rfl⟩, ?_, ?_⟩
    · rw [here]
      exact congrArg (fun req : Req => { req with tableIdx := none, aborted := true }) same
    · rw [here]
    · rw [here]
      have kept := Req.aborted_of_core same
      exact kept
    · rw [here]
    · rw [here]
      have kept := Req.aborted_of_core same
      exact kept

theorem mark_retired (s : Scheduler) (name : Nat) :
    Retired s name (s.setReq name { s.reqs name with aborted := true }) ∧
      ((s.setReq name { s.reqs name with aborted := true }).reqs name).aborted = true := by
  have here : (s.setReq name { s.reqs name with aborted := true }).reqs name =
      { s.reqs name with aborted := true } := update_self ..
  refine ⟨⟨rfl, rfl, rfl, rfl, rfl, rfl, rfl, rfl, Or.inl rfl, rfl,
    fun other ne => update_of_ne ne _ _, ?_, Or.inr ⟨?_, ?_⟩, Or.inr ?_, rfl,
    rfl, rfl⟩, ?_⟩
  all_goals
    rw [here]
    try rfl

theorem Retired.part {α : Type} (retired : Retired s name next) (part : Req → α)
    (reads : ∀ req : Req, part { req.core with tableIdx := none, aborted := true } = part req)
    (other : Nat) : part (next.reqs other) = part (s.reqs other) := by
  by_cases same : other = name
  · rw [same, ← reads (next.reqs name), ← reads (s.reqs name), retired.core]
  · rw [retired.others other same]

theorem ControlBut.retire {away late : Option Nat} (control : ControlBut away late s)
    (known : name < s.nextReq)
    (only : ∀ other, away = some other → other = name)
    (onlyLate : ∀ other, late = some other → other = name ∧ (next.reqs name).tableIdx = none)
    (retired : Retired s name next)
    (notContinued : ∀ pending ∈ s.pendingList, pending.chunkedReq ≠ some name)
    (notRunning : name ∉ s.decodeManager.runningReqs)
    (queued : name ∈ s.queue → (s.reqs name).chunked = false → (next.reqs name).aborted = false →
      name ∈ s.finishedReqs)
    (launched : name ∈ s.inForward → (next.reqs name).aborted = false ∧
      ((s.reqs name).chunked = false → (next.reqs name).tableIdx = none →
        name ∈ next.newFinished)) :
    Control next := by
  obtain ⟨queueSame, forwardSame, undeliveredSame⟩ :=
    undelivered_congr retired.lastData retired.ongoing retired.todo
  have chunked : ∀ other, (next.reqs other).chunked = (s.reqs other).chunked :=
    retired.part Req.chunked fun _ => rfl
  constructor
  case continuation =>
    intro pending mem other chunk
    rw [retired.pendingList] at mem
    have ne : other ≠ name := fun same => notContinued pending mem (same ▸ chunk)
    rw [retired.nextReq, retired.others other ne]
    exact control.continuation pending mem other chunk
  case chunksDistinct =>
    rw [retired.pendingList]
    exact control.chunksDistinct
  case continuationsFirst =>
    rw [retired.pendingList]
    exact control.continuationsFirst
  case running =>
    intro other mem
    rw [retired.decodeManager] at mem
    rw [retired.nextReq, retired.others other (ne_of_mem_of_not_mem mem notRunning)]
    exact control.running other mem
  case runningDistinct =>
    rw [retired.decodeManager]
    exact control.runningDistinct
  case decoding =>
    intro other below decodes live seated _
    have ne : other ≠ name := by
      rintro rfl
      rcases retired.seat with gone | ⟨-, marked⟩
      · rw [gone] at seated
        cases seated
      · rw [marked] at live
        cases live
    rw [retired.others other ne] at decodes live seated
    rw [retired.nextReq] at below
    rw [retired.decodeManager]
    exact control.decoding other below decodes live seated
      fun same => ne (only other same.symm)
  case queued =>
    rw [queueSame, retired.nextReq]
    exact control.queued
  case queueDistinct =>
    rw [queueSame]
    exact control.queueDistinct
  case launched =>
    intro other mem
    rw [forwardSame] at mem
    rw [retired.nextReq]
    by_cases same : other = name
    · subst same
      exact ⟨(control.launched other mem).1, (launched mem).1⟩
    · rw [retired.others other same]
      exact control.launched other mem
  case launchedDistinct =>
    rw [forwardSame]
    exact control.launchedDistinct
  case ended =>
    intro other mem whole live gone
    rw [queueSame] at mem
    rw [chunked] at whole
    rw [retired.finishedReqs]
    by_cases same : other = name
    · subst same
      exact queued mem whole live
    · rw [retired.others other same] at gone live
      exact control.ended other mem whole live gone
  case endedAfter =>
    intro other mem whole gone
    rw [forwardSame] at mem
    rw [chunked] at whole
    by_cases same : other = name
    · subst same
      exact (launched mem).2 whole gone
    · rw [retired.others other same] at gone
      have was := control.endedAfter other mem whole gone
      rcases retired.newFinished with now | ⟨now, -⟩
      · exact now ▸ was
      · exact now ▸ mem_append_left _ was
  case finished =>
    intro other mem
    have was : other ∈ s.finishedReqs ++ s.newFinished ∨
        other = name ∧ (next.reqs name).tableIdx = none := by
      rw [retired.finishedReqs] at mem
      rcases retired.newFinished with now | ⟨now, gone⟩
      · exact Or.inl (now ▸ mem)
      · rw [now, ← append_assoc, mem_append, mem_singleton] at mem
        exact mem.imp_right fun same => ⟨same, gone⟩
    rcases was with was | ⟨rfl, gone⟩
    swap
    · exact ⟨retired.nextReq ▸ known, gone⟩
    obtain ⟨below, gone⟩ := control.finished other was
    refine ⟨retired.nextReq ▸ below, ?_⟩
    by_cases same : other = name
    · subst same
      rcases retired.seat with now | ⟨still, -⟩
      · exact now
      · rw [still]
        exact gone
    · rw [retired.others other same]
      exact gone
  case lengths =>
    intro other below seated _
    have inTime : some other ≠ late := by
      intro same
      obtain ⟨rfl, gone⟩ := onlyLate other same.symm
      rw [gone] at seated
      cases seated
    have was : (s.reqs other).tableIdx.isSome := by
      by_cases same : other = name
      · subst same
        rcases retired.seat with now | ⟨still, -⟩
        · rw [now] at seated
          cases seated
        · rwa [still] at seated
      · rwa [retired.others other same] at seated
    rw [retired.nextReq] at below
    obtain ⟨device, ids⟩ := control.lengths other below was inTime
    have deviceSame := retired.part Req.deviceLen (fun _ => rfl) other
    refine ⟨?_, ?_⟩
    · rw [deviceSame, retired.part Req.cachedLen (fun _ => rfl) other]
      exact device
    · rw [deviceSame, retired.part Req.inputIds (fun _ => rfl) other, chunked, undeliveredSame]
      exact ids

end Retire

end Scheduler

end FreeToken
