/-
**What a prefill pass decides.**
-/

import FreeToken.Scheduler.Prefill

namespace FreeToken

open List Function

/-- The request of a chunk: what it takes from the pending request and, on a continuation, from the
request of the chunk before. -/
structure Launched (pending : PendingReq) (chunk : Option Req) (req : Req) : Prop where
  uid : req.uid = pending.uid
  inputIds : req.inputIds = pending.inputIds.take req.deviceLen
  idsLength : req.inputIds.length = req.deviceLen
  extends_ : req.cachedLen < req.deviceLen
  within : req.deviceLen ≤ pending.inputLen
  outputLen : req.outputLen = pending.outputLen
  maxDeviceLen : req.maxDeviceLen = req.deviceLen + pending.outputLen
  samplingParams : req.samplingParams = pending.samplingParams
  mmEmbeds : req.mmEmbeds = pending.mmEmbeds
  chunked : req.chunked = decide (req.deviceLen < pending.inputLen)
  aborted : req.aborted = false
  seated : req.tableIdx.isSome
  toolcallAnchorLen : req.toolcallAnchorLen = none
  mambaLastTrackSeqlen : req.mambaLastTrackSeqlen = none
  decodeBatchIdx : req.decodeBatchIdx = 0
  fresh : chunk = none → req.cachedLen = req.cacheHandle.cachedLen ∧ req.swaEvictedSeqlen = 0 ∧
    req.mambaNextTrackIdx = false
  continued : ∀ pre, chunk = some pre → req.cachedLen = pre.cachedLen ∧
    req.cacheHandle = pre.cacheHandle ∧ req.tableIdx = some (pre.tableIdx.getD 0) ∧
    req.linearSlotIdx = pre.linearSlotIdx ∧ req.mambaPingPong = pre.mambaPingPong ∧
    req.mambaNextTrackIdx = pre.mambaNextTrackIdx ∧ req.mambaRestoreSrc = none ∧
    req.swaEvictedSeqlen = pre.swaEvictedSeqlen

namespace PrefillAdder

theorem alignChunk_le (align cachedLen chunkSize remainLen : Nat) :
    alignChunk align cachedLen chunkSize remainLen ≤ chunkSize := by
  have := alignDown_le (cachedLen + chunkSize) align
  unfold alignChunk
  dsimp only
  split
  · split <;> omega
  · exact le_rfl

theorem swaChunk_le {adder : PrefillAdder} {handle : CacheHandle}
    {cachedLen evicted remainLen chunkSize res : Nat}
    (sized : adder.swaChunk handle cachedLen evicted remainLen chunkSize = some res) :
    res ≤ chunkSize := by
  unfold swaChunk at sized
  dsimp only at sized
  generalize capped : min chunkSize _ = cap at sized
  have short : cap ≤ chunkSize := capped ▸ min_le_left _ _
  split at sized
  · split at sized
    · cases sized
    · have := alignDown_le (cachedLen + cap) adder.cacheManager.pageSize
      rw [← Option.some.inj sized]
      omega
  · rw [← Option.some.inj sized]
    exact short

section Chunk

variable {adder next : PrefillAdder} {pending : PendingReq} {resource : Resource}
  {cachedLen swaEvictedSeqlen : Nat} {nextTrackIdx : Bool} (chunk : Option Req)
  (fresh : chunk = none → cachedLen = resource.cacheHandle.cachedLen ∧ swaEvictedSeqlen = 0 ∧
    nextTrackIdx = false)
  (continued : ∀ pre, chunk = some pre → cachedLen = pre.cachedLen ∧
    resource.cacheHandle = pre.cacheHandle ∧ resource.tableIdx = pre.tableIdx.getD 0 ∧
    resource.linearSlotIdx = pre.linearSlotIdx ∧ resource.pingPong = pre.mambaPingPong ∧
    nextTrackIdx = pre.mambaNextTrackIdx ∧ resource.restoreSrc = none ∧
    swaEvictedSeqlen = pre.swaEvictedSeqlen)

include fresh continued

theorem addChunk_launched {chunkSize : Nat} {res : Option Req}
    (fits : chunkSize ≤ pending.inputLen - cachedLen)
    (added : adder.addChunk pending resource cachedLen chunkSize nextTrackIdx swaEvictedSeqlen =
      .ok (next, res)) :
    ∃ req, res = some req ∧ Launched pending chunk req := by
  unfold addChunk at added
  dsimp only at added
  generalize sized : alignChunk adder.cacheManager.prefillChunkAlign cachedLen chunkSize
    (pending.inputLen - cachedLen) = size at added
  have short : size ≤ chunkSize := sized ▸ alignChunk_le _ _ _ _
  split at added
  · cases added
  obtain ⟨req, made, done⟩ := bind_eq_ok.mp added
  obtain ⟨extends_, rfl⟩ := Req.new_ok made
  obtain ⟨-, rfl⟩ := Prod.mk.inj (pure_eq_ok.mp done)
  have length : (pending.inputIds.take (cachedLen + size)).length = cachedLen + size := by
    rw [length_take]
    unfold PendingReq.inputLen at fits
    rw [length_take] at extends_
    omega
  refine ⟨_, rfl, ?_⟩
  constructor
  case extends_ => exact extends_
  case fresh => exact fresh
  case continued =>
    intro pre same
    obtain ⟨h1, h2, h3, h4, h5, h6, h7, h8⟩ := continued pre same
    exact ⟨h1, h2, congrArg some h3, h4, h5, h6, h7, h8⟩
  case within =>
    rw [length_take]
    exact min_le_right _ _
  case inputIds =>
    rw [length]
  case chunked =>
    dsimp only
    rw [length]
    refine decide_eq_decide.mpr ?_
    omega
  all_goals rfl

theorem addOneReq_launched {req : Req}
    (added : adder.addOneReq pending resource cachedLen nextTrackIdx swaEvictedSeqlen =
      .ok (next, some req)) :
    Launched pending chunk req := by
  unfold addOneReq at added
  dsimp only at added
  split at added
  · split at added
    · cases added
    · next size sized =>
      have short := swaChunk_le sized
      obtain ⟨_, same, launched⟩ := addChunk_launched chunk fresh continued
        (short.trans (min_le_right _ _)) added
      exact Option.some.inj same ▸ launched
  · obtain ⟨_, same, launched⟩ := addChunk_launched chunk fresh continued (min_le_right _ _) added
    exact Option.some.inj same ▸ launched

end Chunk

/-- Every request that a pass adds is one. -/
theorem tryAddOne_launched {adder next : PrefillAdder} {pending : PendingReq} {chunk : Option Req}
    {req : Req} (added : adder.tryAddOne pending chunk = .ok (next, some req)) :
    Launched pending chunk req := by
  unfold tryAddOne at added
  split at added
  · cases added
  split at added
  · next pre =>
    refine addOneReq_launched (some pre) (fun absurd => nomatch absurd) ?_ added
    intro other same
    cases same
    exact ⟨rfl, rfl, rfl, rfl, rfl, rfl, rfl, rfl⟩
  · obtain ⟨⟨seated, resource⟩, -, added⟩ := bind_eq_ok.mp added
    cases resource with
    | none => cases added
    | some resource =>
      obtain ⟨⟨last, res⟩, sized, added⟩ := bind_eq_ok.mp added
      cases res with
      | none =>
        obtain ⟨_, -, absurd⟩ := bind_eq_ok.mp added
        cases absurd
      | some made =>
        obtain ⟨-, same⟩ := Prod.mk.inj (pure_eq_ok.mp added)
        rw [← Option.some.inj same]
        exact addOneReq_launched none (fun _ => ⟨rfl, rfl, rfl⟩) nofun sized

end PrefillAdder

/-! ### A whole pass -/

/-- What a pass over the requests `taken` did to the requests `reqs`, the first new name being
`base`. -/
structure PassOf (base : Nat) (reqs : Nat → Req) (taken : List PendingReq) (pass : Pass) : Prop where
  nextReq : pass.nextReq = base + taken.length
  batch : pass.batch = List.range' base taken.length
  old : ∀ name < base, pass.reqs name = reqs name
  launched : ∀ entry ∈ taken.zip pass.batch,
    Launched entry.1 (entry.1.chunkedReq.map reqs) (pass.reqs entry.2)
  chunkedList : pass.chunkedList = (taken.zip pass.batch).filterMap fun entry =>
    if (pass.reqs entry.2).chunked then some { entry.1 with chunkedReq := some entry.2 } else none
  promptAdmissions : pass.promptAdmissions = (taken.zip pass.batch).filterMap fun entry =>
    if entry.1.chunkedReq = none then
      some (entry.1.uid, entry.1.inputLen, (pass.reqs entry.2).cacheHandle.cachedLen)
    else none

variable {reqs : Nat → Req} {pass : Pass}

theorem PassOf.start {base : Nat} (next : pass.nextReq = base)
    (same : pass.reqs = reqs) (batch : pass.batch = []) (chunks : pass.chunkedList = [])
    (admissions : pass.promptAdmissions = []) : PassOf base reqs [] pass where
  nextReq := next
  batch := batch
  old := fun name _ => congrFun same name
  launched := by simp
  chunkedList := chunks
  promptAdmissions := admissions

variable {taken : List PendingReq}

theorem PassOf.zip_mem_lt {base : Nat} (of : PassOf base reqs taken pass) {entry : PendingReq × Nat}
    (mem : entry ∈ taken.zip pass.batch) : entry.2 < pass.nextReq := by
  have inBatch := (of_mem_zip (show (entry.1, entry.2) ∈ taken.zip pass.batch from mem)).2
  rw [of.batch, mem_range'] at inBatch
  obtain ⟨i, below, same⟩ := inBatch
  have := of.nextReq
  omega

theorem PassOf.add {base : Nat}
    (of : PassOf base reqs taken pass) {adder : PrefillAdder} {pending : PendingReq} {req : Req}
    (launched : Launched pending (pending.chunkedReq.map reqs) req) :
    PassOf base reqs (taken ++ [pending]) (pass.add adder pending req) := by
  have batch : (pass.add adder pending req).batch = pass.batch ++ [pass.nextReq] := rfl
  have sameLength : taken.length = pass.batch.length := by rw [of.batch, length_range']
  have zip : (taken ++ [pending]).zip (pass.add adder pending req).batch =
      taken.zip pass.batch ++ [(pending, pass.nextReq)] := by
    rw [batch, zip_append sameLength]
    rfl
  have new : (pass.add adder pending req).reqs pass.nextReq = req := update_self ..
  have kept : ∀ name, name ≠ pass.nextReq →
      (pass.add adder pending req).reqs name = pass.reqs name := fun name ne =>
    update_of_ne ne _ _
  have keptZip : ∀ entry ∈ taken.zip pass.batch,
      (pass.add adder pending req).reqs entry.2 = pass.reqs entry.2 := fun entry mem =>
    kept entry.2 (of.zip_mem_lt mem).ne
  constructor
  case nextReq =>
    rw [length_append, length_singleton, ← add_assoc, ← of.nextReq]
    rfl
  case batch =>
    rw [batch, of.batch, of.nextReq, length_append, length_singleton, range'_concat, one_mul]
  case old =>
    intro name below
    have := of.nextReq
    rw [kept name (by omega), of.old name below]
  case launched =>
    intro entry mem
    rw [zip] at mem
    rcases mem_append.mp mem with old | last
    · rw [keptZip entry old]
      exact of.launched entry old
    · rw [mem_singleton.mp last, new]
      exact launched
  case chunkedList =>
    rw [zip, filterMap_append, filterMap_congr (g := fun entry : PendingReq × Nat =>
      if (pass.reqs entry.2).chunked then some { entry.1 with chunkedReq := some entry.2 } else none)
      fun entry mem => by rw [keptZip entry mem], ← of.chunkedList]
    simp only [filterMap_cons, filterMap_nil, new]
    unfold Pass.add
    by_cases chunked : req.chunked = true
    · rw [if_pos chunked, if_pos chunked]
    · rw [if_neg chunked, if_neg chunked, append_nil]
  case promptAdmissions =>
    rw [zip, filterMap_append, filterMap_congr (g := fun entry : PendingReq × Nat =>
      if entry.1.chunkedReq = none then
        some (entry.1.uid, entry.1.inputLen, (pass.reqs entry.2).cacheHandle.cachedLen)
      else none)
      fun entry mem => by rw [keptZip entry mem], ← of.promptAdmissions]
    simp only [filterMap_cons, filterMap_nil, new]
    unfold Pass.add
    by_cases first : pending.chunkedReq = none
    · rw [if_pos first, if_pos first]
      simp [launched.uid]
    · rw [if_neg first, if_neg first, append_nil]

theorem PassOf.stop {base : Nat} (of : PassOf base reqs taken pass) (adder : PrefillAdder) :
    PassOf base reqs taken { pass with adder := adder } :=
  ⟨of.nextReq, of.batch, of.old, of.launched, of.chunkedList, of.promptAdmissions⟩

theorem Pass.run_rule {I : Pass → List PendingReq → List PendingReq → Prop}
    (add : ∀ pass taken pending rest adder req, I pass taken (pending :: rest) →
      pass.adder.tryAddOne pending (pending.chunkedReq.map pass.reqs) = .ok (adder, some req) →
      I (pass.add adder pending req) (taken ++ [pending]) rest)
    (stop : ∀ pass taken pending rest adder, I pass taken (pending :: rest) →
      pass.adder.tryAddOne pending (pending.chunkedReq.map pass.reqs) = .ok (adder, none) →
      I { pass with adder := adder } taken (pending :: rest)) :
    ∀ (list taken : List PendingReq) (pass res : Pass), I pass taken list →
      pass.run list = .ok res → ∃ done rest, list = done ++ rest ∧ I res (taken ++ done) rest := by
  intro list
  induction list with
  | nil =>
    intro taken pass res holds run
    cases run
    exact ⟨[], [], rfl, by rwa [append_nil]⟩
  | cons pending list ih =>
    intro taken pass res holds run
    obtain ⟨⟨adder, req⟩, tried, run⟩ := bind_eq_ok.mp run
    cases req with
    | none =>
      obtain rfl := pure_eq_ok.mp run
      exact ⟨[], pending :: list, rfl, by
        rw [append_nil]
        exact stop pass taken pending list adder holds tried⟩
    | some req =>
      obtain ⟨done, rest, rfl, last⟩ := ih _ _ _ (add pass taken pending list adder req holds tried)
        run
      exact ⟨pending :: done, rest, rfl, by simpa using last⟩

theorem passOf_run {list : List PendingReq} {pass res : Pass}
    (named : ∀ pending ∈ list, ∀ name, pending.chunkedReq = some name → name < pass.nextReq)
    (same : pass.reqs = reqs) (batch : pass.batch = []) (chunks : pass.chunkedList = [])
    (admissions : pass.promptAdmissions = []) (run : pass.run list = .ok res) :
    ∃ done rest, list = done ++ rest ∧ PassOf pass.nextReq reqs done res := by
  let base := pass.nextReq
  have rule := Pass.run_rule (I := fun pass taken rest =>
    PassOf base reqs taken pass ∧
      ∀ pending ∈ rest, ∀ name, pending.chunkedReq = some name → name < base)
    (fun pass taken pending rest adder req holds tried => ?_)
    (fun pass taken pending rest adder holds _ => ⟨holds.1.stop adder, holds.2⟩) list [] pass res
    ⟨PassOf.start rfl same batch chunks admissions, named⟩ run
  · obtain ⟨done, rest, split, of, -⟩ := rule
    exact ⟨done, rest, split, by simpa using of⟩
  · obtain ⟨of, named⟩ := holds
    refine ⟨of.add ?_, fun other mem => named other (mem_cons_of_mem _ mem)⟩
    have launched := PrefillAdder.tryAddOne_launched tried
    have chunkSame : pending.chunkedReq.map pass.reqs = pending.chunkedReq.map reqs := by
      cases found : pending.chunkedReq with
      | none => rfl
      | some name => exact congrArg some (of.old name (named pending mem_cons_self name found))
    rwa [chunkSame] at launched

end FreeToken
