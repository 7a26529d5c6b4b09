/-
**The steps of an admission.**
-/

import FreeToken.Scheduler.Tenancy

namespace FreeToken

def NotRuntime (err : Err) : Prop := ∀ msg, err ≠ .runtime msg

/-- The request of a chunk of a decided size. -/
def chunkReq (pending : PendingReq) (resource : Resource) (cachedLen size : Nat)
    (nextTrackIdx : Bool) (swaEvictedSeqlen : Nat) : Req where
  inputIds := pending.inputIds.take (cachedLen + size)
  tableIdx := some resource.tableIdx
  cachedLen := cachedLen
  deviceLen := (pending.inputIds.take (cachedLen + size)).length
  maxDeviceLen := (pending.inputIds.take (cachedLen + size)).length + pending.outputLen
  outputLen := pending.outputLen
  uid := pending.uid
  samplingParams := pending.samplingParams
  cacheHandle := resource.cacheHandle
  mmEmbeds := pending.mmEmbeds
  chunked := decide (size < pending.inputLen - cachedLen)
  linearSlotIdx := resource.linearSlotIdx
  mambaPingPong := resource.pingPong
  mambaNextTrackIdx := nextTrackIdx
  mambaRestoreSrc := resource.restoreSrc
  swaEvictedSeqlen := swaEvictedSeqlen

namespace PrefillAdder

variable {E : Err → Prop} {adder : PrefillAdder} {pending : PendingReq}

/-- What adding a chunk leaves: the managers, but for the tokens that are written to the pool, and
the request of the chunk. -/
structure Added (adder : PrefillAdder) (pending : PendingReq) (resource : Resource)
    (cachedLen : Nat) (nextTrackIdx : Bool) (swaEvictedSeqlen size : Nat)
    (res : PrefillAdder × Option Req) : Prop where
  cacheManager : res.1.cacheManager = adder.cacheManager
  tableManager : res.1.tableManager = adder.tableManager.writeTokens resource.tableIdx cachedLen
    (slice pending.inputIds cachedLen (cachedLen + size))
  extends_ : cachedLen < (pending.inputIds.take (cachedLen + size)).length
  req : res.2 = some (chunkReq pending resource cachedLen size nextTrackIdx swaEvictedSeqlen)

theorem addChunk_outcome (errors : ∀ err, NotRuntime err → E err) (resource : Resource)
    (cachedLen chunkSize : Nat) (nextTrackIdx : Bool) (swaEvictedSeqlen : Nat) :
    Outcome (adder.addChunk pending resource cachedLen chunkSize nextTrackIdx swaEvictedSeqlen)
      (fun res => ∃ size,
        Added adder pending resource cachedLen nextTrackIdx swaEvictedSeqlen size res) E := by
  unfold addChunk
  dsimp only
  generalize alignChunk _ cachedLen chunkSize _ = size
  split
  · exact errors _ fun _ => by simp
  · refine Outcome.bind_eq (Q := fun _ => True) ?_ fun req made _ => ?_
    · unfold Req.new ensure
      split
      · trivial
      · exact errors _ fun _ => by simp
    · obtain ⟨extends_, rfl⟩ := Req.new_ok made
      exact Outcome.pure ⟨size, rfl, rfl, extends_, rfl⟩

theorem addOneReq_outcome (errors : ∀ err, NotRuntime err → E err) (resource : Resource)
    (cachedLen : Nat) (nextTrackIdx : Bool) (swaEvictedSeqlen : Nat) :
    Outcome (adder.addOneReq pending resource cachedLen nextTrackIdx swaEvictedSeqlen)
      (fun res => (res.2 = none ∧ res.1 = adder) ∨ ∃ size,
        Added adder pending resource cachedLen nextTrackIdx swaEvictedSeqlen size res) E := by
  unfold addOneReq
  dsimp only
  split
  · split
    · exact Outcome.pure (.inl ⟨rfl, rfl⟩)
    · refine (addChunk_outcome errors resource cachedLen _ nextTrackIdx swaEvictedSeqlen).imp ?_
      rintro res ⟨size, added⟩
      exact .inr ⟨size, added.cacheManager, added.tableManager, added.extends_, added.req⟩
  · refine (addChunk_outcome errors resource cachedLen _ nextTrackIdx swaEvictedSeqlen).imp ?_
    exact fun res added => .inr added

section Rules

/-- Match, lock and the gates, over any assertions about the manager before the match, with a match
and with a lock. -/
theorem tryAllocateOne_rule (free : CacheManager → Prop)
    (found locked : CacheManager → CacheHandle → Option Nat → Prop)
    (seated : PrefillAdder → Resource → Prop) (holds : free adder.cacheManager)
    (find : Outcome (adder.cacheManager.matchReq pending)
      (fun res => found res.1 res.2.cudaHandle res.2.mambaValue) E)
    (leave : ∀ {cm handle mamba}, found cm handle mamba → free cm)
    (lock : ∀ {cm handle mamba}, found cm handle mamba →
      locked (cm.lock handle).1 (cm.lock handle).2 mamba)
    (evict : ∀ {cm handle mamba}, locked cm handle mamba → locked (cm.ensureMambaSlots 3) handle mamba)
    (unlock : ∀ {cm handle mamba}, locked cm handle mamba → Outcome (cm.unlock handle) free E)
    (seat : ∀ {cm handle mamba}, locked cm handle mamba → adder.tableManager.freeSlots ≠ [] →
      (cm.isHybrid = true → 3 ≤ cm.linearStatePool.numFreeSlots) →
      Outcome (({ adder with cacheManager := cm } : PrefillAdder).seat pending handle mamba)
        (fun res => ∃ resource, res.2 = some resource ∧ seated res.1 resource) E) :
    Outcome (adder.tryAllocateOne pending)
      (fun res => match res.2 with
        | some resource => seated res.1 resource
        | none => free res.1.cacheManager ∧
          res.1 = { adder with cacheManager := res.1.cacheManager }) E := by
  unfold tryAllocateOne
  have refused : ∀ {cm handle mamba}, locked cm handle mamba → Outcome (adder.refuse cm handle)
        (fun res => match res.2 with
          | some resource => seated res.1 resource
          | none => free res.1.cacheManager ∧
          res.1 = { adder with cacheManager := res.1.cacheManager }) E := by
    intro cm handle mamba holdsLock
    exact (unlock holdsLock).bind fun cm kept => Outcome.pure ⟨kept, rfl⟩
  split
  · exact Outcome.pure ⟨holds, rfl⟩
  · next rows =>
    refine find.bind fun res holdsMatch => ?_
    obtain ⟨cm, mr⟩ := res
    dsimp only at holdsMatch ⊢
    split
    · exact Outcome.pure ⟨leave holdsMatch, rfl⟩
    · have holdsLock := lock holdsMatch
      generalize cm.lock mr.cudaHandle = pair at holdsLock ⊢
      obtain ⟨cm, handle⟩ := pair
      split
      · exact refused holdsLock
      · have holdsSlots : locked (if cm.isHybrid ∧ cm.linearStatePool.numFreeSlots < 3 then
            cm.ensureMambaSlots 3 else cm) handle mr.mambaValue := by
          split
          · exact evict holdsLock
          · exact holdsLock
        generalize (if cm.isHybrid ∧ cm.linearStatePool.numFreeSlots < 3 then
          cm.ensureMambaSlots 3 else cm) = cm at holdsSlots ⊢
        split
        · exact refused holdsSlots
        · next enough =>
          split
          · exact refused holdsSlots
          · refine (seat holdsSlots rows fun hybrid => ?_).imp fun res placed => ?_
            · by_contra short
              exact enough ⟨hybrid, not_le.mp short⟩
            · obtain ⟨resource, same, holds⟩ := placed
              rw [same]
              exact holds

theorem tryAddOne_fresh (seated : PrefillAdder → Resource → Prop)
    {placed : PrefillAdder × Option Req → Prop} (errors : ∀ err, NotRuntime err → E err)
    (allocate : Outcome (adder.tryAllocateOne pending) (fun res => match res.2 with
        | some resource => seated res.1 resource
        | none => placed (res.1, none)) E)
    (idle : placed (adder, none))
    (undo : ∀ {adder resource}, seated adder resource →
      Outcome (adder.undo resource) (fun adder => placed (adder, none)) E)
    (add : ∀ {adder : PrefillAdder} {resource size res}, seated adder resource →
      Added adder pending resource resource.cacheHandle.cachedLen false 0 size res →
      placed res) : Outcome (adder.tryAddOne pending none) placed E := by
  unfold tryAddOne
  split
  · exact Outcome.pure idle
  · refine allocate.bind fun res holds => ?_
    obtain ⟨adder, resource⟩ := res
    cases resource with
    | none => exact Outcome.pure holds
    | some resource =>
      refine (addOneReq_outcome errors resource resource.cacheHandle.cachedLen false 0).bind ?_
      rintro ⟨next, req⟩ (⟨nothing, same⟩ | ⟨size, added⟩)
      · subst nothing same
        exact (undo holds).bind fun adder kept => Outcome.pure kept
      · have made := added.req
        subst made
        exact Outcome.pure (add holds added)

theorem tryAddOne_continued {placed : PrefillAdder × Option Req → Prop} {chunk : Req}
    (errors : ∀ err, NotRuntime err → E err) (idle : placed (adder, none))
    (add : ∀ {size res}, Added adder pending ⟨chunk.cacheHandle, chunk.tableIdx.getD 0,
        chunk.linearSlotIdx, chunk.mambaPingPong, none⟩ chunk.cachedLen chunk.mambaNextTrackIdx
        chunk.swaEvictedSeqlen size res → placed res) :
    Outcome (adder.tryAddOne pending (some chunk)) placed E := by
  unfold tryAddOne
  split
  · exact Outcome.pure idle
  · refine (addOneReq_outcome errors _ _ _ _).imp ?_
    rintro ⟨next, req⟩ (⟨nothing, same⟩ | ⟨size, added⟩)
    · subst nothing same
      exact idle
    · exact add added

end Rules

end PrefillAdder

end FreeToken
