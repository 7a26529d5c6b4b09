/-
**A message and the ledgers.**

* `processAbort_ledger`: what an abort does to the request of its uid, at every stage;
* `processOneMsg_ledger`: a message keeps every ledger.
-/

import FreeToken.Scheduler.Ledger

namespace FreeToken

open List

namespace Scheduler

variable {cfg : SchedulerConfig} {s next : Scheduler} {uid aborts : Nat}

theorem abortPending_filter (list : List PendingReq) (uid : Nat) :
    ((abortPending list uid).1.filter fun pending => pending.uid = uid) =
      (list.filter fun pending => pending.uid = uid).tail := by
  rcases abortPending_spec uid list with ⟨front, pending, back, rfl, same, pre, run⟩ |
    ⟨absent, run⟩
  · have none_ : (front.filter fun pending => pending.uid = uid) = [] :=
      filter_eq_nil_iff.mpr fun other mem => by simpa using pre other mem
    rw [run, filter_append, filter_append, none_, nil_append, nil_append,
      filter_cons_of_pos (by simpa using same), tail_cons]
  · have none_ : (list.filter fun pending => pending.uid = uid) = [] :=
      filter_eq_nil_iff.mpr fun other mem => by simpa using absent other mem
    rw [run, none_]
    rfl

theorem abortPending_filter_other (list : List PendingReq) {uid other : Nat} (ne : other ≠ uid) :
    ((abortPending list uid).1.filter fun pending => pending.uid = other) =
      list.filter fun pending => pending.uid = other := by
  rcases abortPending_spec uid list with ⟨front, pending, back, rfl, same, _, run⟩ | ⟨_, run⟩
  · rw [run, filter_append, filter_append, filter_cons_of_neg]
    simpa [same] using Ne.symm ne
  · rw [run]

theorem freeAborted_pendingList {name : Option Nat} (done : s.freeAborted name = .ok next) :
    next.pendingList = s.pendingList := by
  cases name with
  | none =>
    cases done
    rfl
  | some name =>
    change (if s.inFlight name then _ else _) = _ at done
    split at done
    · cases done
      rfl
    · exact (freeReqResources_retired done).1.pendingList

theorem processAbort_pending (done : s.processAbort uid = .ok next) :
    next.pendingList = (abortPending s.pendingList uid).1 := by
  unfold processAbort at done
  generalize entomb s.abortTombstones uid = tombstones at done
  obtain ⟨freed, freeing, done⟩ := bind_eq_ok.mp done
  obtain rfl := pure_eq_ok.mp done
  have taken : (takeAborted { s with abortTombstones := tombstones } uid).1.pendingList =
      (abortPending s.pendingList uid).1 := by
    unfold takeAborted
    dsimp only
    split
    · rfl
    · rfl
  exact (freeAborted_pendingList freeing).trans taken

/-! ### Tombstones -/

theorem mem_entomb_self {tombstones : List Nat} (room : tombstones.length < tombstoneCap)
    (uid : Nat) : uid ∈ entomb tombstones uid := by
  unfold entomb
  generalize tombstoneCap = cap at room
  dsimp only
  split
  · rename_i mem
    rwa [Nat.sub_eq_zero_of_le room.le, drop_zero]
  · rw [length_append, length_singleton, Nat.sub_eq_zero_of_le room, drop_zero]
    exact mem_append_right _ (mem_singleton_self uid)

theorem mem_entomb_other {tombstones : List Nat} (room : tombstones.length < tombstoneCap)
    {uid other : Nat} (ne : other ≠ uid) :
    other ∈ entomb tombstones uid ↔ other ∈ tombstones := by
  unfold entomb
  generalize tombstoneCap = cap at room
  dsimp only
  split
  · rw [Nat.sub_eq_zero_of_le room.le, drop_zero]
  · rw [length_append, length_singleton, Nat.sub_eq_zero_of_le room, drop_zero,
      mem_append, mem_singleton, or_iff_left ne]

/-! ### A request arrives -/

theorem processUser_untouched {msg : UserMsg} (other : msg.uid ≠ uid) :
    Untouched s (s.processUser cfg msg) uid := by
  unfold processUser
  dsimp only
  split
  · refine Untouched.of_frame rfl (fun _ _ => rfl) (fun _ _ => rfl) (fun _ _ _ _ => rfl) rfl rfl rfl
      rfl rfl rfl ?_ Iff.rfl
    rw [mem_filter]
    exact and_iff_left (by simpa using Ne.symm other)
  · split
    · refine Untouched.of_frame rfl (fun _ _ => rfl) (fun _ _ => rfl) (fun _ _ _ _ => rfl) rfl rfl rfl
        rfl ?_ rfl Iff.rfl Iff.rfl
      have apart : saidIn [tooLong msg.uid msg.inputIds.length cfg.maxSeqLen] uid = [] :=
        saidIn_of_others fun reply mem => by rw [mem_singleton.mp mem]; exact other
      show saidIn (s.out ++ _ ++ s.reply) uid = saidIn (s.out ++ s.reply) uid
      rw [saidIn_append, saidIn_append, apart, append_nil, saidIn_append]
    · refine Untouched.of_frame rfl (fun _ _ => rfl) (fun _ _ => rfl) (fun _ _ _ _ => rfl) rfl rfl rfl
        ?_ rfl rfl Iff.rfl Iff.rfl
      show (s.pendingList ++ [_]).filter _ = _
      rw [filter_append, filter_cons_of_neg (by simpa using other), filter_nil, append_nil]
      rfl

/-- A request is dropped because it was aborted before, rejected or listed. -/
theorem processUser_ledger {msg : UserMsg} (isUid : msg.uid = uid) (quiet : s.reply = [])
    (ledger : Ledger s uid aborts none) : Ledger (s.processUser cfg msg) uid aborts (some msg) := by
  obtain ⟨body, acks, stage, said, counted⟩ := ledger
  cases stage with
  | unborn pending names noTokens tomb =>
  rw [nil_append] at said
  have nobody : ∀ {state : Scheduler}, (∀ name < s.nextReq, (s.reqs name).uid ≠ uid) →
      state.nextReq = s.nextReq → state.reqs = s.reqs → ∀ name < state.nextReq,
      (state.reqs name).uid = uid → (state.reqs name).chunked = true ∨
        (state.reqs name).aborted = true ∨ (state.reqs name).tableIdx = none := by
    intro state names nextReq reqs name below isUid
    rw [nextReq] at below
    rw [reqs] at isUid
    exact absurd isUid (names name below)
  unfold processUser
  dsimp only
  rw [isUid]
  split
  · rename_i entombed
    refine ⟨[], acks, .past pending (nobody names rfl rfl) .silent (.inr (tomb.mp entombed)), ?_,
      counted⟩
    exact said
  · rename_i notEntombed
    have unaborted : aborts = 0 := Nat.eq_zero_of_not_pos fun some_ => notEntombed (tomb.mpr some_)
    have noAcks : acks = 0 := by omega
    subst noAcks
    split
    · refine ⟨[.rejected], 0, .past pending (nobody names rfl rfl) .rejected (.inl rfl), ?_, counted⟩
      have told : saidIn [tooLong uid msg.inputIds.length cfg.maxSeqLen] uid = [.rejected] := by
        unfold saidIn
        rw [filter_cons_of_pos (by simp [tooLong, Reply.uid]), filter_nil]
        rfl
      have pre : saidIn s.out uid = [] := by
        have empty := said
        unfold saidTo at empty
        rwa [quiet, append_nil] at empty
      show saidIn (s.out ++ _ ++ s.reply) uid = _
      rw [quiet, append_nil, saidIn_append, told, pre]
      rfl
    · refine ⟨[], 0, .waiting unaborted (p := {
          uid := uid
          inputIds := msg.inputIds
          samplingParams := { msg.samplingParams with
            maxTokens := min msg.samplingParams.maxTokens (cfg.maxSeqLen - msg.inputIds.length) }
          mmEmbeds := msg.mmEmbeds }) ?_ rfl (min_le_left _ _) names noTokens, said, counted⟩
      show (s.pendingList ++ [_]).filter _ = _
      rw [filter_append, filter_cons_of_pos (by simp), filter_nil]
      exact congrArg (· ++ _) pending

/-! ### An abort arrives -/

/-- What an abort does to the request objects: at most one object, of the aborted uid, is freed or
marked. -/
structure AbortEffect (s : Scheduler) (uid : Nat) (next : Scheduler) : Prop where
  nextReq : next.nextReq = s.nextReq
  last : next.lastData = s.lastData
  ongoing : next.ongoing = s.ongoing
  todo : next.todo = s.todo
  reply : next.reply = s.reply
  out : next.out = s.out
  generated : next.generated = s.generated
  tombstones : next.abortTombstones = entomb s.abortTombstones uid
  acks : next.pendingAbortAcks = if uid ∈ s.pendingAbortAcks then s.pendingAbortAcks
    else s.pendingAbortAcks ++ [uid]
  isUid : ∀ name, (next.reqs name).uid = (s.reqs name).uid
  chunked : ∀ name, (next.reqs name).chunked = (s.reqs name).chunked
  others : ∀ name, (s.reqs name).uid ≠ uid → next.reqs name = s.reqs name
  gone : ∀ name, (s.reqs name).aborted = true ∨ (s.reqs name).tableIdx = none →
    (next.reqs name).aborted = true ∨ (next.reqs name).tableIdx = none
  running : ∀ name ∈ s.decodeManager.runningReqs, (s.reqs name).uid = uid → s.pendingOf uid = [] →
    (∀ other ∈ s.decodeManager.runningReqs, (s.reqs other).uid = uid → other = name) →
    (next.reqs name).aborted = true ∨ (next.reqs name).tableIdx = none
  notRunning : (∀ name ∈ s.decodeManager.runningReqs, (s.reqs name).uid ≠ uid) →
    s.pendingOf uid = [] → next.reqs = s.reqs

theorem freeAborted_effect {name : Nat} (done : s.freeAborted (some name) = .ok next) :
    Retired s name next ∧ ((next.reqs name).aborted = true ∨ (next.reqs name).tableIdx = none) := by
  change (if s.inFlight name then _ else _) = _ at done
  split at done
  · cases done
    obtain ⟨retired, marked⟩ := mark_retired s name
    exact ⟨retired, .inl marked⟩
  · obtain ⟨retired, gone, -⟩ := freeReqResources_retired done
    exact ⟨retired, .inr gone⟩

theorem Retired.gone {name : Nat} (retired : Retired s name next) (other : Nat)
    (was : (s.reqs other).aborted = true ∨ (s.reqs other).tableIdx = none) :
    (next.reqs other).aborted = true ∨ (next.reqs other).tableIdx = none := by
  by_cases same : other = name
  · subst same
    rcases retired.seat with freed | ⟨_, marked⟩
    · exact .inr freed
    · exact .inl marked
  · rw [retired.others other same]
    exact was

theorem processAbort_effect (control : Control s) (done : s.processAbort uid = .ok next) :
    AbortEffect s uid next := by
  obtain ⟨taken, freed, reqToFree, took, freeing, rfl⟩ := processAbort_ok control done
  generalize tombs : entomb s.abortTombstones uid = tombstones at took
  have one : ∀ {start freed : Scheduler} {name : Nat}, start.freeAborted (some name) = .ok freed →
      start.nextReq = s.nextReq → start.lastData = s.lastData → start.ongoing = s.ongoing →
      start.todo = s.todo → start.reply = s.reply → start.out = s.out →
      start.generated = s.generated → start.abortTombstones = tombstones →
      start.pendingAbortAcks = s.pendingAbortAcks → start.reqs = s.reqs →
      (s.reqs name).uid = uid →
      (∀ other ∈ s.decodeManager.runningReqs, (s.reqs other).uid = uid → s.pendingOf uid = [] →
        (∀ another ∈ s.decodeManager.runningReqs, (s.reqs another).uid = uid → another = other) →
        other = name) →
      ((∀ name ∈ s.decodeManager.runningReqs, (s.reqs name).uid ≠ uid) → s.pendingOf uid ≠ []) →
      AbortEffect s uid { freed with
        pendingAbortAcks := if uid ∈ freed.pendingAbortAcks then freed.pendingAbortAcks
          else freed.pendingAbortAcks ++ [uid] } := by
    intro start freed name freeing nextReq last ongoing todo reply out generated entombed acks reqs
      isUid only found
    obtain ⟨retired, gone⟩ := freeAborted_effect freeing
    have part : ∀ {α : Type} (part : Req → α),
        (∀ req : Req, part { req.core with tableIdx := none, aborted := true } = part req) →
        ∀ other, part (freed.reqs other) = part (s.reqs other) := by
      intro α part reads other
      rw [retired.part part reads other, reqs]
    exact {
      nextReq := retired.nextReq.trans nextReq
      last := retired.lastData.trans last
      ongoing := retired.ongoing.trans ongoing
      todo := retired.todo.trans todo
      reply := retired.reply.trans reply
      out := retired.out.trans out
      generated := retired.generated.trans generated
      tombstones := (retired.abortTombstones.trans entombed).trans tombs.symm
      acks := by
        rw [retired.pendingAbortAcks, acks]
      isUid := part Req.uid fun _ => rfl
      chunked := part Req.chunked fun _ => rfl
      others := by
        intro other ne
        have apart : other ≠ name := by
          rintro rfl
          exact ne isUid
        exact (retired.others other apart).trans (congrFun reqs other)
      gone := by
        intro other was
        exact retired.gone other (by rw [reqs]; exact was)
      running := by
        intro other mem isOther empty alone
        obtain rfl := only other mem isOther empty alone
        exact gone
      notRunning := fun nobody empty => absurd empty (found nobody) }
  cases took with
  | none list sub gone notRunning =>
    cases freeing
    exact {
      nextReq := rfl, last := rfl, ongoing := rfl, todo := rfl, reply := rfl, out := rfl
      generated := rfl, tombstones := tombs.symm, acks := rfl, isUid := fun _ => rfl
      chunked := fun _ => rfl, others := fun _ _ => rfl, gone := fun _ was => was
      running := fun name mem isUid _ _ => absurd isUid (notRunning name mem)
      notRunning := fun _ _ => rfl }
  | chunk list pending name sub mem same chunk gone alone =>
    have isUid : (s.reqs name).uid = uid :=
      (control.continuation pending mem name chunk).2.uid.trans same
    have here : pending ∈ s.pendingOf uid := mem_filter.mpr ⟨mem, by simpa using same⟩
    refine one freeing rfl rfl rfl rfl rfl rfl rfl rfl rfl rfl isUid ?_ ?_
    · intro _ _ _ empty _
      rw [empty] at here
      cases here
    · intro _ empty
      rw [empty] at here
      cases here
  | running list name sub gone mem same =>
    refine one freeing rfl rfl rfl rfl rfl rfl rfl rfl rfl rfl same ?_ ?_
    · exact fun other _ _ _ alone => (alone name mem same).symm
    · exact fun nobody _ => absurd same (nobody name mem)

theorem AbortEffect.untouched {other : Nat} (effect : AbortEffect s uid next)
    (pending : next.pendingList = (abortPending s.pendingList uid).1)
    (room : s.abortTombstones.length < tombstoneCap) (ne : other ≠ uid) :
    Untouched s next other := by
  refine Untouched.of_frame effect.nextReq (fun name _ => effect.isUid name)
    (fun name _ => effect.chunked name) ?_ effect.last effect.ongoing effect.todo ?_ ?_
    effect.generated ?_ ?_
  · intro name _ isOther _
    rw [effect.others name (by rw [isOther]; exact ne)]
  · unfold pendingOf
    rw [pending]
    exact abortPending_filter_other _ ne
  · unfold saidTo
    rw [effect.out, effect.reply]
  · rw [effect.tombstones]
    exact mem_entomb_other room ne
  · rw [effect.acks]
    split
    · exact Iff.rfl
    · rw [mem_append, mem_singleton, or_iff_left ne]

theorem counted_abort {acks : Nat}
    (counted : acks + (if uid ∈ s.pendingAbortAcks then 1 else 0) ≤ aborts) :
    acks + (if uid ∈ next.pendingAbortAcks then 1 else 0) ≤ aborts + 1 := by
  split
  · split at counted <;> omega
  · omega

/-- **An abort arrives.** What waits is gone, what runs is gone or marked; only a request whose last
token is sampled and not delivered yet still gets it. -/
theorem AbortEffect.ledger {arrived : Option UserMsg} (effect : AbortEffect s uid next)
    (control : Control s) (receiving : s.ongoing = none)
    (pending : next.pendingList = (abortPending s.pendingList uid).1)
    (room : s.abortTombstones.length < tombstoneCap) (ledger : Ledger s uid aborts arrived) :
    Ledger next uid (aborts + 1) arrived := by
  obtain ⟨body, acks, stage, said, counted⟩ := ledger
  have said' : next.saidTo uid = body ++ replicate acks .acked := by
    unfold saidTo
    rw [effect.out, effect.reply]
    exact said
  have pending' : next.pendingOf uid = (s.pendingOf uid).tail := by
    unfold pendingOf
    rw [pending]
    exact abortPending_filter _ uid
  have generated' : next.generatedFor uid = s.generatedFor uid := by
    unfold generatedFor
    rw [effect.generated]
  obtain ⟨queueSame, forwardSame, undeliveredSame⟩ :=
    undelivered_congr effect.last effect.ongoing effect.todo
  refine ⟨body, acks, ?_, said', counted_abort counted⟩
  -- A seat that nothing was done to.
  have seatSame : ∀ {name limit : Nat} {tokens : List Token}, Seat s uid name limit tokens →
      next.reqs = s.reqs → Seat next uid name limit tokens := by
    intro name limit tokens seat reqs
    exact {
      pending := by rw [pending', seat.pending]; rfl
      known := effect.nextReq ▸ seat.known
      isUid := by rw [reqs]; exact seat.isUid
      whole := by rw [reqs]; exact seat.whole
      live := by rw [reqs]; exact seat.live
      seated := by rw [reqs]; exact seat.seated
      others := by rw [reqs, effect.nextReq]; exact seat.others
      order := by rw [generated', undeliveredSame]; exact seat.order
      room := by rw [reqs]; exact seat.room
      limit := by rw [reqs]; exact seat.limit
      fits := by rw [reqs]; exact seat.fits }
  -- The request of a seat is the only one of its uid that can be running.
  have runningOnly : ∀ {name limit : Nat} {tokens : List Token}, Seat s uid name limit tokens →
      ∀ other ∈ s.decodeManager.runningReqs, (s.reqs other).uid = uid → other = name := by
    intro name limit tokens seat other mem isUid
    by_contra ne
    obtain ⟨below, decodes, -, -⟩ := control.running other mem
    have chunked := seat.others other below isUid ne
    rw [canDecode_not_chunked decodes] at chunked
    cases chunked
  cases stage with
  | unborn noPending names quiet tomb =>
    refine .unborn (by rw [pending', noPending]; rfl) ?_ (generated'.trans quiet) ?_
    · intro name below
      rw [effect.isUid]
      exact names name (effect.nextReq ▸ below)
    · rw [effect.tombstones]
      exact iff_of_true (mem_entomb_self room uid) (Nat.succ_pos _)
  | waiting unaborted isPending first limit names quiet =>
    refine .past (by rw [pending', isPending]; rfl) ?_ .silent (.inr (Nat.succ_pos _))
    intro name below isUid
    rw [effect.isUid] at isUid
    exact absurd isUid (names name (effect.nextReq ▸ below))
  | @chunking _ p name unaborted isPending chunk limit names quiet =>
    refine .past (by rw [pending', isPending]; rfl) ?_
      (.unfinished p.inputLen [] nil_prefix (Nat.zero_le _)) (.inr (Nat.succ_pos _))
    intro other below isUid
    rw [effect.isUid] at isUid
    rw [effect.chunked]
    exact .inl (names other (effect.nextReq ▸ below) isUid)
  | @live msg promptTokens name tokens unaborted seat inTime =>
    by_cases running : name ∈ s.decodeManager.runningReqs
    · refine .past (by rw [pending', seat.pending]; rfl) ?_
        (.unfinished promptTokens tokens ?_ ?_) (.inr (Nat.succ_pos _))
      · intro other below isUid
        rw [effect.isUid] at isUid
        rw [effect.chunked]
        by_cases same : other = name
        · subst same
          exact .inr (effect.running other running isUid seat.pending (runningOnly seat))
        · exact .inl (seat.others other (effect.nextReq ▸ below) isUid same)
      · rw [generated', seat.order]
        exact prefix_append _ _
      · exact seat.tokens_le
    · have full : (s.reqs name).canDecode = false := by
        by_contra decodes
        exact running (control.decoding name seat.known (by simpa using decodes) seat.live
          seat.seated nofun)
      have nobody : ∀ other ∈ s.decodeManager.runningReqs, (s.reqs other).uid ≠ uid := by
        intro other mem isUid
        exact running (runningOnly seat other mem isUid ▸ mem)
      have reqs := effect.notRunning nobody seat.pending
      have notForward : name ∉ s.inForward := by simp [inForward, receiving]
      refine .closing (seatSame seat reqs) ?_ (by rw [forwardSame]; exact notForward)
        (by rw [reqs]; exact full)
      rw [queueSame]
      rcases inTime with decodes | queued | forward
      · rw [full] at decodes; cases decodes
      · exact queued
      · exact absurd forward notForward
  | @closing msg promptTokens name tokens seat queued notForward full =>
    have nobody : ∀ other ∈ s.decodeManager.runningReqs, (s.reqs other).uid ≠ uid := by
      intro other mem isUid
      obtain rfl := runningOnly seat other mem isUid
      rw [(control.running other mem).2.1] at full
      cases full
    have reqs := effect.notRunning nobody seat.pending
    exact .closing (seatSame seat reqs) (by rw [queueSame]; exact queued)
      (by rw [forwardSame]; exact notForward) (by rw [reqs]; exact full)
  | past noPending names script ended =>
    refine .past (by rw [pending', noPending]; rfl) ?_ (by rw [generated']; exact script)
      (.inr (Nat.succ_pos _))
    intro name below isUid
    rw [effect.isUid] at isUid
    rw [effect.chunked]
    exact (names name (effect.nextReq ▸ below) isUid).imp_right (effect.gone name)

end Scheduler

end FreeToken
