/-
**A drain and the ledgers.**
-/

import FreeToken.Scheduler.Ledger

namespace FreeToken

open List Function

namespace Scheduler

variable {cfg : SchedulerConfig} {s next : Scheduler} {uid aborts : Nat}

/-! ### The end of a round -/

theorem saidIn_acks {uids : List Nat} (nodup : uids.Nodup) (usage : Usage) (uid : Nat) :
    saidIn ((uids.insertionSort (· ≤ ·)).map fun uid =>
      .errorReply uid "request aborted" none usage) uid =
      if uid ∈ uids then [.acked] else [] := by
  have perm := perm_insertionSort (· ≤ ·) uids
  unfold saidIn
  rw [filter_map, map_map]
  show ((uids.insertionSort (· ≤ ·)).filter fun other => other = uid).map _ = _
  by_cases mem : uid ∈ uids
  · have one : (uids.insertionSort (· ≤ ·)).filter (fun other => other = uid) = [uid] := by
      rw [filter_eq, count_eq_one_of_mem (perm.nodup_iff.mpr nodup)
        (perm.mem_iff.mpr mem)]
      rfl
    rw [one, if_pos mem]
    rfl
  · have none_ : (uids.insertionSort (· ≤ ·)).filter (fun other => other = uid) = [] := by
      refine filter_eq_nil_iff.mpr fun other inList => ?_
      simp only [decide_eq_true_eq]
      rintro rfl
      exact mem (perm.mem_iff.mp inList)
    rw [none_, if_neg mem]
    rfl

theorem flush_said (nodup : s.pendingAbortAcks.Nodup) (quiet : s.reply = []) (uid : Nat) :
    s.flushAbortAcks.saidTo uid =
      s.saidTo uid ++ if uid ∈ s.pendingAbortAcks then [.acked] else [] := by
  show saidIn (s.out ++ _ ++ s.reply) uid = saidIn (s.out ++ s.reply) uid ++ _
  rw [quiet, append_nil, append_nil, saidIn_append, saidIn_acks nodup]

theorem Ledger.rotate {arrived : Option UserMsg} (ledger : Ledger s uid aborts arrived)
    (drained : s.queue = []) (reqs : next.reqs = s.reqs) (nextReq : next.nextReq = s.nextReq)
    (pending : next.pendingList = s.pendingList) (generated : next.generated = s.generated)
    (tombstones : next.abortTombstones = s.abortTombstones) (acked : next.pendingAbortAcks = [])
    (last : next.lastData = s.ongoing) (ongoing : next.ongoing = none) (todo : next.todo = none)
    (told : next.saidTo uid = s.saidTo uid ++ if uid ∈ s.pendingAbortAcks then [.acked] else []) :
    Ledger next uid aborts arrived := by
  obtain ⟨body, acks, stage, said, counted⟩ := ledger
  have queueSame : next.queue = s.inForward := by
    unfold queue inForward
    rw [todo, last]
  have undeliveredSame : ∀ name, next.undelivered name = s.undelivered name := by
    intro name
    unfold undelivered
    rw [queueSame, drained, last]
    unfold inForward
    rw [ongoing]
    simp
  have pendingSame : next.pendingOf uid = s.pendingOf uid := by
    unfold pendingOf
    rw [pending]
  have generatedSame : next.generatedFor uid = s.generatedFor uid := by
    unfold generatedFor
    rw [generated]
  have told : next.saidTo uid =
      body ++ replicate (acks + if uid ∈ s.pendingAbortAcks then 1 else 0) .acked := by
    rw [told, said, append_assoc, replicate_add]
    split
    · rfl
    · rfl
  have counted : acks + (if uid ∈ s.pendingAbortAcks then 1 else 0) +
      (if uid ∈ next.pendingAbortAcks then 1 else 0) ≤ aborts := by
    rw [acked]
    simpa using counted
  refine ⟨body, _, ?_, told, counted⟩
  -- A request that nobody aborted waits for no acknowledgement.
  have noAck : ∀ {acks : Nat}, acks + (if uid ∈ s.pendingAbortAcks then 1 else 0) ≤ aborts →
      aborts = 0 → acks + (if uid ∈ s.pendingAbortAcks then 1 else 0) = 0 := by
    intro acks counted unaborted
    omega
  have within : acks + (if uid ∈ s.pendingAbortAcks then 1 else 0) ≤ aborts := by omega
  cases stage with
  | unborn noPending names quiet tomb =>
    exact .unborn (pendingSame.trans noPending) (by rw [nextReq, reqs]; exact names)
      (generatedSame.trans quiet) (by rw [tombstones]; exact tomb)
  | waiting unaborted isPending first limit names quiet =>
    rw [noAck within unaborted]
    exact .waiting unaborted (pendingSame.trans isPending) first limit
      (by rw [nextReq, reqs]; exact names) (generatedSame.trans quiet)
  | chunking unaborted isPending chunk limit names quiet =>
    rw [noAck within unaborted]
    exact .chunking unaborted (pendingSame.trans isPending) chunk limit
      (by rw [nextReq, reqs]; exact names) (generatedSame.trans quiet)
  | @live _ _ name _ unaborted seat inTime =>
    rw [noAck within unaborted]
    refine @Standing.live _ _ _ _ _ name _ unaborted ?_ ?_
    · exact {
        pending := pendingSame.trans seat.pending
        known := nextReq ▸ seat.known
        isUid := by rw [reqs]; exact seat.isUid
        whole := by rw [reqs]; exact seat.whole
        live := by rw [reqs]; exact seat.live
        seated := by rw [reqs]; exact seat.seated
        others := by rw [reqs, nextReq]; exact seat.others
        order := by rw [generatedSame, undeliveredSame]; exact seat.order
        room := by rw [reqs]; exact seat.room
        limit := by rw [reqs]; exact seat.limit
        fits := by rw [reqs]; exact seat.fits }
    · rw [reqs, queueSame]
      rcases inTime with decodes | queued | forward
      · exact .inl decodes
      · rw [drained] at queued; cases queued
      · exact .inr (.inl forward)
  | closing seat queued notForward full =>
    rw [drained] at queued
    cases queued
  | past noPending names script ended =>
    exact .past (pendingSame.trans noPending) (by rw [nextReq, reqs]; exact names)
      (by rw [generatedSame]; exact script) ended

/-! ### The drain of another request -/

theorem Retired.untouched {name : Nat} (retired : Retired s name next)
    (apart : (s.reqs name).uid = uid → (s.reqs name).chunked = true) : Untouched s next uid := by
  refine Untouched.of_frame retired.nextReq
    (fun other _ => retired.part Req.uid (fun _ => rfl) other)
    (fun other _ => retired.part Req.chunked (fun _ => rfl) other) ?_ retired.lastData
    retired.ongoing retired.todo ?_ ?_ retired.generated ?_ ?_
  · intro other _ isUid whole
    have ne : other ≠ name := by
      rintro rfl
      rw [apart isUid] at whole
      cases whole
    rw [retired.others other ne]
  · unfold pendingOf
    rw [retired.pendingList]
  · unfold saidTo
    rw [retired.out, retired.reply]
  · rw [retired.abortTombstones]
  · rw [retired.pendingAbortAcks]

theorem queue_dequeue {name : Nat} {rest : List Nat} (todo : s.todo = some (name :: rest)) :
    s.queue = name :: rest := by
  unfold queue
  rw [todo]

theorem undelivered_dequeue {name : Nat} {rest : List Nat} {data : ForwardData}
    (todo : s.todo = some (name :: rest)) (last : s.lastData = some data)
    (nodup : s.queue.Nodup) (other : Nat) :
    s.undelivered other = (if other = name then [data.nextTokens name] else []) ++
      undelivered { s with todo := some rest } other := by
  rw [queue_dequeue todo, nodup_cons] at nodup
  have rested : queue { s with todo := some rest } = rest := rfl
  have forward : inForward { s with todo := some rest } = s.inForward := rfl
  unfold undelivered
  rw [queue_dequeue todo, rested, forward]
  rw [last]
  by_cases same : other = name
  · subst same
    rw [if_pos mem_cons_self, if_pos rfl, if_neg nodup.1]
    rfl
  · rw [if_neg same, nil_append]
    simp only [mem_cons, same, false_or]

theorem dequeue_untouched {name : Nat} {rest : List Nat} {data : ForwardData}
    (todo : s.todo = some (name :: rest)) (last : s.lastData = some data)
    (nodup : s.queue.Nodup) (apart : (s.reqs name).uid = uid → (s.reqs name).chunked = true) :
    Untouched s { s with todo := some rest } uid := by
  have ne : ∀ other, (s.reqs other).uid = uid → (s.reqs other).chunked = false → other ≠ name := by
    rintro other isUid whole rfl
    rw [apart isUid] at whole
    cases whole
  exact {
    pending := rfl
    older := le_refl _
    newer := fun name below new => absurd below (not_lt.mpr new)
    isUid := fun _ _ => rfl
    chunked := fun _ _ => rfl
    core := fun _ _ _ _ => rfl
    queue := by
      intro other _ isUid whole
      rw [queue_dequeue todo, mem_cons, or_iff_right (ne other isUid whole)]
      rfl
    inForward := fun _ _ _ _ => Iff.rfl
    undelivered := by
      intro other _ isUid whole
      rw [undelivered_dequeue todo last nodup other, if_neg (ne other isUid whole)]
      rfl
    said := rfl
    generated := rfl
    tomb := Iff.rfl
    acks := Iff.rfl }

/-! ### The drain of a seated request -/

theorem lt_of_verdict {req : Req} {token : Token} (goesOn : (verdict cfg req token).finished = false) :
    req.inputIds.length < req.maxDeviceLen := by
  unfold verdict at goesOn
  simp only [Bool.or_eq_false_iff, decide_eq_false_iff_not, not_le] at goesOn
  exact goesOn.1.1

theorem uid_tokenReply (req : Req) (token : Token) (v : Verdict) : (tokenReply req token v).uid = req.uid :=
  rfl

theorem saidIn_token {replies : List Reply} {req : Req} (isUid : req.uid = uid) (token : Token)
    (v : Verdict) : saidIn (replies ++ [tokenReply req token v]) uid =
      saidIn replies uid ++ [.token token v.finished] := by
  rw [saidIn_append]
  congr 1
  unfold saidIn
  rw [filter_cons_of_pos (by rw [uid_tokenReply]; simpa using isUid), filter_nil]
  rfl

theorem saidIn_otherToken {replies : List Reply} {req : Req} (other : req.uid ≠ uid) (token : Token)
    (v : Verdict) : saidIn (replies ++ [tokenReply req token v]) uid = saidIn replies uid := by
  have silent : saidIn [tokenReply req token v] uid = [] := by
    refine saidIn_of_others fun reply mem => ?_
    rw [mem_singleton.mp mem, uid_tokenReply]
    exact other
  rw [saidIn_append, silent, append_nil]

theorem Delivered.untouched {isPrefill : Bool} {name : Nat} {token : Token} {given : Req}
    (delivered : Delivered cfg s isPrefill name token given next)
    (core : given.core = { (s.reqs name).core with
      inputIds := (s.reqs name).inputIds ++ [token] }) (other : (s.reqs name).uid ≠ uid) :
    Untouched s next uid := by
  have givenUid : given.uid = (s.reqs name).uid := by
    have same := congrArg Req.uid core
    exact same
  have givenChunked : given.chunked = (s.reqs name).chunked := by
    have same := congrArg Req.chunked core
    exact same
  have apart : ∀ another, (s.reqs another).uid = uid → another ≠ name := by
    rintro another isUid rfl
    exact other isUid
  -- What is common to the three ways: the object of the other uid changes, and a reply to it.
  have given_ : ∀ {state : Scheduler} {req : Req}, req.uid = given.uid → req.chunked = given.chunked →
      (state.reqs = update s.reqs name req ∨
        state.reqs = update (update s.reqs name given) name req) →
      state.nextReq = s.nextReq → state.lastData = s.lastData → state.ongoing = s.ongoing →
      state.todo = s.todo → state.pendingList = s.pendingList → state.out = s.out →
      (∃ v, state.reply = s.reply ++ [tokenReply given token v]) →
      state.generated = s.generated → state.abortTombstones = s.abortTombstones →
      state.pendingAbortAcks = s.pendingAbortAcks → Untouched s state uid := by
    intro state req sameUid sameChunked reqs nextReq last ongoing todo pending out reply generated
      tombs acks
    have here : state.reqs name = req := by
      rcases reqs with reqs | reqs
      · rw [reqs, update_self]
      · rw [reqs, update_self]
    have there : ∀ another, another ≠ name → state.reqs another = s.reqs another := by
      intro another ne
      rcases reqs with reqs | reqs
      · rw [reqs, update_of_ne ne]
      · rw [reqs, update_of_ne ne, update_of_ne ne]
    refine Untouched.of_frame nextReq ?_ ?_ ?_ last ongoing todo ?_ ?_ generated ?_ ?_
    · intro another _
      by_cases same : another = name
      · rw [same, here, sameUid, givenUid]
      · rw [there another same]
    · intro another _
      by_cases same : another = name
      · rw [same, here, sameChunked, givenChunked]
      · rw [there another same]
    · intro another _ isUid _
      rw [there another (apart another isUid)]
    · unfold pendingOf
      rw [pending]
    · obtain ⟨v, reply⟩ := reply
      unfold saidTo
      rw [out, reply, ← append_assoc, saidIn_otherToken (by rw [givenUid]; exact other)]
    · rw [tombs]
    · rw [acks]
  cases delivered with
  | finished _ ends done =>
    obtain ⟨retired, -⟩ := finishReq_retired done
    have pre := @given_ { s.setReq name given with
        reply := s.reply ++ [tokenReply given token (verdict cfg { s.reqs name with
          inputIds := (s.reqs name).inputIds ++ [token] } token)]
        decodeManager := s.decodeManager.removeReq name } given rfl rfl (.inl rfl) rfl rfl
      rfl rfl rfl rfl ⟨_, rfl⟩ rfl rfl rfl
    have after : Untouched _ next uid := retired.untouched fun isUid => by
      have same : given.uid = uid := by
        have found : (update s.reqs name given name).uid = uid := isUid
        rwa [update_self] at found
      rw [givenUid] at same
      exact absurd same other
    exact pre.trans after
  | committed cm req goesOn prefill seated commit =>
    have same := CacheManager.cacheReq_core commit
    exact @given_ _ req (Req.uid_of_core same) (Req.chunked_of_core same) (.inr rfl) rfl rfl rfl
      rfl rfl rfl ⟨_, rfl⟩ rfl rfl rfl
  | kept goesOn =>
    exact @given_ _ given rfl rfl (.inl rfl) rfl rfl rfl rfl rfl rfl ⟨_, rfl⟩ rfl rfl rfl

theorem Seat.delivered {isPrefill : Bool} {name : Nat} {token : Token} {given : Req} {msg : UserMsg}
    {promptTokens : Nat} {tokens : List Token}
    (delivered : Delivered cfg s isPrefill name token given next)
    (core : given.core = { (s.reqs name).core with
      inputIds := (s.reqs name).inputIds ++ [token] })
    (room : (s.reqs name).inputIds.length + 1 ≤ (s.reqs name).maxDeviceLen)
    (pending : s.pendingOf uid = []) (known : name < s.nextReq) (isUid : (s.reqs name).uid = uid)
    (whole : (s.reqs name).chunked = false) (live : (s.reqs name).aborted = false)
    (seated : (s.reqs name).tableIdx.isSome)
    (others : ∀ other < s.nextReq, (s.reqs other).uid = uid → other ≠ name →
      (s.reqs other).chunked = true)
    (order : s.generatedFor uid = tokens ++ [token] ++ s.undelivered name)
    (budget : (s.reqs name).inputIds.length + (s.reqs name).outputLen =
      (s.reqs name).maxDeviceLen + tokens.length)
    (limit : (s.reqs name).outputLen ≤ msg.samplingParams.maxTokens)
    (said : s.saidTo uid = .admitted promptTokens :: tokens.map (.token · false))
    (counted : (if uid ∈ s.pendingAbortAcks then 1 else 0) ≤ aborts)
    (goesOn : (verdict cfg { s.reqs name with inputIds := (s.reqs name).inputIds ++ [token] }
        token).finished = false → aborts = 0 ∧ ((s.reqs name).inputIds.length + 1 <
          (s.reqs name).maxDeviceLen → given.canDecode = true ∨ name ∈ s.inForward)) :
    Ledger next uid aborts (some msg) := by
  have part : ∀ {α : Type} (part : Req → α), (∀ req : Req, part req.core = part req) →
      (∀ (req : Req) (ids : List Token), part { req with inputIds := ids } = part req) →
      part given = part (s.reqs name) := by
    intro α part reads ids
    rw [← reads given, core, ids, reads]
  have givenIds : given.inputIds = (s.reqs name).inputIds ++ [token] := by
    have same := congrArg Req.inputIds core
    exact same
  have givenUid : given.uid = uid := (part Req.uid (fun _ => rfl) fun _ _ => rfl).trans isUid
  have givenWhole : given.chunked = false :=
    (part Req.chunked (fun _ => rfl) fun _ _ => rfl).trans whole
  have told : ∀ v : Verdict, saidIn (s.out ++ (s.reply ++ [tokenReply given token v])) uid =
      .admitted promptTokens :: (tokens.map (.token · false) ++ [.token token v.finished]) := by
    intro v
    rw [← append_assoc, saidIn_token givenUid]
    show s.saidTo uid ++ _ = _
    rw [said]
    rfl
  -- The request goes on with the token it was given.
  have onward : ∀ {state : Scheduler} {req : Req}, req.core = given.core →
      (state.reqs = update s.reqs name req ∨
        state.reqs = update (update s.reqs name given) name req) →
      state.nextReq = s.nextReq → state.lastData = s.lastData → state.ongoing = s.ongoing →
      state.todo = s.todo → state.pendingList = s.pendingList → state.out = s.out →
      state.reply = s.reply ++ [tokenReply given token (verdict cfg { s.reqs name with
        inputIds := (s.reqs name).inputIds ++ [token] } token)] →
      state.generated = s.generated → state.pendingAbortAcks = s.pendingAbortAcks →
      (verdict cfg { s.reqs name with inputIds := (s.reqs name).inputIds ++ [token] }
        token).finished = false → Ledger state uid aborts (some msg) := by
    intro state req same reqs nextReq last ongoing todo pendingSame out reply generated acks open_
    obtain ⟨queueSame, forwardSame, undeliveredSame⟩ := undelivered_congr last ongoing todo
    obtain ⟨unaborted, inTime⟩ := goesOn open_
    have here : state.reqs name = req := by
      rcases reqs with reqs | reqs
      · rw [reqs, update_self]
      · rw [reqs, update_self]
    have there : ∀ other, other ≠ name → state.reqs other = s.reqs other := by
      intro other ne
      rcases reqs with reqs | reqs
      · rw [reqs, update_of_ne ne]
      · rw [reqs, update_of_ne ne, update_of_ne ne]
    have less := lt_of_verdict open_
    rw [length_append, length_singleton] at less
    refine ⟨_, 0, @Standing.live _ _ _ _ promptTokens name (tokens ++ [token])
      unaborted ?_ ?_, ?_, ?_⟩
    · constructor
      case pending => unfold pendingOf; rw [pendingSame]; exact pending
      case known => rw [nextReq]; exact known
      case isUid => rw [here, Req.uid_of_core same]; exact givenUid
      case whole => rw [here, Req.chunked_of_core same]; exact givenWhole
      case live =>
        rw [here, Req.aborted_of_core same]
        exact (part Req.aborted (fun _ => rfl) fun _ _ => rfl).trans live
      case seated =>
        rw [here, Req.tableIdx_of_core same, part Req.tableIdx (fun _ => rfl) fun _ _ => rfl]
        exact seated
      case others =>
        intro other below isOther ne
        rw [nextReq] at below
        rw [there other ne] at isOther ⊢
        exact others other below isOther ne
      case order =>
        unfold generatedFor
        rw [generated, undeliveredSame]
        exact order
      case room =>
        rw [here, Req.inputIds_of_core same, Req.outputLen_of_core same,
          Req.maxDeviceLen_of_core same, givenIds,
          part Req.outputLen (fun _ => rfl) fun _ _ => rfl,
          part Req.maxDeviceLen (fun _ => rfl) fun _ _ => rfl, length_append,
          length_append, length_singleton]
        omega
      case limit =>
        rw [here, Req.outputLen_of_core same, part Req.outputLen (fun _ => rfl) fun _ _ => rfl]
        exact limit
      case fits =>
        rw [here, Req.inputIds_of_core same, Req.maxDeviceLen_of_core same, givenIds,
          part Req.maxDeviceLen (fun _ => rfl) fun _ _ => rfl, length_append]
        exact room
    · rw [here, Req.canDecode_of_core same, forwardSame]
      exact (inTime less).imp_right .inr
    · unfold saidTo
      rw [out, reply, told, open_, map_append, replicate_zero, append_nil]
      rfl
    · rw [acks, zero_add]
      exact counted
  cases delivered with
  | finished _ ends done =>
    obtain ⟨retired, -, gone, -⟩ := finishReq_retired done
    have reqsSame : ∀ {α : Type} (part : Req → α),
        (∀ req : Req, part { req.core with tableIdx := none, aborted := true } = part req) →
        ∀ other, part (next.reqs other) = part (update s.reqs name given other) :=
      fun part reads other => retired.part part reads other
    refine ⟨_, 0, @Standing.past _ _ _ msg
      (.admitted promptTokens :: (tokens.map (.token · false) ++ [.token token true])) 0 true ?_ ?_
      (.finished promptTokens tokens token ?_ ?_) (.inl rfl), ?_, ?_⟩
    · unfold pendingOf
      rw [retired.pendingList]
      exact pending
    · intro other below isOther
      rw [retired.nextReq] at below
      by_cases same : other = name
      · rw [same]
        exact .inr (.inr gone)
      · rw [reqsSame Req.uid (fun _ => rfl), update_of_ne same] at isOther
        rw [reqsSame Req.chunked (fun _ => rfl), update_of_ne same]
        exact .inl (others other below isOther same)
    · unfold generatedFor
      rw [retired.generated]
      show _ <+: s.generatedFor uid
      rw [order]
      exact prefix_append _ _
    · omega
    · unfold saidTo
      rw [retired.out, retired.reply]
      show saidIn (s.out ++ (s.reply ++ _)) uid = _
      rw [told, ends, replicate_zero, append_nil]
    · rw [retired.pendingAbortAcks, zero_add]
      exact counted
  | committed cm req open_ prefill isSeated commit =>
    exact @onward _ req (CacheManager.cacheReq_core commit) (.inr rfl) rfl rfl rfl rfl rfl rfl
      rfl rfl rfl open_
  | kept open_ => exact @onward _ given rfl (.inl rfl) rfl rfl rfl rfl rfl rfl rfl rfl rfl open_

theorem Ledger.over_of {msg : UserMsg} {body : List Said} {acks : Nat}
    (stage : Standing s uid aborts (some msg) body acks) (retired : ∃ name, Retired s name next)
    (isOver : ∀ {name limit : Nat} {tokens : List Token}, ¬ Seat s uid name limit tokens)
    (noPending : s.pendingOf uid = [])
    (said : s.saidTo uid = body ++ List.replicate acks .acked)
    (counted : acks + (if uid ∈ s.pendingAbortAcks then 1 else 0) ≤ aborts) :
    Ledger next uid aborts (some msg) := by
  obtain ⟨name, retired⟩ := retired
  refine ⟨body, acks, ?_, ?_, ?_⟩
  · cases stage with
    | waiting _ pending _ _ _ _ => rw [noPending] at pending; cases pending
    | chunking _ pending _ _ _ _ => rw [noPending] at pending; cases pending
    | live _ seat _ => exact absurd seat isOver
    | closing seat _ _ _ => exact absurd seat isOver
    | past pending names script ended =>
      refine .past ?_ ?_ ?_ ended
      · unfold pendingOf
        rw [retired.pendingList]
        exact pending
      · intro other below isUid
        rw [retired.nextReq] at below
        rw [retired.part Req.uid (fun _ => rfl)] at isUid
        rw [retired.part Req.chunked (fun _ => rfl)]
        refine (names other below isUid).imp_right fun gone => ?_
        by_cases same : other = name
        · subst same
          rcases retired.seat with freed | ⟨_, marked⟩
          · exact .inr freed
          · exact .inl marked
        · rw [retired.others other same]
          exact gone
      · unfold generatedFor
        rw [retired.generated]
        exact script
  · unfold saidTo
    rw [retired.out, retired.reply]
    exact said
  · rw [retired.pendingAbortAcks]
    exact counted

/-- The drain of one request keeps every ledger. -/
theorem DrainedReq.ledger {arrived : Option UserMsg} {name : Nat} {rest : List Nat}
    {data : ForwardData} (control : Control s) (todo : s.todo = some (name :: rest))
    (last : s.lastData = some data)
    (drained : DrainedReq cfg { s with todo := some rest } data name next)
    (ledger : Ledger s uid aborts arrived) : Ledger next uid aborts arrived := by
  have nodup := control.queueDistinct
  have head : name ∈ s.queue := by
    rw [queue_dequeue todo]
    exact mem_cons_self
  have known := control.queued name head
  by_cases apart : (s.reqs name).uid = uid → (s.reqs name).chunked = true
  · have ledger := ledger.untouched (dequeue_untouched todo last nodup apart)
    cases drained with
    | chunk _ _ => exact ledger
    | chunkFreed _ _ _ done =>
      exact ledger.untouched ((freeReqResources_retired done).1.untouched apart)
    | aborted _ _ _ done =>
      obtain ⟨retired, -⟩ := finishReq_retired done
      have same : Untouched { s with todo := some rest } next uid := by
        have after := @Retired.untouched _ _ uid _ retired apart
        exact { after with }
      exact ledger.untouched same
    | skipped _ _ _ => exact ledger
    | delivered _ whole _ _ done =>
      obtain ⟨-, -, given, core, -, delivered⟩ := deliver_ok done
      refine ledger.untouched (delivered.untouched core fun isUid => ?_)
      have chunked := apart isUid
      rw [show (s.reqs name).chunked = false from whole] at chunked
      cases chunked
  · push Not at apart
    obtain ⟨isUid, notChunked⟩ := apart
    have whole : (s.reqs name).chunked = false := by simpa using notChunked
    obtain ⟨body, acks, stage, said, counted⟩ := ledger
    -- The seated request, whose turn it is.
    have seatCase : ∀ {msg : UserMsg} {promptTokens other : Nat} {tokens : List Token},
        Seat s uid other msg.samplingParams.maxTokens tokens →
        s.saidTo uid = .admitted promptTokens :: tokens.map (.token · false) →
        (if uid ∈ s.pendingAbortAcks then 1 else 0) ≤ aborts →
        (aborts ≠ 0 → other ∉ s.inForward ∧ (s.reqs other).canDecode = false) →
        Ledger next uid aborts (some msg) := by
      intro msg promptTokens other tokens seat said counted closing
      have same : name = other := by
        by_contra ne
        have chunked := seat.others name known isUid ne
        rw [whole] at chunked
        cases chunked
      subst same
      have lengths := control.lengths name known seat.seated nofun
      have order := seat.order
      rw [undelivered_dequeue todo last nodup name, if_pos rfl] at order
      have room := seat.room
      cases drained with
      | chunk chunked _
      | chunkFreed _ chunked _ _ => rw [show (s.reqs name).chunked = false from whole] at chunked; cases chunked
      | aborted _ _ aborted _ =>
        rw [show (s.reqs name).aborted = false from seat.live] at aborted; cases aborted
      | skipped _ _ ended =>
        have freed := (control.finished name (mem_append_left _ ended)).2
        have seated := seat.seated
        rw [freed] at seated
        cases seated
      | delivered _ _ _ _ done =>
        obtain ⟨-, fits, given, core, -, delivered⟩ := deliver_ok done
        have givenDevice : given.deviceLen = (s.reqs name).deviceLen := by
          have same := congrArg Req.deviceLen core
          exact same
        have givenMax : given.maxDeviceLen = (s.reqs name).maxDeviceLen := by
          have same := congrArg Req.maxDeviceLen core
          exact same
        have givenChunked : given.chunked = (s.reqs name).chunked := by
          have same := congrArg Req.chunked core
          exact same
        have device := lengths.inputIds
        rw [whole, undelivered_dequeue todo last nodup name, if_pos rfl, length_append,
          length_singleton] at device
        simp only [Bool.false_eq_true, if_false] at device
        have notRest : name ∉ rest := by
          rw [queue_dequeue todo, nodup_cons] at nodup
          exact nodup.1
        have alone : name ∉ s.inForward → undelivered { s with todo := some rest } name = [] := by
          intro notForward
          unfold undelivered
          rw [if_neg (show name ∉ queue { s with todo := some rest } from notRest),
            if_neg (show name ∉ inForward { s with todo := some rest } from notForward)]
          rfl
        refine @Seat.delivered _ _ _ _ _ _ _ _ _ _ promptTokens tokens delivered core fits
          seat.pending known isUid whole seat.live seat.seated seat.others ?_ room seat.limit said
          counted ?_
        · rw [append_assoc]
          exact order
        · intro goesOn
          have less := lt_of_verdict goesOn
          rw [length_append, length_singleton] at less
          refine ⟨?_, fun less => ?_⟩
          · by_contra someAbort
            obtain ⟨notForward, full⟩ := closing someAbort
            rw [alone notForward] at device
            unfold Req.canDecode Req.remainLen at full
            rw [whole] at full
            simp only [Bool.not_false, Bool.true_and, decide_eq_false_iff_not] at full
            simp only [length_nil] at device
            have less : (s.reqs name).inputIds.length + 1 < (s.reqs name).maxDeviceLen := less
            omega
          · by_cases forward : name ∈ s.inForward
            · exact .inr forward
            · refine .inl ?_
              rw [alone forward] at device
              have less : (s.reqs name).inputIds.length + 1 < (s.reqs name).maxDeviceLen := less
              simp only [length_nil] at device
              unfold Req.canDecode Req.remainLen
              rw [givenChunked, givenDevice, givenMax, whole]
              simp only [Bool.not_false, Bool.true_and, decide_eq_true_eq]
              omega
    cases stage with
    | unborn _ names _ _ => exact absurd isUid (names name known)
    | waiting _ _ _ _ names _ => exact absurd isUid (names name known)
    | chunking _ _ _ _ names _ =>
      have chunked := names name known isUid
      rw [whole] at chunked
      cases chunked
    | live unaborted seat _ =>
      rw [replicate_zero, append_nil] at said
      exact seatCase seat said (by omega) fun some_ => absurd unaborted some_
    | closing seat _ notForward full =>
      rw [replicate_zero, append_nil] at said
      exact seatCase seat said (by omega) fun _ => ⟨notForward, full⟩
    | past noPending names script ended =>
      have stage : Standing { s with todo := some rest } uid aborts _ body acks :=
        .past noPending names script ended
      have notSeat : ∀ {other limit : Nat} {tokens : List Token},
          ¬ Seat { s with todo := some rest } uid other limit tokens := by
        intro other limit tokens seat
        rcases names other seat.known seat.isUid with chunked | aborted | freed
        · rw [seat.whole] at chunked; cases chunked
        · rw [seat.live] at aborted; cases aborted
        · have seated := seat.seated
          rw [show (s.reqs other).tableIdx = none from freed] at seated
          cases seated
      cases drained with
      | chunk _ _ => exact ⟨body, acks, stage, said, counted⟩
      | chunkFreed _ _ _ done =>
        exact Ledger.over_of stage ⟨name, (freeReqResources_retired done).1⟩ notSeat noPending said
          counted
      | aborted _ _ _ done =>
        obtain ⟨retired, -⟩ := finishReq_retired done
        have stage : Standing { s with
            todo := some rest
            decodeManager := s.decodeManager.removeReq name } uid aborts _ body acks :=
          .past noPending names script ended
        exact Ledger.over_of stage ⟨name, retired⟩ (fun seat => notSeat { seat with }) noPending said
          counted
      | skipped _ _ _ => exact ⟨body, acks, stage, said, counted⟩
      | delivered _ _ live goesOn done =>
        rcases names name known isUid with chunked | aborted | freed
        · rw [whole] at chunked; cases chunked
        · rw [show (s.reqs name).aborted = false from live] at aborted; cases aborted
        · exact absurd (control.ended name head whole live freed) goesOn

end Scheduler

end FreeToken
