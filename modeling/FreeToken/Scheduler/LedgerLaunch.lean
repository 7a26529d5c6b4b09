/-
**A launch and the ledgers.**

* `PassOf.entry`, `Scheduled.prefill_ledger`: the first or the next chunk of a request is launched.
-/

import FreeToken.Scheduler.Ledger

namespace FreeToken

open List

theorem filter_filterMap {α β : Type} (list : List α) (make : α → Option β) (keep : β → Bool)
    (keepFirst : α → Bool)
    (agree : ∀ value ∈ list, ∀ made, make value = some made → keep made = keepFirst value) :
    (list.filterMap make).filter keep = (list.filter keepFirst).filterMap make := by
  induction list with
  | nil => rfl
  | cons value list ih =>
    have rest := ih fun other mem => agree other (mem_cons_of_mem _ mem)
    cases isMade : make value with
    | none =>
      rw [filterMap_cons_none isMade, filter_cons, rest]
      split
      · rw [filterMap_cons_none isMade]
      · rfl
    | some made =>
      have same := agree value mem_cons_self made isMade
      rw [filterMap_cons_some isMade, filter_cons, filter_cons, rest, same]
      split
      · rw [filterMap_cons_some isMade]
      · rfl

theorem eq_singleton_of_nodup {α : Type} {list : List α} {value : α} (nodup : list.Nodup)
    (mem : value ∈ list) (only : ∀ other ∈ list, other = value) : list = [value] := by
  cases list with
  | nil => cases mem
  | cons first rest =>
    obtain rfl := only first mem_cons_self
    cases rest with
    | nil => rfl
    | cons second rest =>
      have same := only second (by simp)
      rw [same] at nodup
      exact absurd nodup (by simp)

/-! ### The choice of a batch -/

variable {base : Nat} {reqs : Nat → Req} {taken : List PendingReq} {pass : Pass}

theorem PassOf.zip_fst
    (of : PassOf base reqs taken pass) : (taken.zip pass.batch).map Prod.fst = taken := by
  refine map_fst_zip ?_
  rw [of.batch, length_range']

theorem PassOf.zip_snd
    (of : PassOf base reqs taken pass) : (taken.zip pass.batch).map Prod.snd = pass.batch := by
  refine map_snd_zip ?_
  rw [of.batch, length_range']

def entriesOf (taken : List PendingReq) (batch : List Nat) (uid : Nat) : List (PendingReq × Nat) :=
  (taken.zip batch).filter fun entry => entry.1.uid = uid

theorem PassOf.entriesOf_fst
    (of : PassOf base reqs taken pass) (uid : Nat) : (entriesOf taken pass.batch uid).map Prod.fst =
      taken.filter fun pending => pending.uid = uid := by
  conv_rhs => rw [← of.zip_fst, filter_map]
  rfl

theorem PassOf.chunks_filter (of : PassOf base reqs taken pass) (uid : Nat) :
    (pass.chunkedList.filter fun pending => pending.uid = uid) =
      (entriesOf taken pass.batch uid).filterMap fun entry =>
        if (pass.reqs entry.2).chunked then some { entry.1 with chunkedReq := some entry.2 }
        else none := by
  rw [of.chunkedList]
  refine filter_filterMap _ _ _ _ ?_
  intro entry _ made isMade
  split at isMade
  · cases isMade
    rfl
  · cases isMade

theorem PassOf.admissions_filter (of : PassOf base reqs taken pass) (uid : Nat) :
    saidIn (pass.promptAdmissions.map fun entry =>
        .promptAdmitted entry.1 entry.2.1 entry.2.2) uid =
      (entriesOf taken pass.batch uid).filterMap fun entry =>
        if entry.1.chunkedReq = none then some (.admitted entry.1.inputLen) else none := by
  unfold saidIn
  rw [of.promptAdmissions, map_filterMap, filter_filterMap _ _ _ (fun entry =>
    decide (entry.1.uid = uid)), map_filterMap]
  · refine filterMap_congr fun entry _ => ?_
    split
    · rfl
    · rfl
  · intro entry _ made isMade
    split at isMade
    · cases isMade
      rfl
    · cases isMade

theorem PassOf.entry_of_new
    (of : PassOf base reqs taken pass) {name : Nat} (new : base ≤ name) (below : name < pass.nextReq) :
    ∃ pending, (pending, name) ∈ taken.zip pass.batch ∧ (pass.reqs name).uid = pending.uid := by
  have inBatch : name ∈ pass.batch := by
    rw [of.batch, mem_range'_1]
    rw [of.nextReq] at below
    exact ⟨new, below⟩
  rw [← of.zip_snd, mem_map] at inBatch
  obtain ⟨⟨pending, other⟩, mem, rfl⟩ := inBatch
  exact ⟨pending, mem, (of.launched _ mem).uid⟩

namespace Scheduler

variable {cfg : SchedulerConfig} {s mid next : Scheduler} {uid aborts : Nat}
  {nextTokens : Nat → Token}

/-! ### The forward -/

theorem generatedFor_forward {batch : List Nat} (s : Scheduler)
    (grown : next.generated = s.generated ++ ((batch.filter fun name => !(s.reqs name).chunked).map
      fun name => ((s.reqs name).uid, nextTokens name))) :
    next.generatedFor uid = s.generatedFor uid ++
      ((batch.filter fun name => !(s.reqs name).chunked).filter
        fun name => (s.reqs name).uid = uid).map nextTokens := by
  unfold generatedFor
  rw [grown, filter_append, map_append, filter_map, map_map]
  rfl

theorem Forwarded.parts {batch : Batch} {admissions : List Reply}
    (forwarded : Forwarded s batch nextTokens admissions next) {α : Type} (part : Req → α)
    (reads : ∀ req : Req, part req.core = part req)
    (step : ∀ req : Req, part req.completeOne = part req) (name : Nat) :
    part (next.reqs name) = part (s.reqs name) := by
  rw [← reads (next.reqs name)]
  by_cases mem : name ∈ batch.reqs
  · rw [forwarded.completed name mem, reads, step]
  · rw [forwarded.others name mem, reads]

theorem undelivered_launch {batch : Batch} (receiving : s.ongoing = none)
    (last : next.lastData = s.lastData) (todo : next.todo = s.todo)
    (ongoing : next.ongoing = some ⟨batch, nextTokens⟩) (name : Nat) :
    next.queue = s.queue ∧ next.inForward = batch.reqs ∧ next.undelivered name =
      s.undelivered name ++ if name ∈ batch.reqs then [nextTokens name] else [] := by
  have queueSame : next.queue = s.queue := by
    unfold queue
    rw [last, todo]
  have forwardSame : next.inForward = batch.reqs := by
    unfold inForward
    rw [ongoing]
    rfl
  refine ⟨queueSame, forwardSame, ?_⟩
  unfold undelivered
  rw [queueSame, forwardSame, last, ongoing]
  rw [receiving]
  simp [sampledIn]

theorem Forwarded.untouched {batch : Batch}
    (forwarded : Forwarded s batch nextTokens [] next) (receiving : s.ongoing = none)
    (chunks : ∀ name ∈ batch.reqs, (s.reqs name).uid = uid → (s.reqs name).chunked = true) :
    Untouched s { next with ongoing := some ⟨batch, nextTokens⟩ } uid := by
  have launch := fun name => @undelivered_launch s
    { next with ongoing := some ⟨batch, nextTokens⟩ } nextTokens batch receiving forwarded.lastData
    forwarded.todo rfl name
  have apart : ∀ name, (s.reqs name).uid = uid → (s.reqs name).chunked = false →
      name ∉ batch.reqs := by
    intro name isUid whole mem
    rw [chunks name mem isUid] at whole
    cases whole
  exact {
    pending := by unfold pendingOf; rw [forwarded.pendingList]
    older := forwarded.nextReq.ge
    newer := fun name below new => by
      have same : next.nextReq = s.nextReq := forwarded.nextReq
      have below : name < next.nextReq := below
      omega
    isUid := fun name _ => forwarded.parts Req.uid (fun _ => rfl) (fun _ => rfl) name
    chunked := fun name _ => forwarded.parts Req.chunked (fun _ => rfl) (fun _ => rfl) name
    core := fun name _ isUid whole => forwarded.others name (apart name isUid whole)
    queue := fun name _ _ _ => by rw [(launch name).1]
    inForward := fun name _ isUid whole => by
      rw [(launch name).2.1]
      unfold inForward
      rw [receiving]
      simpa using apart name isUid whole
    undelivered := fun name _ isUid whole => by
      rw [(launch name).2.2, if_neg (apart name isUid whole), append_nil]
    said := by
      show saidIn (next.out ++ next.reply) uid = saidIn (s.out ++ s.reply) uid
      rw [forwarded.out, forwarded.reply, append_nil]
    generated := by
      rw [@generatedFor_forward { next with ongoing := some ⟨batch, nextTokens⟩ } _ _ _ s
        forwarded.generated, filter_eq_nil_iff.mpr, map_nil, append_nil]
      intro name mem
      simp only [mem_filter, Bool.not_eq_true'] at mem
      simpa using fun isUid => apart name isUid mem.2 mem.1
    tomb := by rw [show _ = s.abortTombstones from forwarded.abortTombstones]
    acks := by rw [show _ = s.pendingAbortAcks from forwarded.pendingAbortAcks] }

theorem Seat.forward {batch : Batch} {admissions : List Reply} {name limit : Nat}
    {tokens : List Token} (seat : Seat s uid name limit tokens)
    (forwarded : Forwarded s batch nextTokens admissions next) (receiving : s.ongoing = none)
    (nodup : batch.reqs.Nodup) (mem : name ∈ batch.reqs)
    (known : ∀ other ∈ batch.reqs, other < s.nextReq) :
    Seat { next with ongoing := some ⟨batch, nextTokens⟩ } uid name limit tokens := by
  have same : ∀ {α : Type} (part : Req → α), (∀ req : Req, part req.core = part req) →
      (∀ req : Req, part req.completeOne = part req) →
      ∀ other, part (next.reqs other) = part (s.reqs other) :=
    fun part reads step other => forwarded.parts part reads step other
  have isOnly : ((batch.reqs.filter fun name => !(s.reqs name).chunked).filter
      fun name => (s.reqs name).uid = uid) = [name] := by
    refine eq_singleton_of_nodup ((nodup.filter _).filter _) ?_ ?_
    · simp only [mem_filter, decide_eq_true_eq, Bool.not_eq_true']
      exact ⟨⟨mem, seat.whole⟩, seat.isUid⟩
    · intro other inBatch
      simp only [mem_filter, decide_eq_true_eq, Bool.not_eq_true'] at inBatch
      by_contra ne
      have chunked := seat.others other (known other inBatch.1.1) inBatch.2 ne
      rw [inBatch.1.2] at chunked
      cases chunked
  constructor
  case pending =>
    have pending : next.pendingList = s.pendingList := forwarded.pendingList
    rw [pending]
    exact seat.pending
  case known => rw [show _ = s.nextReq from forwarded.nextReq]; exact seat.known
  case isUid => exact (same Req.uid (fun _ => rfl) (fun _ => rfl) name).trans seat.isUid
  case whole => exact (same Req.chunked (fun _ => rfl) (fun _ => rfl) name).trans seat.whole
  case live => exact (same Req.aborted (fun _ => rfl) (fun _ => rfl) name).trans seat.live
  case seated =>
    rw [same Req.tableIdx (fun _ => rfl) (fun _ => rfl) name]
    exact seat.seated
  case others =>
    intro other below isUid ne
    have below : other < next.nextReq := below
    rw [show next.nextReq = s.nextReq from forwarded.nextReq] at below
    rw [show _ = (s.reqs other).uid from same Req.uid (fun _ => rfl) (fun _ => rfl) other] at isUid
    exact (same Req.chunked (fun _ => rfl) (fun _ => rfl) other).trans
      (seat.others other below isUid ne)
  case order =>
    have launch := @undelivered_launch s
      { next with ongoing := some ⟨batch, nextTokens⟩ } nextTokens batch receiving forwarded.lastData
      forwarded.todo rfl name
    rw [@generatedFor_forward { next with ongoing := some ⟨batch, nextTokens⟩ } _ _ _ s
      forwarded.generated, isOnly, launch.2.2, if_pos mem, seat.order, append_assoc]
    rfl
  case room =>
    rw [same Req.inputIds (fun _ => rfl) (fun _ => rfl) name,
      same Req.outputLen (fun _ => rfl) (fun _ => rfl) name,
      same Req.maxDeviceLen (fun _ => rfl) (fun _ => rfl) name]
    exact seat.room
  case limit =>
    rw [same Req.outputLen (fun _ => rfl) (fun _ => rfl) name]
    exact seat.limit
  case fits =>
    rw [same Req.inputIds (fun _ => rfl) (fun _ => rfl) name,
      same Req.maxDeviceLen (fun _ => rfl) (fun _ => rfl) name]
    exact seat.fits

/-- What a uid is ready for when its batch is chosen and its admission is announced: chunks of it are
launched at most, or its seated request is. -/
inductive Ready (s : Scheduler) (uid aborts : Nat) (batch : List Nat) : Option UserMsg → Prop
  | aside {arrived : Option UserMsg} (ledger : Ledger s uid aborts arrived)
      (chunks : ∀ name ∈ batch, (s.reqs name).uid = uid → (s.reqs name).chunked = true) :
      Ready s uid aborts batch arrived
  | seated {msg : UserMsg} {promptTokens name : Nat} {tokens : List Token} (unaborted : aborts = 0)
      (seat : Seat s uid name msg.samplingParams.maxTokens tokens) (mem : name ∈ batch)
      (said : s.saidTo uid = .admitted promptTokens :: tokens.map (.token · false))
      (acks : uid ∉ s.pendingAbortAcks) : Ready s uid aborts batch (some msg)

theorem Ready.forward {batch : Batch} {arrived : Option UserMsg}
    (ready : Ready s uid aborts batch.reqs arrived) (nodup : batch.reqs.Nodup)
    (known : ∀ name ∈ batch.reqs, name < s.nextReq) (receiving : s.ongoing = none)
    (forwarded : Forwarded s batch nextTokens [] next) :
    Ledger { next with ongoing := some ⟨batch, nextTokens⟩ } uid aborts arrived := by
  cases ready with
  | aside ledger chunks => exact ledger.untouched (forwarded.untouched receiving chunks)
  | @seated _ promptTokens name tokens unaborted seat mem said acks =>
    have launch := @undelivered_launch s
      { next with ongoing := some ⟨batch, nextTokens⟩ } nextTokens batch receiving forwarded.lastData
      forwarded.todo rfl name
    refine ⟨_, 0, @Standing.live _ _ _ _ promptTokens _ _ unaborted
      (seat.forward forwarded receiving nodup mem known) (.inr (.inr ?_)), ?_, ?_⟩
    · rw [launch.2.1]
      exact mem
    · rw [forwarded.out, forwarded.reply, append_nil, replicate_zero, append_nil]
      exact said
    · rw [if_neg]
      · omega
      · rw [forwarded.pendingAbortAcks]
        exact acks

theorem afterPass_names
    (of : PassOf s.nextReq s.reqs taken pass) {name : Nat} (below : name < pass.nextReq)
    (isUid : (pass.reqs name).uid = uid) :
    name < s.nextReq ∧ pass.reqs name = s.reqs name ∨
      ∃ pending, (pending, name) ∈ entriesOf taken pass.batch uid ∧
        Launched pending (pending.chunkedReq.map s.reqs) (pass.reqs name) := by
  rcases lt_or_ge name s.nextReq with old | new
  · exact .inl ⟨old, of.old name old⟩
  · obtain ⟨pending, mem, same⟩ := of.entry_of_new new below
    refine .inr ⟨pending, mem_filter.mpr ⟨mem, ?_⟩, of.launched _ mem⟩
    rw [same] at isUid
    simpa using isUid

theorem afterPass_untouched {taken rest : List PendingReq} {pass : Pass}
    (of : PassOf s.nextReq s.reqs taken pass) (split : s.pendingList = taken ++ rest)
    (noEntry : entriesOf taken pass.batch uid = []) : Untouched s (s.afterPass pass rest) uid := by
  have more : s.nextReq ≤ pass.nextReq := by
    rw [of.nextReq]
    exact Nat.le_add_right _ _
  have sameReqs : ∀ name < s.nextReq, (s.afterPass pass rest).reqs name = s.reqs name := of.old
  exact {
    pending := by
      show (pass.chunkedList ++ rest).filter _ = s.pendingList.filter _
      have none_ := of.entriesOf_fst uid
      rw [noEntry] at none_
      rw [filter_append, of.chunks_filter uid, noEntry, split, filter_append, ← none_]
      rfl
    older := more
    newer := by
      intro name below new isUid
      rcases afterPass_names (s := s) of below isUid with ⟨old, -⟩ | ⟨pending, mem, -⟩
      · omega
      · rw [noEntry] at mem
        cases mem
    isUid := fun name old => by rw [sameReqs name old]
    chunked := fun name old => by rw [sameReqs name old]
    core := fun name old _ _ => by rw [sameReqs name old]
    queue := fun _ _ _ _ => Iff.rfl
    inForward := fun _ _ _ _ => Iff.rfl
    undelivered := fun _ _ _ _ => rfl
    said := rfl
    generated := rfl
    tomb := Iff.rfl
    acks := Iff.rfl }

/-- **The first or the next chunk of a request is taken by a pass**, and announced if it is the
first. -/
theorem afterPass_ready {taken rest : List PendingReq} {pass : Pass} {arrived : Option UserMsg}
    (control : Control s) (receiving : s.ongoing = none) (quiet : s.reply = [])
    (of : PassOf s.nextReq s.reqs taken pass)
    (split : s.pendingList = taken ++ rest) (ledger : Ledger s uid aborts arrived) :
    Ready ((s.afterPass pass rest).sendResult (pass.promptAdmissions.map fun entry =>
      .promptAdmitted entry.1 entry.2.1 entry.2.2)) uid aborts pass.batch arrived := by
  have told : saidTo ((s.afterPass pass rest).sendResult (pass.promptAdmissions.map fun entry =>
      .promptAdmitted entry.1 entry.2.1 entry.2.2)) uid = s.saidTo uid ++
        (entriesOf taken pass.batch uid).filterMap fun entry =>
          if entry.1.chunkedReq = none then some (.admitted entry.1.inputLen) else none := by
    show saidIn (s.out ++ _ ++ s.reply) uid = saidIn (s.out ++ s.reply) uid ++ _
    rw [quiet, append_nil, append_nil, saidIn_append, of.admissions_filter uid]
  have inBatch : ∀ name ∈ pass.batch, s.nextReq ≤ name ∧ name < pass.nextReq := by
    intro name mem
    rw [of.batch, mem_range'_1] at mem
    rw [of.nextReq]
    exact mem
  cases isEntry : entriesOf taken pass.batch uid with
  | nil =>
    rw [isEntry, filterMap_nil, append_nil] at told
    have same := afterPass_untouched of split isEntry
    refine .aside (ledger.untouched { same with said := told }) ?_
    intro name mem isUid
    obtain ⟨new, below⟩ := inBatch name mem
    exact absurd isUid (same.newer name below new)
  | cons entry others =>
    obtain ⟨p, name⟩ := entry
    obtain ⟨body, acks, stage, said, counted⟩ := ledger
    have ofUid := of.entriesOf_fst uid
    rw [isEntry, map_cons] at ofUid
    have pending : s.pendingOf uid = p :: (others.map Prod.fst ++
        rest.filter fun pending => pending.uid = uid) := by
      unfold pendingOf
      rw [split, filter_append, ← ofUid]
      rfl
    -- The uid has one pending request, so the entry is its only one.
    have alone : ∀ {q : PendingReq}, s.pendingOf uid = [q] → q = p ∧ others = [] ∧
        (rest.filter fun pending => pending.uid = uid) = [] := by
      intro q one
      rw [pending] at one
      obtain ⟨same, empty⟩ := cons.inj one
      obtain ⟨noOthers, noRest⟩ := append_eq_nil_iff.mp empty
      exact ⟨same.symm, map_eq_nil_iff.mp noOthers, noRest⟩
    have absent : s.pendingOf uid ≠ [] := by
      rw [pending]
      exact cons_ne_nil _ _
    have entryMem : (p, name) ∈ taken.zip pass.batch := by
      have mem : (p, name) ∈ entriesOf taken pass.batch uid := by
        rw [isEntry]
        exact mem_cons_self
      exact mem_of_mem_filter mem
    have nameBatch : name ∈ pass.batch := (of_mem_zip entryMem).2
    have launched := of.launched _ entryMem
    have isUid : p.uid = uid := by
      have mem : p ∈ s.pendingOf uid := by
        rw [pending]
        exact mem_cons_self
      simpa using (mem_filter.mp mem).2
    -- What is common to a first and to a later chunk.
    have ready : ∀ {msg : UserMsg} (pre : List Said), aborts = 0 → s.pendingOf uid = [p] →
        p.outputLen ≤ msg.samplingParams.maxTokens →
        (∀ other < s.nextReq, (s.reqs other).uid = uid → (s.reqs other).chunked = true) →
        s.generatedFor uid = [] → s.saidTo uid = pre →
        (pre ++ if p.chunkedReq = none then [.admitted p.inputLen] else []) =
          [.admitted p.inputLen] →
        uid ∉ s.pendingAbortAcks →
        Ready ((s.afterPass pass rest).sendResult (pass.promptAdmissions.map fun entry =>
          .promptAdmitted entry.1 entry.2.1 entry.2.2)) uid aborts pass.batch (some msg) := by
      intro msg pre unaborted onlyP limit oldChunked noTokens said announced noAck
      obtain ⟨-, noOthers, noRest⟩ := alone onlyP
      subst noOthers
      have chunkList := of.chunks_filter uid
      rw [isEntry, filterMap_cons, filterMap_nil] at chunkList
      rw [isEntry, filterMap_cons, filterMap_nil, said] at told
      have saidNow : saidTo ((s.afterPass pass rest).sendResult (pass.promptAdmissions.map fun entry =>
          .promptAdmitted entry.1 entry.2.1 entry.2.2)) uid = [.admitted p.inputLen] := by
        rw [told, ← announced]
        by_cases first : p.chunkedReq = none
        · simp [first]
        · simp [first]
      have names : ∀ other < pass.nextReq, (pass.reqs other).uid = uid → other ≠ name →
          (pass.reqs other).chunked = true := by
        intro other below isOther ne
        rcases afterPass_names (s := s) of below isOther with ⟨old, same⟩ |
          ⟨q, mem, -⟩
        · rw [same] at isOther ⊢
          exact oldChunked other old isOther
        · rw [isEntry, mem_singleton] at mem
          exact absurd (Prod.mk.inj mem).2 ne
      cases chunked : (pass.reqs name).chunked with
      | true =>
        refine .aside ⟨_, 0, @Standing.chunking _ _ _ _ { p with chunkedReq := some name } name
          unaborted ?_ rfl limit ?_ noTokens, ?_, ?_⟩ ?_
        · show (pass.chunkedList ++ rest).filter _ = _
          rw [filter_append, chunkList, noRest, chunked]
          rfl
        · intro other below isOther
          by_cases same : other = name
          · rw [same]
            exact chunked
          · exact names other below isOther same
        · rw [replicate_zero, append_nil]
          exact saidNow
        · show 0 + (if uid ∈ s.pendingAbortAcks then 1 else 0) ≤ aborts
          rw [if_neg noAck]
          omega
        · intro other mem isOther
          by_cases same : other = name
          · rw [same]
            exact chunked
          · exact names other (inBatch other mem).2 isOther same
      | false =>
        refine @Ready.seated _ _ _ _ _ p.inputLen _ [] unaborted ?_ nameBatch saidNow noAck
        have notQueued : name ∉ s.queue := by
          intro queued
          have old := control.queued name queued
          have new := (inBatch name nameBatch).1
          omega
        constructor
        case pending =>
          show (pass.chunkedList ++ rest).filter _ = _
          rw [filter_append, chunkList, noRest, chunked]
          rfl
        case known => exact (inBatch name nameBatch).2
        case isUid => exact launched.uid.trans isUid
        case whole => exact chunked
        case live => exact launched.aborted
        case seated => exact launched.seated
        case others => exact names
        case order =>
          have nothing : s.undelivered name = [] := by
            unfold undelivered
            rw [if_neg notQueued, if_neg (by simp [inForward, receiving])]
            rfl
          exact noTokens.trans nothing.symm
        case room =>
          show (pass.reqs name).inputIds.length + (pass.reqs name).outputLen =
            (pass.reqs name).maxDeviceLen + 0
          rw [launched.idsLength, launched.outputLen, launched.maxDeviceLen]
          rfl
        case limit =>
          show (pass.reqs name).outputLen ≤ _
          rw [launched.outputLen]
          exact limit
        case fits =>
          show (pass.reqs name).inputIds.length ≤ (pass.reqs name).maxDeviceLen
          rw [launched.idsLength, launched.maxDeviceLen]
          exact Nat.le_add_right _ _
    have noAck : acks = 0 → aborts = 0 → uid ∉ s.pendingAbortAcks := by
      intro noAcks unaborted mem
      rw [if_pos mem] at counted
      omega
    cases stage with
    | unborn noPending _ _ _ => exact absurd noPending absent
    | waiting unaborted onlyP first limit names noTokens =>
      obtain ⟨rfl, -, -⟩ := alone onlyP
      refine ready [] unaborted onlyP limit (fun other below isOther => absurd isOther
        (names other below)) noTokens said ?_ (noAck rfl unaborted)
      rw [if_pos first]
      rfl
    | chunking unaborted onlyP chunk limit names noTokens =>
      obtain ⟨rfl, -, -⟩ := alone onlyP
      refine ready _ unaborted onlyP limit names noTokens said ?_ (noAck rfl unaborted)
      rw [chunk]
      rfl
    | live _ seat _ => exact absurd seat.pending absent
    | closing seat _ _ _ => exact absurd seat.pending absent
    | past noPending _ _ _ => exact absurd noPending absent

theorem Ledger.ready_decode {batch : List Nat} {arrived : Option UserMsg}
    (running : ∀ name ∈ batch, name < s.nextReq ∧ (s.reqs name).canDecode = true ∧
      (s.reqs name).aborted = false ∧ (s.reqs name).tableIdx.isSome)
    (ledger : Ledger s uid aborts arrived) : Ready s uid aborts batch arrived := by
  have again := ledger
  obtain ⟨body, acks, stage, said, counted⟩ := ledger
  -- Beside a seated request that is not in the batch there are only chunks.
  have beside : ∀ {name limit : Nat} {tokens : List Token}, Seat s uid name limit tokens →
      name ∉ batch → ∀ other ∈ batch, (s.reqs other).uid = uid → (s.reqs other).chunked = true := by
    intro name limit tokens seat notBatch other mem isUid
    refine seat.others other (running other mem).1 isUid ?_
    rintro rfl
    exact notBatch mem
  cases stage with
  | unborn _ names _ _ | waiting _ _ _ _ names _ =>
    exact .aside again fun name mem isUid => absurd isUid (names name (running name mem).1)
  | chunking _ _ _ _ names _ =>
    exact .aside again fun name mem isUid => names name (running name mem).1 isUid
  | @live _ promptTokens name tokens unaborted seat _ =>
    by_cases mem : name ∈ batch
    · refine @Ready.seated _ _ _ _ _ promptTokens _ _ unaborted seat mem ?_ ?_
      · rw [said, replicate_zero, append_nil]
      · intro acked
        rw [if_pos acked] at counted
        omega
    · exact .aside again (beside seat mem)
  | @closing _ _ name _ seat _ _ full =>
    refine .aside again (beside seat fun mem => ?_)
    rw [(running name mem).2.1] at full
    cases full
  | past _ names _ _ =>
    refine .aside again fun name mem isUid => ?_
    obtain ⟨below, -, live, seated⟩ := running name mem
    rcases names name below isUid with chunked | aborted | freed
    · exact chunked
    · rw [live] at aborted; cases aborted
    · rw [freed] at seated; cases seated

theorem ongoing_eq (receiving : s.ongoing = none) : { s with ongoing := none } = s := by
  rw [← receiving]

/-- A launch keeps every ledger. -/
theorem LaunchedBatch.ledger {arrived : Option UserMsg} (control : Control s)
    (receiving : s.ongoing = none) (quiet : s.reply = [])
    (launched : LaunchedBatch cfg s nextTokens next) (ledger : Ledger s uid aborts arrived) :
    Ledger next uid aborts arrived := by
  cases launched with
  | idle mid scheduled =>
    cases scheduled with
    | other pass of run batch decode =>
      rw [ongoing_eq (s := s.afterPass pass s.pendingList) receiving]
      exact ledger.untouched (afterPass_untouched of rfl rfl)
  | batch mid prepared batch admissions scheduled prepare forwarded =>
    have chosen := scheduled.chosen control receiving
    let announced := mid.sendResult (admissions.map fun entry =>
      .promptAdmitted entry.1 entry.2.1 entry.2.2)
    have ready : Ready announced uid aborts batch.reqs arrived := by
      cases scheduled with
      | prefill taken rest pass _ split of _ =>
        exact afterPass_ready control receiving quiet of split ledger
      | other pass of run batch decode =>
        split at decode
        · cases decode
        · obtain ⟨rfl, rfl⟩ := Prod.mk.inj (Option.some.inj decode)
          have same := @afterPass_untouched _ uid [] s.pendingList _ of rfl rfl
          have passed := ledger.untouched same
          refine Ledger.ready_decode ?_ ?_
          · intro name mem
            have running := (mem_insertionSort _).mp mem
            have pre := control.running name running
            have old : pass.reqs name = s.reqs name := of.old name pre.1
            show name < pass.nextReq ∧ (pass.reqs name).canDecode = true ∧
              (pass.reqs name).aborted = false ∧ (pass.reqs name).tableIdx.isSome
            rw [old, of.nextReq]
            exact ⟨Nat.lt_add_right _ pre.1, pre.2⟩
          · have nothing : announced = s.afterPass pass s.pendingList := by
              show ({ s.afterPass pass s.pendingList with out := _ ++ [] } : Scheduler) = _
              rw [append_nil]
            rw [nothing]
            exact passed
    refine ready.forward chosen.distinct (fun name mem => (chosen.ready name mem).1)
      chosen.ongoing ?_
    exact { forwarded with out := by rw [append_nil]; exact forwarded.out }

end Scheduler

end FreeToken
