/-
**What one request has been told.**
-/

import FreeToken.Scheduler.ControlRun

namespace FreeToken

open List

/-- What a reply tells a client: its prompt was admitted, a token, and whether it is the last, that
the prompt is too long, or that the request was aborted. -/
inductive Said where
  | admitted (promptTokens : Nat)
  | token (token : Token) (last : Bool)
  | rejected
  | acked
  deriving DecidableEq, Repr

namespace Reply

def said : Reply → Said
  | promptAdmitted _ promptTokens _ => .admitted promptTokens
  | detokenize _ nextToken finished _ _ _ _ => .token nextToken finished
  | errorReply _ _ (some _) _ => .rejected
  | errorReply _ _ none _ => .acked

@[simp] theorem uid_stamp (usage : Usage) (reply : Reply) : (reply.stamp usage).uid = reply.uid := by
  cases reply with
  | promptAdmitted | detokenize | errorReply => rfl

@[simp] theorem said_stamp (usage : Usage) (reply : Reply) :
    (reply.stamp usage).said = reply.said := by
  cases reply with
  | promptAdmitted | detokenize | errorReply => rfl

end Reply

def saidIn (replies : List Reply) (uid : Nat) : List Said :=
  (replies.filter fun reply => reply.uid = uid).map Reply.said

theorem saidIn_append (first second : List Reply) (uid : Nat) :
    saidIn (first ++ second) uid = saidIn first uid ++ saidIn second uid := by
  unfold saidIn
  rw [filter_append, map_append]

theorem saidIn_stamp (usage : Usage) (replies : List Reply) (uid : Nat) :
    saidIn (replies.map (Reply.stamp usage)) uid = saidIn replies uid := by
  induction replies with
  | nil => rfl
  | cons reply replies ih =>
    unfold saidIn at ih ⊢
    rw [map_cons, filter_cons, filter_cons, Reply.uid_stamp]
    split
    · rw [map_cons, map_cons, Reply.said_stamp, ih]
    · exact ih

theorem saidIn_of_others {replies : List Reply} {uid : Nat}
    (others : ∀ reply ∈ replies, reply.uid ≠ uid) : saidIn replies uid = [] := by
  unfold saidIn
  rw [filter_eq_nil_iff.mpr fun reply mem => by simpa using others reply mem]
  rfl

/-- The replies of one request before any acknowledgement, and whether they end it: nothing, a
rejection, or its admission and then its tokens in the order they were sampled. -/
inductive Transcript (generated : List Token) (limit : Nat) : Bool → List Said → Prop
  | silent : Transcript generated limit false []
  | rejected : Transcript generated limit true [.rejected]
  | unfinished (promptTokens : Nat) (tokens : List Token) (order : tokens <+: generated)
      (room : tokens.length ≤ limit) :
      Transcript generated limit false (.admitted promptTokens :: tokens.map (.token · false))
  | finished (promptTokens : Nat) (tokens : List Token) (last : Token)
      (order : tokens ++ [last] <+: generated) (room : tokens.length + 1 ≤ limit) :
      Transcript generated limit true
        (.admitted promptTokens :: (tokens.map (.token · false) ++ [.token last true]))

namespace Scheduler

def saidTo (s : Scheduler) (uid : Nat) : List Said := saidIn (s.out ++ s.reply) uid

def generatedFor (s : Scheduler) (uid : Nat) : List Token :=
  (s.generated.filter fun entry => entry.1 = uid).map Prod.snd

def pendingOf (s : Scheduler) (uid : Nat) : List PendingReq :=
  s.pendingList.filter fun pending => pending.uid = uid

/-- The request object of a uid whose prompt is through: it is the only one that is given tokens. -/
structure Seat (s : Scheduler) (uid name limit : Nat) (tokens : List Token) : Prop where
  pending : s.pendingOf uid = []
  known : name < s.nextReq
  isUid : (s.reqs name).uid = uid
  whole : (s.reqs name).chunked = false
  live : (s.reqs name).aborted = false
  seated : (s.reqs name).tableIdx.isSome
  others : ∀ other < s.nextReq, (s.reqs other).uid = uid → other ≠ name →
    (s.reqs other).chunked = true
  order : s.generatedFor uid = tokens ++ s.undelivered name
  room : (s.reqs name).inputIds.length + (s.reqs name).outputLen =
    (s.reqs name).maxDeviceLen + tokens.length
  limit : (s.reqs name).outputLen ≤ limit
  fits : (s.reqs name).inputIds.length ≤ (s.reqs name).maxDeviceLen

theorem Seat.tokens_le {s : Scheduler} {uid name limit : Nat} {tokens : List Token}
    (seat : Seat s uid name limit tokens) : tokens.length ≤ limit := by
  have room := seat.room
  have below := seat.limit
  have fits := seat.fits
  omega

/-- Where the request of a uid is, after that many of its aborts arrived, with what it has been
told: it did not arrive yet, waits for its first chunk or for its next one, is given tokens, is given
its last one although an abort of it arrived, or is gone. -/
inductive Standing (s : Scheduler) (uid aborts : Nat) : Option UserMsg → List Said → Nat → Prop
  | unborn {acks : Nat} (pending : s.pendingOf uid = [])
      (names : ∀ name < s.nextReq, (s.reqs name).uid ≠ uid) (quiet : s.generatedFor uid = [])
      (tomb : uid ∈ s.abortTombstones ↔ 0 < aborts) : Standing s uid aborts none [] acks
  | waiting {msg : UserMsg} {p : PendingReq} (unaborted : aborts = 0)
      (pending : s.pendingOf uid = [p]) (first : p.chunkedReq = none)
      (limit : p.outputLen ≤ msg.samplingParams.maxTokens)
      (names : ∀ name < s.nextReq, (s.reqs name).uid ≠ uid) (quiet : s.generatedFor uid = []) :
      Standing s uid aborts (some msg) [] 0
  | chunking {msg : UserMsg} {p : PendingReq} {name : Nat} (unaborted : aborts = 0)
      (pending : s.pendingOf uid = [p]) (chunk : p.chunkedReq = some name)
      (limit : p.outputLen ≤ msg.samplingParams.maxTokens)
      (names : ∀ other < s.nextReq, (s.reqs other).uid = uid → (s.reqs other).chunked = true)
      (quiet : s.generatedFor uid = []) : Standing s uid aborts (some msg) [.admitted p.inputLen] 0
  | live {msg : UserMsg} {promptTokens name : Nat} {tokens : List Token} (unaborted : aborts = 0)
      (seat : Seat s uid name msg.samplingParams.maxTokens tokens)
      (inTime : (s.reqs name).canDecode = true ∨ name ∈ s.queue ∨ name ∈ s.inForward) :
      Standing s uid aborts (some msg) (.admitted promptTokens :: tokens.map (.token · false)) 0
  | closing {msg : UserMsg} {promptTokens name : Nat} {tokens : List Token}
      (seat : Seat s uid name msg.samplingParams.maxTokens tokens) (queued : name ∈ s.queue)
      (notForward : name ∉ s.inForward) (full : (s.reqs name).canDecode = false) :
      Standing s uid aborts (some msg) (.admitted promptTokens :: tokens.map (.token · false)) 0
  | past {msg : UserMsg} {body : List Said} {acks : Nat} {finished : Bool}
      (pending : s.pendingOf uid = [])
      (names : ∀ name < s.nextReq, (s.reqs name).uid = uid → (s.reqs name).chunked = true ∨
        (s.reqs name).aborted = true ∨ (s.reqs name).tableIdx = none)
      (script : Transcript (s.generatedFor uid) msg.samplingParams.maxTokens finished body)
      (ended : finished = true ∨ 0 < aborts) : Standing s uid aborts (some msg) body acks

/-- A stage and the acknowledgements that were sent, one for an abort at most. -/
def Ledger (s : Scheduler) (uid aborts : Nat) (arrived : Option UserMsg) : Prop :=
  ∃ body acks, Standing s uid aborts arrived body acks ∧
    s.saidTo uid = body ++ List.replicate acks .acked ∧
    acks + (if uid ∈ s.pendingAbortAcks then 1 else 0) ≤ aborts

/-- A change that leaves the requests of a uid and what they were told alone. The requests are the
same but for chunks, whose objects nobody gives a token. -/
structure Untouched (s next : Scheduler) (uid : Nat) : Prop where
  pending : next.pendingOf uid = s.pendingOf uid
  older : s.nextReq ≤ next.nextReq
  newer : ∀ name < next.nextReq, s.nextReq ≤ name → (next.reqs name).uid ≠ uid
  isUid : ∀ name < s.nextReq, (next.reqs name).uid = (s.reqs name).uid
  chunked : ∀ name < s.nextReq, (next.reqs name).chunked = (s.reqs name).chunked
  core : ∀ name < s.nextReq, (s.reqs name).uid = uid → (s.reqs name).chunked = false →
    (next.reqs name).core = (s.reqs name).core
  queue : ∀ name < s.nextReq, (s.reqs name).uid = uid → (s.reqs name).chunked = false →
    (name ∈ next.queue ↔ name ∈ s.queue)
  inForward : ∀ name < s.nextReq, (s.reqs name).uid = uid → (s.reqs name).chunked = false →
    (name ∈ next.inForward ↔ name ∈ s.inForward)
  undelivered : ∀ name < s.nextReq, (s.reqs name).uid = uid → (s.reqs name).chunked = false →
    next.undelivered name = s.undelivered name
  said : next.saidTo uid = s.saidTo uid
  generated : next.generatedFor uid = s.generatedFor uid
  tomb : uid ∈ next.abortTombstones ↔ uid ∈ s.abortTombstones
  acks : uid ∈ next.pendingAbortAcks ↔ uid ∈ s.pendingAbortAcks

variable {s mid next : Scheduler} {uid aborts : Nat}

theorem Untouched.trans (first : Untouched s mid uid) (second : Untouched mid next uid) :
    Untouched s next uid where
  pending := second.pending.trans first.pending
  older := first.older.trans second.older
  newer := by
    intro name below new
    rcases lt_or_ge name mid.nextReq with old | newer
    · rw [second.isUid name old]
      exact first.newer name old new
    · exact second.newer name below newer
  isUid name old := (second.isUid name (old.trans_le first.older)).trans (first.isUid name old)
  chunked name old := (second.chunked name (old.trans_le first.older)).trans (first.chunked name old)
  core name old isUid whole := (second.core name (old.trans_le first.older)
    ((first.isUid name old).trans isUid) ((first.chunked name old).trans whole)).trans
      (first.core name old isUid whole)
  queue name old isUid whole := (second.queue name (old.trans_le first.older)
    ((first.isUid name old).trans isUid) ((first.chunked name old).trans whole)).trans
      (first.queue name old isUid whole)
  inForward name old isUid whole := (second.inForward name (old.trans_le first.older)
    ((first.isUid name old).trans isUid) ((first.chunked name old).trans whole)).trans
      (first.inForward name old isUid whole)
  undelivered name old isUid whole := (second.undelivered name (old.trans_le first.older)
    ((first.isUid name old).trans isUid) ((first.chunked name old).trans whole)).trans
      (first.undelivered name old isUid whole)
  said := second.said.trans first.said
  generated := second.generated.trans first.generated
  tomb := second.tomb.trans first.tomb
  acks := second.acks.trans first.acks

theorem Seat.untouched {name limit : Nat} {tokens : List Token}
    (seat : Seat s uid name limit tokens) (same : Untouched s next uid) :
    Seat next uid name limit tokens := by
  have core := same.core name seat.known seat.isUid seat.whole
  constructor
  case pending => exact same.pending.trans seat.pending
  case known => exact seat.known.trans_le same.older
  case isUid => exact (same.isUid name seat.known).trans seat.isUid
  case whole => exact (same.chunked name seat.known).trans seat.whole
  case live => exact (Req.aborted_of_core core).trans seat.live
  case seated => rw [Req.tableIdx_of_core core]; exact seat.seated
  case others =>
    intro other below isUid ne
    rcases lt_or_ge other s.nextReq with old | new
    · rw [same.chunked other old]
      rw [same.isUid other old] at isUid
      exact seat.others other old isUid ne
    · exact absurd isUid (same.newer other below new)
  case order =>
    rw [same.generated, same.undelivered name seat.known seat.isUid seat.whole]
    exact seat.order
  case room =>
    rw [Req.inputIds_of_core core, Req.outputLen_of_core core, Req.maxDeviceLen_of_core core]
    exact seat.room
  case limit => rw [Req.outputLen_of_core core]; exact seat.limit
  case fits =>
    rw [Req.inputIds_of_core core, Req.maxDeviceLen_of_core core]
    exact seat.fits

theorem Standing.untouched {arrived : Option UserMsg} {body : List Said} {acks : Nat}
    (stage : Standing s uid aborts arrived body acks) (same : Untouched s next uid) :
    Standing next uid aborts arrived body acks := by
  have noNames : (∀ name < s.nextReq, (s.reqs name).uid ≠ uid) →
      ∀ name < next.nextReq, (next.reqs name).uid ≠ uid := by
    intro names name below
    rcases lt_or_ge name s.nextReq with old | new
    · rw [same.isUid name old]; exact names name old
    · exact same.newer name below new
  cases stage with
  | unborn pending names quiet tomb =>
    exact .unborn (same.pending.trans pending) (noNames names) (same.generated.trans quiet)
      (same.tomb.trans tomb)
  | waiting unaborted pending first limit names quiet =>
    exact .waiting unaborted (same.pending.trans pending) first limit (noNames names)
      (same.generated.trans quiet)
  | chunking unaborted pending chunk limit names quiet =>
    refine .chunking unaborted (same.pending.trans pending) chunk limit ?_
      (same.generated.trans quiet)
    intro other below isUid
    rcases lt_or_ge other s.nextReq with old | new
    · rw [same.chunked other old]
      rw [same.isUid other old] at isUid
      exact names other old isUid
    · exact absurd isUid (same.newer other below new)
  | live unaborted seat inTime =>
    refine .live unaborted (seat.untouched same) ?_
    rw [Req.canDecode_of_core (same.core _ seat.known seat.isUid seat.whole),
      same.queue _ seat.known seat.isUid seat.whole,
      same.inForward _ seat.known seat.isUid seat.whole]
    exact inTime
  | closing seat queued notForward full =>
    refine .closing (seat.untouched same) ?_ ?_ ?_
    · exact (same.queue _ seat.known seat.isUid seat.whole).mpr queued
    · rw [same.inForward _ seat.known seat.isUid seat.whole]; exact notForward
    · rw [Req.canDecode_of_core (same.core _ seat.known seat.isUid seat.whole)]; exact full
  | past pending names script ended =>
    refine .past (same.pending.trans pending) ?_ (by rw [same.generated]; exact script) ended
    intro name below isUid
    rcases lt_or_ge name s.nextReq with old | new
    · rw [same.isUid name old] at isUid
      rw [same.chunked name old]
      cases whole : (s.reqs name).chunked with
      | true => exact .inl rfl
      | false =>
        have core := same.core name old isUid whole
        rw [Req.aborted_of_core core, Req.tableIdx_of_core core]
        rcases names name old isUid with chunked | rest
        · rw [whole] at chunked; cases chunked
        · exact .inr rest
    · exact absurd isUid (same.newer name below new)

theorem Ledger.untouched {arrived : Option UserMsg} (ledger : Ledger s uid aborts arrived)
    (same : Untouched s next uid) : Ledger next uid aborts arrived := by
  obtain ⟨body, acks, stage, said, counted⟩ := ledger
  refine ⟨body, acks, stage.untouched same, same.said.trans said, ?_⟩
  simpa only [same.acks] using counted

theorem Untouched.of_frame (nextReq : next.nextReq = s.nextReq)
    (isUid : ∀ name < s.nextReq, (next.reqs name).uid = (s.reqs name).uid)
    (chunked : ∀ name < s.nextReq, (next.reqs name).chunked = (s.reqs name).chunked)
    (core : ∀ name < s.nextReq, (s.reqs name).uid = uid → (s.reqs name).chunked = false →
      (next.reqs name).core = (s.reqs name).core)
    (last : next.lastData = s.lastData) (ongoing : next.ongoing = s.ongoing)
    (todo : next.todo = s.todo) (pending : next.pendingOf uid = s.pendingOf uid)
    (said : next.saidTo uid = s.saidTo uid) (generated : next.generated = s.generated)
    (tomb : uid ∈ next.abortTombstones ↔ uid ∈ s.abortTombstones)
    (acks : uid ∈ next.pendingAbortAcks ↔ uid ∈ s.pendingAbortAcks) : Untouched s next uid := by
  obtain ⟨queueSame, forwardSame, undeliveredSame⟩ := undelivered_congr last ongoing todo
  exact {
    pending := pending
    older := nextReq.ge
    newer := fun name below new => absurd below (by rw [nextReq]; omega)
    isUid := isUid
    chunked := chunked
    core := core
    queue := fun _ _ _ _ => by rw [queueSame]
    inForward := fun _ _ _ _ => by rw [forwardSame]
    undelivered := fun name _ _ _ => undeliveredSame name
    said := said
    generated := by unfold generatedFor; rw [generated]
    tomb := tomb
    acks := acks }

end Scheduler

end FreeToken
