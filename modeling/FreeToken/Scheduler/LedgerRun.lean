/-
**The reply protocol of the scheduler.**
-/

import FreeToken.Scheduler.LedgerMessages
import FreeToken.Scheduler.LedgerLaunch
import FreeToken.Scheduler.LedgerDrain

namespace FreeToken

open List

variable {events : List Event} {maxRunningReqs : Nat} {cm : CacheManager}

namespace Scheduler

variable {cfg : SchedulerConfig} {s next : Scheduler} {uid aborts : Nat}

/-- The requests among the events of a run. -/
def arrivals (events : List Event) : List UserMsg :=
  events.filterMap fun event => match event with
    | .recv (.user msg) => some msg
    | _ => none

def arrivedAs (events : List Event) (uid : Nat) : Option UserMsg :=
  (arrivals events).find? fun msg => msg.uid = uid

/-- The aborts of a uid among the events of a run. -/
def abortsOf (events : List Event) (uid : Nat) : Nat :=
  events.countP fun event => match event with
    | .recv (.abort aborted) => aborted = uid
    | _ => false

theorem arrivals_append (first second : List Event) :
    arrivals (first ++ second) = arrivals first ++ arrivals second :=
  filterMap_append

theorem abortsOf_append (first second : List Event) (uid : Nat) :
    abortsOf (first ++ second) uid = abortsOf first uid + abortsOf second uid :=
  countP_append

theorem arrivedAs_snoc {event : Event} (silent : arrivals [event] = [])
    (uid : Nat) : arrivedAs (events ++ [event]) uid = arrivedAs events uid := by
  unfold arrivedAs
  rw [arrivals_append, silent, append_nil]

/-- No state of the run holds as many abort tombstones as are kept. -/
def Calm (cfg : SchedulerConfig) (start : Scheduler) (events : List Event) : Prop :=
  ∀ pre state, pre <+: events → Run cfg start pre state →
    state.abortTombstones.length < tombstoneCap

/-- The books: an abort waits for one acknowledgement, and every uid has a ledger. -/
structure Books (s : Scheduler) (events : List Event) : Prop where
  distinct : s.pendingAbortAcks.Nodup
  ledger : ∀ uid, Ledger s uid (abortsOf events uid) (arrivedAs events uid)

theorem books_new (cm : CacheManager) (maxRunningReqs : Nat) :
    Books (Scheduler.new cm maxRunningReqs) [] where
  distinct := nodup_nil
  ledger uid := by
    refine ⟨[], 0, .unborn rfl (fun name below => absurd below (Nat.not_lt_zero name)) rfl ?_, rfl,
      Nat.le_refl 0⟩
    exact iff_of_false not_mem_nil (Nat.lt_irrefl 0)

theorem AbortEffect.distinct (effect : AbortEffect s uid next) (nodup : s.pendingAbortAcks.Nodup) :
    next.pendingAbortAcks.Nodup := by
  rw [effect.acks]
  split
  · exact nodup
  · rename_i absent
    rw [nodup_append]
    refine ⟨nodup, nodup_singleton uid, ?_⟩
    intro other mem acked isAcked same
    rw [mem_singleton] at isAcked
    rw [same, isAcked] at mem
    exact absent mem

theorem Books.recv (books : Books s events) (control : Control s)
    (phase : Phase s) (todo : s.todo = none) (room : s.abortTombstones.length < tombstoneCap)
    {msg : Msg} (unique : ((arrivals (events ++ [.recv msg])).map UserMsg.uid).Nodup)
    (done : s.processOneMsg cfg msg = .ok next) : Books next (events ++ [.recv msg]) := by
  cases msg with
  | user msg =>
    cases done
    have acksSame : (s.processUser cfg msg).pendingAbortAcks = s.pendingAbortAcks := by
      unfold processUser
      dsimp only
      split
      · rfl
      · split
        · rfl
        · rfl
    refine ⟨by rw [acksSame]; exact books.distinct, fun uid => ?_⟩
    rw [abortsOf_append]
    have ledger := books.ledger uid
    unfold arrivedAs at ledger ⊢
    rw [arrivals_append] at unique ⊢
    rw [find?_append]
    by_cases isUid : msg.uid = uid
    · have notYet : (arrivals events).find? (fun msg => msg.uid = uid) = none := by
        refine find?_eq_none.mpr fun other mem same => ?_
        rw [map_append, nodup_append] at unique
        refine unique.2.2 _ (mem_map_of_mem mem) msg.uid ?_ ?_
        · exact mem_singleton_self _
        · rw [isUid]
          simpa using same
      rw [notYet] at ledger ⊢
      have here : (arrivals [.recv (.user msg)]).find? (fun msg => msg.uid = uid) = some msg :=
        find?_cons_of_pos (by simpa using isUid)
      rw [here]
      exact processUser_ledger isUid (phase.receiving todo).2 ledger
    · have absent : (arrivals [.recv (.user msg)]).find? (fun msg => msg.uid = uid) = none := by
        have skipped := find?_cons_of_neg (l := []) (p := fun msg : UserMsg =>
          decide (msg.uid = uid)) (a := msg) (by simpa using isUid)
        exact skipped
      rw [absent, Option.or_none]
      exact ledger.untouched (processUser_untouched isUid)
  | abort aborted =>
    have effect := processAbort_effect control done
    have pending := processAbort_pending done
    refine ⟨effect.distinct books.distinct, fun uid => ?_⟩
    rw [abortsOf_append, arrivedAs_snoc rfl]
    by_cases same : aborted = uid
    · subst same
      have one : abortsOf [.recv (.abort aborted)] aborted = 1 := by simp [abortsOf]
      rw [one]
      exact effect.ledger control (phase.receiving todo).1 pending room (books.ledger aborted)
    · have zero : abortsOf [.recv (.abort aborted)] uid = 0 := by simp [abortsOf, same]
      rw [zero]
      exact (books.ledger uid).untouched (effect.untouched pending room (Ne.symm same))

theorem Books.launch (books : Books s events) (control : Control s)
    (phase : Phase s) (todo : s.todo = none) {nextTokens : Nat → Token}
    (done : s.launch cfg nextTokens = .ok next) : Books next (events ++ [.launch nextTokens]) := by
  obtain ⟨receiving, quiet⟩ := phase.receiving todo
  obtain ⟨launched, ok, after⟩ := launch_ok done
  have batch := launchBatch_ok control receiving ok
  obtain ⟨-, todoSame, replySame, -, -, acksSame, -⟩ := batch.frame
  have ledger : ∀ uid, Ledger launched uid (abortsOf (events ++ [.launch nextTokens]) uid)
      (arrivedAs (events ++ [.launch nextTokens]) uid) := by
    intro uid
    rw [abortsOf_append, arrivedAs_snoc rfl]
    exact batch.ledger control receiving quiet (books.ledger uid)
  rcases after with ⟨nothing, rfl⟩ | ⟨data, some_, rfl⟩
  · refine ⟨nodup_nil, fun uid => ?_⟩
    refine (ledger uid).rotate ?_ rfl rfl rfl rfl rfl rfl rfl rfl (todoSame.trans todo) ?_
    · unfold queue
      rw [todoSame, todo, nothing]
      rfl
    · exact flush_said (acksSame ▸ books.distinct) (replySame.trans quiet) uid
  · refine ⟨show launched.pendingAbortAcks.Nodup from acksSame ▸ books.distinct, fun uid => ?_⟩
    have queueSame : queue { launched with
        cacheManager := launched.cacheManager.openLazyFreeRegion
        todo := some data.batch.reqs
        newFinished := []
        reply := [] } = launched.queue := by
      unfold queue
      rw [todoSame, todo, some_]
      rfl
    refine (ledger uid).untouched {
      pending := rfl
      older := le_refl _
      newer := fun name below new => absurd below (not_lt.mpr new)
      isUid := fun _ _ => rfl
      chunked := fun _ _ => rfl
      core := fun _ _ _ _ => rfl
      queue := fun _ _ _ _ => by rw [queueSame]
      inForward := fun _ _ _ _ => Iff.rfl
      undelivered := ?_
      said := ?_
      generated := rfl
      tomb := Iff.rfl
      acks := Iff.rfl }
    · intro name _ _ _
      unfold undelivered
      rw [queueSame]
      rfl
    · unfold saidTo
      rw [replySame.trans quiet]

theorem Books.drain (books : Books s events) (control : Control s)
    (phase : Phase s) (draining : s.todo.isSome) (done : s.drain cfg = .ok next) :
    Books next (events ++ [.drain]) := by
  have pre : ∀ uid, Ledger s uid (abortsOf (events ++ [.drain]) uid)
      (arrivedAs (events ++ [.drain]) uid) := by
    intro uid
    rw [abortsOf_append, arrivedAs_snoc rfl]
    exact books.ledger uid
  rcases drain_ok phase draining done with ⟨name, rest, data, todo, last, drained⟩ | ⟨todo, rfl⟩
  · refine ⟨?_, fun uid => drained.ledger control todo last (pre uid)⟩
    have same : next.pendingAbortAcks = s.pendingAbortAcks := by
      cases drained with
      | chunk _ _ => rfl
      | chunkFreed _ _ _ done => exact (freeReqResources_retired done).1.pendingAbortAcks
      | aborted _ _ _ done =>
        obtain ⟨retired, -⟩ := finishReq_retired done
        exact retired.pendingAbortAcks
      | skipped _ _ _ => rfl
      | delivered _ _ _ _ done =>
        obtain ⟨-, -, given, -, -, delivered⟩ := deliver_ok done
        cases delivered with
        | finished _ _ done =>
          obtain ⟨retired, -⟩ := finishReq_retired done
          exact retired.pendingAbortAcks
        | committed | kept => rfl
    rw [same]
    exact books.distinct
  · refine ⟨nodup_nil, fun uid => ?_⟩
    have drained : s.queue = [] := by
      unfold queue
      rw [todo]
    refine (pre uid).rotate drained rfl rfl rfl rfl rfl rfl rfl rfl rfl ?_
    let closed : Scheduler := { s with
      cacheManager := s.cacheManager.closeLazyFreeRegion
      finishedReqs := s.newFinished }
    let sent : Scheduler := { closed.sendResult (closed.reply.map (Reply.stamp closed.usage)) with
      reply := [] }
    have flushed := flush_said (s := sent) books.distinct rfl uid
    have told : sent.saidTo uid = s.saidTo uid := by
      show saidIn (s.out ++ s.reply.map _ ++ []) uid = saidIn (s.out ++ s.reply) uid
      rw [append_nil, saidIn_append, saidIn_stamp, saidIn_append]
    rw [told] at flushed
    exact flushed

/-- Every uid has a ledger in every state that is reached. -/
theorem ledger_run {events : List Event}
    (run : Run cfg (Scheduler.new cm maxRunningReqs) events s)
    (unique : ((arrivals events).map UserMsg.uid).Nodup)
    (calm : Calm cfg (Scheduler.new cm maxRunningReqs) events) : Books s events := by
  induction run with
  | nil => exact books_new cm maxRunningReqs
  | @snoc events s next event pre enabled step ih =>
    have books := ih (by
        rw [arrivals_append, map_append] at unique
        exact (nodup_append.mp unique).1)
      fun first state isPrefix => calm first state (isPrefix.trans (prefix_append _ _))
    obtain ⟨control, phase⟩ := control_run pre
    cases event with
    | recv msg =>
      have todo : s.todo = none := by simpa [Scheduler.enabled] using enabled
      exact books.recv control phase todo (calm events s (prefix_append _ _) pre) unique step
    | launch nextTokens =>
      have todo : s.todo = none := by simpa [Scheduler.enabled] using enabled
      exact books.launch control phase todo step
    | drain => exact books.drain control phase enabled step

/-! ### The protocol -/

def Holds (s : Scheduler) (uid : Nat) : Prop :=
  (∃ pending ∈ s.pendingList, pending.uid = uid) ∨ ∃ name, (s.reqs name).uid = uid ∧
      (name ∈ s.decodeManager.runningReqs ∨ name ∈ s.queue ∨ name ∈ s.inForward)

theorem Seat.holds {name limit : Nat} {tokens : List Token} (seat : Seat s uid name limit tokens)
    (control : Control s)
    (inTime : (s.reqs name).canDecode = true ∨ name ∈ s.queue ∨ name ∈ s.inForward) :
    s.Holds uid := by
  refine .inr ⟨name, seat.isUid, ?_⟩
  rcases inTime with decodes | queued | forward
  · exact .inl (control.decoding name seat.known decodes seat.live seat.seated nofun)
  · exact .inr (.inl queued)
  · exact .inr (.inr forward)

theorem holds_of_pending {p : PendingReq} (pending : s.pendingOf uid = [p]) : s.Holds uid := by
  have mem : p ∈ s.pendingOf uid := by
    rw [pending]
    exact mem_singleton_self p
  obtain ⟨inList, isUid⟩ := mem_filter.mp mem
  exact .inl ⟨p, inList, by simpa using isUid⟩

theorem Ledger.protocol {arrived : Option UserMsg} (ledger : Ledger s uid aborts arrived)
    (control : Control s) : ∃ body acks finished,
      s.saidTo uid = body ++ List.replicate acks .acked ∧ acks ≤ aborts ∧
      Transcript (s.generatedFor uid) (arrived.elim 0 fun msg => msg.samplingParams.maxTokens)
        finished body ∧
      (arrived.isSome → aborts = 0 → finished = false → s.Holds uid) := by
  obtain ⟨body, acks, stage, said, counted⟩ := ledger
  have fewer : acks ≤ aborts := by omega
  cases stage with
  | unborn _ _ _ _ => exact ⟨[], acks, false, said, fewer, .silent, fun absurd => nomatch absurd⟩
  | waiting _ pending _ _ _ _ =>
    exact ⟨[], 0, false, said, fewer, .silent, fun _ _ _ => holds_of_pending pending⟩
  | @chunking _ p _ _ pending _ _ _ _ =>
    exact ⟨_, 0, false, said, fewer, .unfinished p.inputLen [] nil_prefix (Nat.zero_le _),
      fun _ _ _ => holds_of_pending pending⟩
  | @live _ promptTokens name tokens _ seat inTime =>
    refine ⟨_, 0, false, said, fewer, .unfinished promptTokens tokens ?_ ?_, fun _ _ _ =>
      seat.holds control inTime⟩
    · rw [seat.order]
      exact prefix_append _ _
    · exact seat.tokens_le
  | @closing _ promptTokens name tokens seat queued _ _ =>
    refine ⟨_, 0, false, said, fewer, .unfinished promptTokens tokens ?_ ?_, fun _ _ _ =>
      seat.holds control (.inr (.inl queued))⟩
    · rw [seat.order]
      exact prefix_append _ _
    · exact seat.tokens_le
  | past _ _ script ended =>
    refine ⟨body, acks, _, said, fewer, script, fun _ unaborted open_ => ?_⟩
    rcases ended with finished | some_
    · rw [open_] at finished; cases finished
    · omega

/-- **The reply protocol.** In every state that is reached, what a uid was told is a transcript and
then acknowledgements, never more of them than aborts arrived: at most one admission, its tokens in
the order they were sampled and within its budget, the last one finishing it, or a rejection alone.
A request that nobody aborted is finished or still held. -/
theorem reply_protocol {events : List Event}
    (run : Run cfg (Scheduler.new cm maxRunningReqs) events s)
    (unique : ((arrivals events).map UserMsg.uid).Nodup)
    (calm : Calm cfg (Scheduler.new cm maxRunningReqs) events) (uid : Nat) :
    ∃ body acks finished, s.saidTo uid = body ++ List.replicate acks .acked ∧
      acks ≤ abortsOf events uid ∧
      Transcript (s.generatedFor uid)
        ((arrivedAs events uid).elim 0 fun msg => msg.samplingParams.maxTokens) finished body ∧
      ((arrivedAs events uid).isSome → abortsOf events uid = 0 → finished = false → s.Holds uid) :=
  ((ledger_run run unique calm).ledger uid).protocol (control_run run).1

/-! ### Runs on given events -/

def exec (cfg : SchedulerConfig) (s : Scheduler) : List Event → Option Scheduler
  | [] => some s
  | event :: events =>
      if s.enabled event then
        match s.step cfg event with
        | .ok next => exec cfg next events
        | .error _ => none
      else none

theorem run_of_exec {start : Scheduler} {pre events : List Event}
    (run : Run cfg start pre s) (done : exec cfg s events = some next) :
    Run cfg start (pre ++ events) next := by
  induction events generalizing s pre with
  | nil =>
    cases done
    rwa [append_nil]
  | cons event events ih =>
    unfold exec at done
    split at done
    · rename_i enabled
      split at done
      · rename_i mid step
        have longer := ih (Run.snoc run enabled step) done
        rwa [append_assoc] at longer
      · cases done
    · cases done

theorem entomb_length (tombstones : List Nat) (uid : Nat) :
    (entomb tombstones uid).length ≤ tombstones.length + 1 := by
  unfold entomb
  rw [length_drop]
  refine (Nat.sub_le _ _).trans ?_
  split
  · exact Nat.le_succ _
  · rw [length_append, length_singleton]

theorem step_tombstones (control : Control s) (phase : Phase s) {event : Event}
    (enabled : s.enabled event = true) (step : s.step cfg event = .ok next) :
    next.abortTombstones.length ≤ s.abortTombstones.length + 1 := by
  cases event with
  | recv msg =>
    cases msg with
    | user msg =>
      cases step
      unfold processUser
      dsimp only
      split
      · exact (length_filter_le _ _).trans (Nat.le_succ _)
      · split
        · exact Nat.le_succ _
        · exact Nat.le_succ _
    | abort uid =>
      rw [(processAbort_effect control step).tombstones]
      exact entomb_length _ uid
  | launch nextTokens =>
    have todo : s.todo = none := by simpa [Scheduler.enabled] using enabled
    obtain ⟨launched, ok, after⟩ := launch_ok step
    have same := (launchBatch_ok control (phase.receiving todo).1 ok).frame.2.2.2.2.2.2
    rcases after with ⟨-, rfl⟩ | ⟨data, -, rfl⟩
    · show launched.abortTombstones.length ≤ _
      rw [same]
      exact Nat.le_succ _
    · rw [same]
      exact Nat.le_succ _
  | drain =>
    rcases drain_ok phase enabled step with ⟨name, rest, data, todo, last, drained⟩ | ⟨todo, rfl⟩
    · have same : next.abortTombstones = s.abortTombstones := by
        cases drained with
        | chunk _ _ => rfl
        | chunkFreed _ _ _ done => exact (freeReqResources_retired done).1.abortTombstones
        | aborted _ _ _ done =>
          obtain ⟨retired, -⟩ := finishReq_retired done
          exact retired.abortTombstones
        | skipped _ _ _ => rfl
        | delivered _ _ _ _ done =>
          obtain ⟨-, -, given, -, -, delivered⟩ := deliver_ok done
          cases delivered with
          | finished _ _ done =>
            obtain ⟨retired, -⟩ := finishReq_retired done
            exact retired.abortTombstones
          | committed | kept => rfl
      rw [same]
      exact Nat.le_succ _
    · exact Nat.le_succ _

theorem calm_of_short {events : List Event}
    (short : events.length < tombstoneCap) : Calm cfg (Scheduler.new cm maxRunningReqs) events := by
  intro pre state isPrefix run
  have bounded : state.abortTombstones.length ≤ pre.length := by
    clear isPrefix
    induction run with
    | nil => exact le_refl 0
    | snoc prev enabled step ih =>
      obtain ⟨control, phase⟩ := control_run prev
      have more := step_tombstones control phase enabled step
      rw [length_append, length_singleton]
      omega
  have shorter := isPrefix.length_le
  omega

def plainCache : CacheManager := CacheManager.new 8 1 .naive (LinearStatePool.new 1) none 0

def plainConfig : SchedulerConfig where
  maxSeqLen := 8
  prefillBudget := 8
  eosTokenIds := [9]
  toolcallAnchorId := none
  decode := fun _ => []
  swaEvictionInterval := 1

def shortPrompt (uid : Nat) : UserMsg where
  uid := uid
  inputIds := [1, 2]
  samplingParams := ⟨false, 3, []⟩

def plainEvents : List Event :=
  [.recv (.user (shortPrompt 5)), .launch fun _ => 4, .launch fun _ => 9, .drain, .drain,
    .launch fun _ => 7, .drain, .drain]

/-- The request is told its admission and its two tokens, the end of text finishing it. -/
theorem reply_protocol_plain : ∃ s, Run plainConfig (Scheduler.new plainCache 2) plainEvents s ∧
    s.saidTo 5 = [.admitted 2, .token 4 false, .token 9 true] ∧
    ∃ body acks, s.saidTo 5 = body ++ List.replicate acks .acked ∧ acks ≤ 0 := by
  have run : Run plainConfig (Scheduler.new plainCache 2) plainEvents _ := run_of_exec Run.nil rfl
  obtain ⟨body, acks, _, said, fewer, -⟩ := reply_protocol run (by decide)
    (calm_of_short (by decide)) 5
  exact ⟨_, run, rfl, body, acks, said, fewer⟩

/-- A request is aborted, which is acknowledged, and aborted again: a second acknowledgement
follows the first. -/
theorem reply_after_ack : ∃ s later : Scheduler, Run plainConfig (Scheduler.new plainCache 2)
      [.recv (.user (shortPrompt 5)), .recv (.abort 5), .launch fun _ => 0] s ∧
    Run plainConfig (Scheduler.new plainCache 2)
      [.recv (.user (shortPrompt 5)), .recv (.abort 5), .launch fun _ => 0, .recv (.abort 5),
        .launch fun _ => 0] later ∧
    s.saidTo 5 = [.acked] ∧ later.saidTo 5 = [.acked, .acked] := by
  have first : Run plainConfig (Scheduler.new plainCache 2)
      [.recv (.user (shortPrompt 5)), .recv (.abort 5), .launch fun _ => 0] _ :=
    run_of_exec Run.nil rfl
  have second : Run plainConfig (Scheduler.new plainCache 2)
      [.recv (.user (shortPrompt 5)), .recv (.abort 5), .launch fun _ => 0, .recv (.abort 5),
        .launch fun _ => 0] _ := run_of_exec Run.nil rfl
  exact ⟨_, _, first, second, rfl, rfl⟩

end Scheduler

end FreeToken
