/-
**The accounting over a run of the server.**

* `follows`: the replies to one request stay in the order they were sent, through every turn of the
  detokenizer.
-/

import Mathlib.Algebra.BigOperators.Group.Finset.Piecewise
import Mathlib.Algebra.Order.BigOperators.Group.Finset
import FreeToken.Scheduler.LedgerRun
import FreeToken.Server.TokenizeWorker

namespace FreeToken

open List Function

/-! ### What the accounting reads of a reply -/

/-- The request of a reply, whether it is the last one, and the tokens that it brings. -/
structure Mark where
  uid : Nat
  finished : Bool
  prompt : Nat
  completion : Nat
  deriving DecidableEq

def Mark.Quiet (mark : Mark) : Prop := mark.prompt = 0 ∧ mark.completion = 0

def Mark.end (uid : Nat) : Mark := ⟨uid, true, 0, 0⟩

theorem Mark.quiet_end (uid : Nat) : (Mark.end uid).Quiet := ⟨rfl, rfl⟩

def Mark.rank (mark : Mark) : Nat :=
  if mark.completion = 0 then (if mark.finished then 2 else 0) else 1

/-- What can be said of a request after what: nothing comes back to an earlier turn, and no token
follows an end. -/
def Mark.Before (first second : Mark) : Prop :=
  first.rank ≤ second.rank ∧ (first.finished = true → second.Quiet)

def UserReply.mark (reply : UserReply) : Mark :=
  ⟨reply.uid, reply.finished, reply.promptTokensDelta, reply.completionTokensDelta⟩

def Said.mark (uid : Nat) : Said → Mark
  | .admitted promptTokens => ⟨uid, false, promptTokens, 0⟩
  | .token _ last => ⟨uid, last, 0, 1⟩
  | .rejected | .acked => Mark.end uid

def Reply.mark (reply : Reply) : Mark := reply.said.mark reply.uid

@[simp] theorem Said.mark_uid (uid : Nat) (said : Said) : (said.mark uid).uid = uid := by
  cases said <;> rfl

@[simp] theorem Reply.mark_uid (reply : Reply) : reply.mark.uid = reply.uid := Said.mark_uid _ _

theorem filter_marks (replies : List Reply) (uid : Nat) :
    (replies.map Reply.mark).filter (fun mark => mark.uid = uid) =
      (replies.filter fun reply => reply.uid = uid).map Reply.mark := by
  rw [filter_map]
  congr 1
  refine filter_congr fun reply _ => ?_
  rw [comp_apply, Reply.mark_uid]

theorem sum_of_uids (value : Mark → Nat) {first second : List Mark}
    (same : ∀ uid, ((first.filter fun mark => mark.uid = uid).map value).sum =
      ((second.filter fun mark => mark.uid = uid).map value).sum) :
    (first.map value).sum = (second.map value).sum := by
  have split : ∀ (marks : List Mark) (uids : Finset Nat), (∀ mark ∈ marks, mark.uid ∈ uids) →
      (marks.map value).sum =
        uids.sum fun uid => ((marks.filter fun mark => mark.uid = uid).map value).sum := by
    intro marks uids
    induction marks with
    | nil => intro _; simp
    | cons mark marks ih =>
      intro inside
      have rest := ih fun other mem => inside other (mem_cons_of_mem _ mem)
      have each : ∀ uid, (((mark :: marks).filter fun mark => mark.uid = uid).map value).sum =
          (if mark.uid = uid then value mark else 0) +
            ((marks.filter fun mark => mark.uid = uid).map value).sum := by
        intro uid
        by_cases same : mark.uid = uid
        · simp [same]
        · simp [same]
      rw [map_cons, sum_cons, rest, Finset.sum_congr rfl fun uid _ => each uid,
        Finset.sum_add_distrib, Finset.sum_ite_eq, if_pos (inside mark mem_cons_self)]
  let uids := (first ++ second).map Mark.uid |>.toFinset
  have covers : ∀ mark ∈ first ++ second, mark.uid ∈ uids := fun mark mem =>
    mem_toFinset.mpr (mem_map_of_mem mem)
  rw [split first uids fun mark mem => covers mark (mem_append_left _ mem),
    split second uids fun mark mem => covers mark (mem_append_right _ mem)]
  exact Finset.sum_congr rfl fun uid _ => same uid

/-! ### The tracker and the replies that were heard -/

def Ended (heard : List UserReply) (uid : Nat) : Prop :=
  ∃ reply ∈ heard, reply.uid = uid ∧ reply.finished = true

instance (heard : List UserReply) (uid : Nat) : Decidable (Ended heard uid) :=
  inferInstanceAs (Decidable (∃ reply ∈ heard, reply.uid = uid ∧ reply.finished = true))

/-- **The tracker's sums and sets are those of the replies that were heard**: `n` requests were
admitted, and `aborted` were aborted in flight. -/
structure Counted (n : Nat) (aborted : List Nat) (heard : List UserReply) (stats : StatsTracker) :
    Prop where
  prompt : stats.promptTokensTotal = (heard.map UserReply.promptTokensDelta).sum
  completion : stats.completionTokensTotal = (heard.map UserReply.completionTokensDelta).sum
  distinct : stats.inflight.Nodup
  inflight : ∀ uid, uid ∈ stats.inflight ↔ uid < n ∧ ¬Ended heard uid
  abortingDistinct : stats.aborting.Nodup
  aborting : ∀ uid, uid ∈ stats.aborting ↔ uid ∈ stats.inflight ∧ uid ∈ aborted
  known : ∀ uid ∈ aborted, uid < n
  completed : stats.completed =
    ((Finset.range n).filter fun uid => Ended heard uid ∧ uid ∉ aborted).card

namespace Counted

variable {n : Nat} {aborted : List Nat} {heard : List UserReply} {stats : StatsTracker}

theorem initial : Counted 0 [] [] {} where
  prompt := rfl
  completion := rfl
  distinct := nodup_nil
  inflight := fun uid => iff_of_false not_mem_nil fun below => Nat.not_lt_zero uid below.1
  abortingDistinct := nodup_nil
  aborting := fun _ => iff_of_false not_mem_nil fun both => not_mem_nil both.1
  known := nofun
  completed := rfl

theorem newUser (counted : Counted n aborted heard stats) (fresh : ∀ reply ∈ heard, reply.uid < n) :
    Counted (n + 1) aborted heard (stats.onNewUser n) := by
  have silent : ¬Ended heard n := fun ⟨reply, mem, isUid, _⟩ => absurd (fresh reply mem) (by omega)
  have absent : n ∉ stats.aborting := fun mem =>
    absurd ((counted.inflight n).mp ((counted.aborting n).mp mem).1).1 (lt_irrefl n)
  unfold StatsTracker.onNewUser
  constructor
  case prompt => exact counted.prompt
  case completion => exact counted.completion
  case distinct => exact counted.distinct.insert
  case inflight =>
    intro uid
    rw [mem_insert_iff, counted.inflight uid]
    constructor
    · rintro (rfl | ⟨below, live⟩)
      · exact ⟨Nat.lt_succ_self uid, silent⟩
      · exact ⟨Nat.lt_succ_of_lt below, live⟩
    · rintro ⟨below, live⟩
      rcases Nat.lt_succ_iff_lt_or_eq.mp below with below | same
      · exact .inr ⟨below, live⟩
      · exact .inl same
  case abortingDistinct => exact counted.abortingDistinct.erase n
  case aborting =>
    intro uid
    dsimp only
    rw [erase_of_not_mem absent, counted.aborting uid, mem_insert_iff]
    constructor
    · exact fun ⟨live, marked⟩ => ⟨.inr live, marked⟩
    · rintro ⟨rfl | live, marked⟩
      · exact absurd (counted.known uid marked) (lt_irrefl uid)
      · exact ⟨live, marked⟩
  case known => exact fun uid marked => Nat.lt_succ_of_lt (counted.known uid marked)
  case completed =>
    dsimp only
    rw [counted.completed, Finset.range_add_one, Finset.filter_insert,
      if_neg fun both => silent both.1]

theorem abort (counted : Counted n aborted heard stats) (uid : Nat) :
    Counted n (aborted ++ [uid].filter (· ∈ stats.inflight)) heard (stats.onAbort uid) := by
  unfold StatsTracker.onAbort
  by_cases live : uid ∈ stats.inflight
  · have marked : [uid].filter (· ∈ stats.inflight) = [uid] :=
      filter_cons_of_pos (decide_eq_true live)
    rw [if_pos live, marked]
    have notEnded := ((counted.inflight uid).mp live).2
    constructor
    case prompt => exact counted.prompt
    case completion => exact counted.completion
    case distinct => exact counted.distinct
    case inflight => exact counted.inflight
    case abortingDistinct => exact counted.abortingDistinct.insert
    case aborting =>
      intro other
      rw [mem_insert_iff, counted.aborting other, mem_append, mem_singleton]
      constructor
      · rintro (rfl | ⟨inFlight, marked⟩)
        · exact ⟨live, .inr rfl⟩
        · exact ⟨inFlight, .inl marked⟩
      · rintro ⟨inFlight, marked | rfl⟩
        · exact .inr ⟨inFlight, marked⟩
        · exact .inl rfl
    case known =>
      intro other marked
      rcases mem_append.mp marked with marked | same
      · exact counted.known other marked
      · rw [mem_singleton.mp same]
        exact ((counted.inflight uid).mp live).1
    case completed =>
      refine counted.completed.trans (congrArg Finset.card ?_)
      refine Finset.filter_congr fun other _ => and_congr_right fun ended => ?_
      rw [mem_append, mem_singleton, not_or]
      exact ⟨fun unmarked => ⟨unmarked, fun same => notEnded (same ▸ ended)⟩, fun both => both.1⟩
  · have unmarked : [uid].filter (· ∈ stats.inflight) = [] :=
      filter_cons_of_neg (by simpa using live)
    rw [if_neg live, unmarked, append_nil]
    exact counted

theorem ended_snoc {reply : UserReply} {uid : Nat} : Ended (heard ++ [reply]) uid ↔
    Ended heard uid ∨ reply.uid = uid ∧ reply.finished = true := by
  unfold Ended
  constructor
  · rintro ⟨other, mem, holds⟩
    rcases mem_append.mp mem with mem | same
    · exact .inl ⟨other, mem, holds⟩
    · rw [mem_singleton.mp same] at holds
      exact .inr holds
  · rintro (⟨other, mem, holds⟩ | holds)
    · exact ⟨other, mem_append_left _ mem, holds⟩
    · exact ⟨reply, mem_append_right _ (mem_singleton_self _), holds⟩

theorem counts (stats : StatsTracker) (reply : UserReply) :
    let counted := (stats.countTokens reply).recordUsage reply
    counted.inflight = stats.inflight ∧ counted.aborting = stats.aborting ∧
      counted.completed = stats.completed ∧
      counted.promptTokensTotal = stats.promptTokensTotal + reply.promptTokensDelta ∧
      counted.completionTokensTotal = stats.completionTokensTotal + reply.completionTokensDelta := by
  unfold StatsTracker.recordUsage StatsTracker.countTokens
  dsimp only
  split <;> split <;> split <;> split <;> exact ⟨rfl, rfl, rfl, rfl, rfl⟩

/-- **A reply is heard.** -/
theorem observe (counted : Counted n aborted heard stats) {reply : UserReply}
    (known : reply.uid < n) : Counted n aborted (heard ++ [reply]) (stats.observe reply) := by
  obtain ⟨inflight, aborting, completed, prompt, completion⟩ := counts stats reply
  unfold StatsTracker.observe
  generalize (stats.countTokens reply).recordUsage reply = noted
    at inflight aborting completed prompt completion ⊢
  have promptNow : noted.promptTokensTotal =
      ((heard ++ [reply]).map UserReply.promptTokensDelta).sum := by
    rw [prompt, counted.prompt, map_append, sum_append]
    rfl
  have completionNow : noted.completionTokensTotal =
      ((heard ++ [reply]).map UserReply.completionTokensDelta).sum := by
    rw [completion, counted.completion, map_append, sum_append]
    rfl
  -- a reply that ends nothing leaves the sets alone
  have unchanged : (∀ uid, Ended (heard ++ [reply]) uid ↔ Ended heard uid) →
      Counted n aborted (heard ++ [reply]) noted := by
    intro same
    constructor
    case prompt => exact promptNow
    case completion => exact completionNow
    case distinct => exact inflight ▸ counted.distinct
    case inflight =>
      intro uid
      rw [inflight, same uid]
      exact counted.inflight uid
    case abortingDistinct => exact aborting ▸ counted.abortingDistinct
    case aborting =>
      intro uid
      rw [aborting, inflight]
      exact counted.aborting uid
    case known => exact counted.known
    case completed =>
      rw [completed, counted.completed]
      exact congrArg Finset.card (Finset.filter_congr fun uid _ => and_congr_left fun _ =>
        (same uid).symm)
  split
  · next finished =>
    unfold StatsTracker.countTerminal
    dsimp only
    rw [inflight, aborting]
    split
    · next live =>
      have notEnded := ((counted.inflight reply.uid).mp live).2
      have inflightNow : ∀ uid, uid ∈ stats.inflight.erase reply.uid ↔
          uid < n ∧ ¬Ended (heard ++ [reply]) uid := by
        intro uid
        rw [counted.distinct.mem_erase_iff, counted.inflight uid, ended_snoc]
        constructor
        · rintro ⟨other, below, open_⟩
          exact ⟨below, fun ended => ended.elim open_ fun same => other same.1.symm⟩
        · rintro ⟨below, open_⟩
          exact ⟨fun same => open_ (.inr ⟨same.symm, finished⟩), below, fun ended =>
            open_ (.inl ended)⟩
      split
      · next marked =>
        have isAborted := ((counted.aborting reply.uid).mp marked).2
        constructor
        case prompt => exact promptNow
        case completion => exact completionNow
        case distinct => exact counted.distinct.erase _
        case inflight => exact inflightNow
        case abortingDistinct => exact counted.abortingDistinct.erase _
        case aborting =>
          intro uid
          dsimp only
          rw [counted.abortingDistinct.mem_erase_iff, counted.distinct.mem_erase_iff,
            counted.aborting uid, and_assoc]
        case known => exact counted.known
        case completed =>
          dsimp only
          rw [completed, counted.completed]
          refine congrArg Finset.card (Finset.filter_congr fun uid _ => and_congr_left ?_)
          intro unmarked
          rw [ended_snoc]
          exact ⟨.inl, fun ended => ended.elim id fun same => absurd (same.1 ▸ isAborted) unmarked⟩
      · next unmarked =>
        have notAborted : reply.uid ∉ aborted := fun isAborted =>
          unmarked ((counted.aborting reply.uid).mpr ⟨live, isAborted⟩)
        constructor
        case prompt => exact promptNow
        case completion => exact completionNow
        case distinct => exact counted.distinct.erase _
        case inflight => exact inflightNow
        case abortingDistinct => exact counted.abortingDistinct
        case aborting =>
          intro uid
          dsimp only
          rw [counted.aborting uid, counted.distinct.mem_erase_iff]
          exact ⟨fun ⟨inFlight, marked⟩ => ⟨⟨fun same => notAborted (same ▸ marked), inFlight⟩,
            marked⟩, fun ⟨both, marked⟩ => ⟨both.2, marked⟩⟩
        case known => exact counted.known
        case completed =>
          dsimp only
          have grown : ((Finset.range n).filter fun uid =>
              Ended (heard ++ [reply]) uid ∧ uid ∉ aborted) =
              insert reply.uid ((Finset.range n).filter fun uid =>
                Ended heard uid ∧ uid ∉ aborted) := by
            ext uid
            rw [Finset.mem_insert, Finset.mem_filter, Finset.mem_filter, Finset.mem_range, ended_snoc]
            constructor
            · rintro ⟨below, ended | same, unaborted⟩
              · exact .inr ⟨below, ended, unaborted⟩
              · exact .inl same.1.symm
            · rintro (rfl | ⟨below, ended, unaborted⟩)
              · exact ⟨known, .inr ⟨rfl, finished⟩, notAborted⟩
              · exact ⟨below, .inl ended, unaborted⟩
          rw [grown, Finset.card_insert_of_notMem, completed, counted.completed]
          rw [Finset.mem_filter]
          exact fun mem => notEnded mem.2.1
    · next gone =>
      refine unchanged fun uid => ended_snoc.trans (or_iff_left_of_imp ?_)
      rintro ⟨rfl, -⟩
      by_contra open_
      exact gone ((counted.inflight reply.uid).mpr ⟨known, open_⟩)
  · next unfinished =>
    exact unchanged fun uid => ended_snoc.trans (or_iff_left fun ended => unfinished ended.2)

theorem observeAll (counted : Counted n aborted heard stats) (replies : List UserReply)
    (known : ∀ reply ∈ replies, reply.uid < n) :
    Counted n aborted (heard ++ replies) (replies.foldl StatsTracker.observe stats) := by
  induction replies generalizing heard stats with
  | nil =>
    rw [append_nil]
    exact counted
  | cons reply replies ih =>
    have first := counted.observe (known reply mem_cons_self)
    have rest := ih first fun other mem => known other (mem_cons_of_mem _ mem)
    rwa [append_assoc] at rest

end Counted

/-! ### The replies of the scheduler -/

namespace Said

theorem before_transcript {generated : List Token} {limit acks : Nat} {finished : Bool}
    {body : List Said} (script : Transcript generated limit finished body) (uid : Nat) :
    ((body ++ List.replicate acks Said.acked).map (Said.mark uid)).Pairwise Mark.Before := by
  have closes : ∀ said : Said, Mark.Before (said.mark uid) (Said.acked.mark uid) := fun said =>
    ⟨by cases said with
      | token => exact Nat.le_succ 1
      | admitted => exact Nat.zero_le _
      | rejected | acked => exact Nat.le_refl _, fun _ => ⟨rfl, rfl⟩⟩
  have acked : (replicate acks Said.acked).Pairwise fun first second =>
      Mark.Before (first.mark uid) (second.mark uid) :=
    pairwise_replicate.mpr (.inr (closes _))
  have streams : ∀ tokens : List Token, (tokens.map (Said.token · false)).Pairwise
      fun first second => Mark.Before (first.mark uid) (second.mark uid) := fun _ =>
    pairwise_map.mpr (pairwise_of_forall fun _ _ => ⟨Nat.le_refl _, nofun⟩)
  rw [pairwise_map, pairwise_append]
  refine ⟨?_, acked, fun said _ other mem => ?_⟩
  · cases script with
    | silent => exact List.Pairwise.nil
    | rejected => exact pairwise_singleton _ _
    | unfinished promptTokens tokens =>
      exact pairwise_cons.mpr ⟨fun said _ => ⟨Nat.zero_le _, nofun⟩, streams tokens⟩
    | finished promptTokens tokens last =>
      refine pairwise_cons.mpr ⟨fun said _ => ⟨Nat.zero_le _, nofun⟩, ?_⟩
      rw [pairwise_append]
      refine ⟨streams tokens, pairwise_singleton _ _, fun said mem other isLast => ?_⟩
      obtain ⟨token, -, rfl⟩ := mem_map.mp mem
      rw [mem_singleton.mp isLast]
      exact ⟨Nat.le_refl _, nofun⟩
  · rw [eq_of_mem_replicate mem]
    exact closes said

end Said

section Scheduler

open Scheduler

variable {cfg : SchedulerConfig} {s next : Scheduler} {cm : CacheManager} {maxRunningReqs : Nat}
  {events : List Scheduler.Event}

theorem before_out (run : Run cfg (Scheduler.new cm maxRunningReqs) events s)
    (unique : ((arrivals events).map UserMsg.uid).Nodup)
    (calm : Calm cfg (Scheduler.new cm maxRunningReqs) events) (uid : Nat) :
    ((s.out.map Reply.mark).filter fun mark => mark.uid = uid).Pairwise Mark.Before := by
  obtain ⟨body, acks, finished, said, -, script, -⟩ := reply_protocol run unique calm uid
  have whole : ((saidIn s.out uid ++ saidIn s.reply uid).map (Said.mark uid)).Pairwise
      Mark.Before := by
    rw [← saidIn_append]
    unfold saidTo at said
    rw [said]
    exact Said.before_transcript script uid
  rw [map_append] at whole
  have marks : (saidIn s.out uid).map (Said.mark uid) =
      (s.out.filter fun reply => reply.uid = uid).map Reply.mark := by
    unfold saidIn
    rw [map_map]
    refine map_congr_left fun reply mem => ?_
    have isUid : reply.uid = uid := of_decide_eq_true (mem_filter.mp mem).2
    rw [← isUid]
    rfl
  rw [filter_marks, ← marks]
  exact (pairwise_append.mp whole).1

theorem out_unarrived (run : Run cfg (Scheduler.new cm maxRunningReqs) events s)
    (unique : ((arrivals events).map UserMsg.uid).Nodup)
    (calm : Calm cfg (Scheduler.new cm maxRunningReqs) events) {reply : Reply}
    (sent : reply ∈ s.out) (absent : arrivedAs events reply.uid = none) :
    reply.mark = Mark.end reply.uid ∧ 0 < abortsOf events reply.uid := by
  obtain ⟨body, acks, stage, said, fewer⟩ := (ledger_run run unique calm).ledger reply.uid
  rw [absent] at stage
  cases stage with
  | unborn =>
    have told : reply.said ∈ s.saidTo reply.uid := by
      unfold saidTo
      rw [saidIn_append]
      refine mem_append_left _ (mem_map_of_mem (mem_filter.mpr ⟨sent, ?_⟩))
      exact decide_eq_true rfl
    rw [said, nil_append] at told
    refine ⟨?_, ?_⟩
    · unfold Reply.mark
      rw [eq_of_mem_replicate told]
      rfl
    · have := length_pos_of_mem told
      rw [length_replicate] at this
      omega

theorem step_out (control : Control s) (phase : Scheduler.Phase s) {event : Scheduler.Event}
    (enabled : s.enabled event = true) (step : s.step cfg event = .ok next) :
    ∃ more, next.out = s.out ++ more := by
  cases event with
  | recv msg =>
    cases msg with
    | user msg =>
      cases step
      unfold processUser
      dsimp only
      split
      · exact ⟨[], (append_nil _).symm⟩
      · split
        · exact ⟨_, rfl⟩
        · exact ⟨[], (append_nil _).symm⟩
    | abort uid =>
      rw [(processAbort_effect control step).out]
      exact ⟨[], (append_nil _).symm⟩
  | launch nextTokens =>
    have todo : s.todo = none := by simpa [Scheduler.enabled] using enabled
    obtain ⟨launched, ok, after⟩ := launch_ok step
    have batch : ∃ more, launched.out = s.out ++ more := by
      cases launchBatch_ok control (phase.receiving todo).1 ok with
      | idle mid scheduled =>
        cases scheduled with
        | other => exact ⟨[], (append_nil _).symm⟩
      | batch mid prepared batch admissions scheduled _ forwarded =>
        have same : mid.out = s.out := by cases scheduled <;> rfl
        exact ⟨_, forwarded.out.trans (congrArg (· ++ _) same)⟩
    obtain ⟨more, sent⟩ := batch
    rcases after with ⟨-, rfl⟩ | ⟨data, -, rfl⟩
    · obtain ⟨acks, flushed⟩ : ∃ acks, launched.flushAbortAcks.out = launched.out ++ acks :=
        ⟨_, rfl⟩
      exact ⟨more ++ acks, by rw [← append_assoc, ← sent]; exact flushed⟩
    · exact ⟨more, sent⟩
  | drain =>
    rcases drain_ok phase enabled step with ⟨name, rest, data, todo, last, drained⟩ | ⟨todo, rfl⟩
    · have same : next.out = s.out := by
        cases drained with
        | chunk _ _ => rfl
        | chunkFreed _ _ _ done => exact (freeReqResources_retired done).1.out
        | aborted _ _ _ done =>
          obtain ⟨retired, -⟩ := finishReq_retired done
          exact retired.out
        | skipped _ _ _ => rfl
        | delivered _ _ _ _ done =>
          obtain ⟨-, -, given, -, -, delivered⟩ := deliver_ok done
          cases delivered with
          | finished _ _ done =>
            obtain ⟨retired, -⟩ := finishReq_retired done
            exact retired.out
          | committed | kept => rfl
      exact ⟨[], by rw [same, append_nil]⟩
    · exact ⟨_, append_assoc _ _ _⟩

end Scheduler

/-! ### A turn of a worker -/

namespace TokenizeWorker

variable {tokenize : TokenizeMsg → Except String (List Token)} {texts : Nat → String}

def reply? : WorkerMsg → Option Reply
  | .reply reply => some reply
  | .request _ => none

def byRank (replies : List Reply) : List Reply :=
  (replies.filter fun reply => reply.mark.rank = 0) ++
    (replies.filter fun reply => reply.mark.rank = 1) ++
    (replies.filter fun reply => reply.mark.rank = 2)

theorem mem_of_mem_byRank {replies : List Reply} {reply : Reply} (mem : reply ∈ byRank replies) :
    reply ∈ replies := by
  unfold byRank at mem
  simp only [mem_append, mem_filter] at mem
  tauto

theorem byRank_filter (replies : List Reply) (keep : Reply → Bool) :
    (byRank replies).filter keep = byRank (replies.filter keep) := by
  unfold byRank
  rw [filter_append, filter_append, filter_comm, filter_comm keep, filter_comm keep]

theorem byRank_of_pairwise {replies : List Reply}
    (order : (replies.map Reply.mark).Pairwise Mark.Before) : byRank replies = replies := by
  induction replies with
  | nil => rfl
  | cons reply replies ih =>
    rw [map_cons, pairwise_cons] at order
    have later : ∀ other ∈ replies, reply.mark.rank ≤ other.mark.rank := fun other mem =>
      (order.1 other.mark (mem_map_of_mem mem)).1
    have rest := ih order.2
    have none_ : ∀ rank < reply.mark.rank,
        (replies.filter fun other => other.mark.rank = rank) = [] := by
      intro rank below
      rw [filter_eq_nil_iff]
      intro other mem same
      have := later other mem
      have same : other.mark.rank = rank := of_decide_eq_true same
      omega
    unfold byRank at rest ⊢
    cases turn : reply.mark.rank with
    | zero =>
      rw [filter_cons_of_pos (by simp [turn]), filter_cons_of_neg (by simp [turn]),
        filter_cons_of_neg (by simp [turn]), cons_append, cons_append, rest]
    | succ pre =>
      cases pre with
      | zero =>
        have first := none_ 0 (by omega)
        rw [first, nil_append] at rest
        rw [filter_cons_of_neg (by simp [turn]), filter_cons_of_pos (by simp [turn]),
          filter_cons_of_neg (by simp [turn]), first, nil_append, cons_append, rest]
      | succ pre =>
        have two : reply.mark.rank ≤ 2 := by
          unfold Mark.rank
          split
          · split <;> omega
          · omega
        obtain rfl : pre = 0 := by omega
        have first := none_ 0 (by omega)
        have second := none_ 1 (by omega)
        rw [first, second, nil_append, nil_append] at rest
        rw [filter_cons_of_neg (by simp [turn]), filter_cons_of_neg (by simp [turn]),
          filter_cons_of_pos (by simp [turn]), first, second, nil_append, nil_append,
          rest]

theorem repliesOf_put (replies : List UserReply) :
    (putUserReplies replies).flatMap Serving.repliesOf = replies := by
  unfold putUserReplies
  split
  · next nothing => rw [nothing]; rfl
  · exact append_nil _

theorem marks_sentOn (pending : List WorkerMsg) :
    ((pending.filterMap promptAdmitted?) ++ sampledReplies texts pending ++
      pending.filterMap error?).map UserReply.mark =
      (byRank (pending.filterMap reply?)).map Reply.mark := by
  have each : (pending.filterMap promptAdmitted?).map UserReply.mark =
        ((pending.filterMap reply?).filter fun reply => reply.mark.rank = 0).map Reply.mark ∧
      (sampledReplies texts pending).map UserReply.mark =
        ((pending.filterMap reply?).filter fun reply => reply.mark.rank = 1).map Reply.mark ∧
      (pending.filterMap error?).map UserReply.mark =
        ((pending.filterMap reply?).filter fun reply => reply.mark.rank = 2).map Reply.mark := by
    induction pending with
    | nil => exact ⟨rfl, rfl, rfl⟩
    | cons msg pending ih =>
      obtain ⟨admitted, sampled, errors⟩ := ih
      cases msg with
      | request => exact ⟨admitted, sampled, errors⟩
      | reply reply =>
        cases reply with
        | promptAdmitted => exact ⟨congrArg (cons _) admitted, sampled, errors⟩
        | detokenize => exact ⟨admitted, congrArg (cons _) sampled, errors⟩
        | errorReply uid error code =>
          cases code <;> exact ⟨admitted, sampled, congrArg (cons _) errors⟩
  unfold byRank
  rw [map_append, map_append, map_append, map_append, each.1, each.2.1, each.2.2]

theorem repliesOf_turn (pending : List WorkerMsg) :
    (turn tokenize texts pending).1.flatMap Serving.repliesOf =
      (pending.filterMap promptAdmitted? ++ sampledReplies texts pending ++
        pending.filterMap error?) ++
        (tokenizeRequests tokenize (pending.filterMap tokenize?)).2 := by
  unfold turn
  dsimp only
  rw [flatMap_append, flatMap_append, flatMap_append, repliesOf_put, repliesOf_put,
    repliesOf_put, repliesOf_put]

theorem count_tokenizeRequests (uid : Nat) (msgs : List TokenizeMsg) :
    (msgs.map TokenizeMsg.uid).count uid =
      ((tokenizeRequests tokenize msgs).1.map UserMsg.uid).count uid +
        ((tokenizeRequests tokenize msgs).2.map UserReply.uid).count uid := by
  induction msgs with
  | nil => rfl
  | cons msg msgs ih =>
    have one : (∃ accepted, tokenizeRequest tokenize msg = .ok accepted ∧ accepted.uid = msg.uid) ∨
        ∃ reply, tokenizeRequest tokenize msg = .error reply ∧ reply.uid = msg.uid := by
      unfold tokenizeRequest
      split
      · exact .inr ⟨_, rfl, rfl⟩
      · exact .inr ⟨_, rfl, rfl⟩
      · exact .inl ⟨_, rfl, rfl⟩
    unfold tokenizeRequests
    dsimp only
    rcases one with ⟨other, done, same⟩ | ⟨other, done, same⟩
    all_goals
      rw [done]
      dsimp only
      rw [map_cons, map_cons, count_cons, count_cons, same, ih]
      omega

theorem refused_end (msgs : List TokenizeMsg) :
    ∀ reply ∈ (tokenizeRequests tokenize msgs).2, reply.mark = Mark.end reply.uid := by
  induction msgs with
  | nil => nofun
  | cons msg msgs ih =>
    have one : ∀ reply, tokenizeRequest tokenize msg = .error reply →
        reply.mark = Mark.end reply.uid := by
      intro reply failed
      unfold tokenizeRequest at failed
      split at failed
      · obtain rfl := Except.error.inj failed; rfl
      · obtain rfl := Except.error.inj failed; rfl
      · cases failed
    unfold tokenizeRequests
    dsimp only
    split
    · exact ih
    · next reply failed =>
      intro other mem
      rcases mem_cons.mp mem with rfl | mem
      · exact one _ failed
      · exact ih other mem

end TokenizeWorker

/-! ### The frontend's side -/

namespace Serving

/-- What the frontend knows of the requests and has on its way to the workers. -/
structure Desk where
  stats : StatsTracker
  uidCounter : Nat
  building : Nat → Bool
  sending : List TokenizerMsg
  sendTokenizer : List TokenizerMsg
  prepareStage : Option PrepareStage
  sealedAccounting : Option SealedAccounting

def desk (frontend : Frontend) : Desk where
  stats := frontend.stats
  uidCounter := frontend.uidCounter
  building := fun uid => frontend.submissions.lookup uid = some .building
  sending := frontend.sending
  sendTokenizer := frontend.sendTokenizer
  prepareStage := frontend.prepareStage
  sealedAccounting := frontend.sealedAccounting

section Frames

variable (state : Frontend)

@[simp] theorem desk_releaseGenerationSlot (uid : Nat) :
    desk (state.releaseGenerationSlot uid) = desk state := by
  unfold Frontend.releaseGenerationSlot
  split
  · rfl
  · rfl

@[simp] theorem desk_resolveFuture (requestId : String) (res : RebuildResult) :
    desk (state.resolveFuture requestId res) = desk state := by
  unfold Frontend.resolveFuture
  split
  · unfold Frontend.setResult
    split
    · rfl
    · rfl
  · rfl

theorem desk_hear (reply : UserReply) :
    desk (state.hear reply) = { desk state with stats := state.stats.observe reply } := by
  have released : desk (if reply.finished then
      Frontend.releaseGenerationSlot { state with stats := state.stats.observe reply } reply.uid
      else { state with stats := state.stats.observe reply }) =
      { desk state with stats := state.stats.observe reply } := by
    split
    · exact desk_releaseGenerationSlot _ _
    · rfl
  rw [← released]
  unfold Frontend.hear
  dsimp only
  split
  · rfl
  · rfl

theorem desk_failPendingRebuilds (message : String) :
    desk (state.failPendingRebuilds message) = desk state := by
  unfold Frontend.failPendingRebuilds
  generalize state.rebuildFutures = futures
  induction futures generalizing state with
  | nil => rfl
  | cons requestId futures ih => exact (ih _).trans (desk_resolveFuture state requestId _)

theorem desk_listen (msg : FrontendMsg) : desk (state.listen msg) =
      { desk state with stats := (repliesOf msg).foldl StatsTracker.observe state.stats } := by
  cases msg with
  | userReplies replies =>
    show desk (replies.foldl Frontend.hear state) =
      { desk state with stats := replies.foldl StatsTracker.observe state.stats }
    induction replies generalizing state with
    | nil => rfl
    | cons reply replies ih =>
      have heard := desk_hear state reply
      have stats : (state.hear reply).stats = state.stats.observe reply := congrArg Desk.stats heard
      rw [foldl_cons, foldl_cons, ih, heard, stats]
  | cacheRebuild reply =>
    show desk (state.resolveRebuild reply) = desk state
    unfold Frontend.resolveRebuild
    split
    · exact desk_resolveFuture _ _ _
    · rfl

end Frames

/-- **Everything that a step of the frontend does to the requests.** -/
inductive DeskStep (state : Frontend) : Frontend.Event → Desk → Prop
  | stay {event : Frontend.Event} (quiet : abortedBy event = none) : DeskStep state event (desk state)
  | admitted : DeskStep state .admitGeneration { desk state with
      stats := state.stats.onNewUser state.uidCounter
      uidCounter := state.uidCounter + 1
      building := Function.update (desk state).building state.uidCounter true }
  | asked (msg : TokenizeMsg) (building : (desk state).building msg.uid = true) :
      DeskStep state (.sendTokenize msg) { desk state with
        building := Function.update (desk state).building msg.uid false
        sending := state.sending ++ [.tokenize msg] }
  | discarded (uid : Nat) : DeskStep state (.discardUnsubmitted uid) { desk state with
      stats := state.stats.onAbort uid
      building := Function.update (desk state).building uid false }
  | aborted {event : Frontend.Event} {uid : Nat} (stage : Option PrepareStage)
      (by_ : abortedBy event = some uid)
      (known : uid < state.uidCounter ∨
        ∃ left, state.prepareStage = some (.aborting left) ∧ uid ∈ left)
      (left : ∀ left, stage = some (.aborting left) →
        ∃ pre, state.prepareStage = some (.aborting pre) ∧ left ⊆ pre) :
      DeskStep state event { desk state with
        stats := state.stats.onAbort uid
        sending := state.sending ++ [.abort uid]
        prepareStage := stage }
  | put (msg : TokenizerMsg) (mem : msg ∈ state.sending) :
      DeskStep state (.putDone msg) { desk state with
        sending := state.sending.erase msg
        sendTokenizer := state.sendTokenizer ++ [msg] }
  | lost (msg : TokenizerMsg) (mem : msg ∈ state.sending) :
      DeskStep state (.putLost msg) { desk state with sending := state.sending.erase msg }
  | staged {event : Frontend.Event} (stage : Option PrepareStage) (quiet : abortedBy event = none)
      (left : ∀ left, stage = some (.aborting left) → left = state.stats.inflightUids) :
      DeskStep state event { desk state with prepareStage := stage }
  | totals (now : Nat) (idle : state.stats.inflight = []) :
      DeskStep state (.drained now) { desk state with
        prepareStage := none
        sealedAccounting := some (state.sealedDocument now) }

theorem DeskStep.counter_le {state : Frontend} {event : Frontend.Event} {after : Desk}
    (step : DeskStep state event after) : state.uidCounter ≤ after.uidCounter := by
  cases step with
  | admitted => exact Nat.le_succ _
  | _ => exact le_refl _

theorem desk_admitted {state next : Frontend} {uid : Nat}
    (admitted : state.admitGeneration = .ok (uid, next)) : uid = state.uidCounter ∧
      desk next = { desk state with
        stats := state.stats.onNewUser state.uidCounter
        uidCounter := state.uidCounter + 1 } := by
  have newUser : ∀ {uid : Nat} {next : Frontend}, state.newUser = .ok (uid, next) →
      uid = state.uidCounter ∧ desk next = { desk state with
        stats := state.stats.onNewUser state.uidCounter
        uidCounter := state.uidCounter + 1 } := by
    intro uid next admitted
    unfold Frontend.newUser at admitted
    split at admitted
    · cases admitted
    · cases admitted
      exact ⟨rfl, rfl⟩
  unfold Frontend.admitGeneration at admitted
  split at admitted
  · exact newUser admitted
  · split at admitted
    · cases admitted
    · next inner =>
      obtain ⟨isCounter, same⟩ := newUser inner
      cases admitted
      exact ⟨isCounter, same⟩

theorem building_insert (state : Frontend) (uid : Nat) (submission : Submission) :
    (fun other => decide ((state.submissions.insert uid submission).lookup other =
      some Submission.building)) =
      Function.update (desk state).building uid (submission = .building) := by
  funext other
  by_cases same : other = uid
  · subst same
    rw [update_self, AList.lookup_insert]
    exact decide_eq_decide.mpr Option.some_inj
  · rw [update_of_ne same, AList.lookup_insert_ne same]
    rfl

theorem building_erase (state : Frontend) (uid : Nat) :
    (fun other => decide ((state.submissions.erase uid).lookup other =
      some Submission.building)) = Function.update (desk state).building uid false := by
  funext other
  by_cases same : other = uid
  · subst same
    rw [update_self, AList.lookup_erase]
    rfl
  · rw [update_of_ne same, AList.lookup_erase_ne same]
    rfl

theorem step_desk {state next : Frontend} {event : Frontend.Event}
    (isOrdinary : ordinary event = true) (taken : state.step event = some next) :
    DeskStep state event (desk next) := by
  cases event with
  | listen => cases isOrdinary
  | failInflightRequests => cases isOrdinary
  | dispatchRebuild => cases isOrdinary
  | backendReady now =>
    cases taken
    unfold Frontend.markBackendReady
    split
    · exact .stay rfl
    · exact .stay rfl
  | backendFailed message =>
    cases taken
    exact .stay rfl
  | failPendingRebuilds message =>
    cases taken
    rw [desk_failPendingRebuilds]
    exact .stay rfl
  | admitGeneration =>
    obtain ⟨-, taken⟩ := Option.ite_none_left_eq_some.mp taken
    split at taken
    · next uid admitted_ admitted =>
      cases taken
      obtain ⟨rfl, same⟩ := desk_admitted admitted
      have building : (desk admitted_).building = (desk state).building := by rw [same]
      have now := building_insert admitted_ state.uidCounter .building
      rw [building] at now
      have whole : desk { admitted_ with
          submissions := admitted_.submissions.insert state.uidCounter .building } =
          { desk admitted_ with
            building := update (desk state).building state.uidCounter true } :=
        congrArg (fun building => { desk admitted_ with building := building }) now
      rw [whole, same]
      exact .admitted
    · cases taken
      exact .stay rfl
  | sendTokenize msg =>
    obtain ⟨building, ⟨⟩⟩ := Option.ite_none_right_eq_some.mp taken
    have now := building_insert state msg.uid .sending
    have whole : desk { state.sendOne (.tokenize msg) with
        submissions := state.submissions.insert msg.uid .sending } =
        { desk state with
          building := update (desk state).building msg.uid false
          sending := state.sending ++ [.tokenize msg] } :=
      congrArg (fun building => ({ desk state with
        building := building
        sending := state.sending ++ [.tokenize msg] } : Desk)) now
    rw [whole]
    exact .asked msg (decide_eq_true building)
  | submitted uid =>
    obtain ⟨sent, ⟨⟩⟩ := Option.ite_none_right_eq_some.mp taken
    have idle : (desk state).building uid = false := by
      show decide (state.submissions.lookup uid = some .building) = false
      rw [sent]
      rfl
    have now := building_erase state uid
    rw [← idle, update_eq_self] at now
    have whole : desk { state with submissions := state.submissions.erase uid } = desk state :=
      congrArg (fun building => { desk state with building := building }) now
    rw [whole]
    exact .stay rfl
  | discardUnsubmitted uid =>
    obtain ⟨-, ⟨⟩⟩ := Option.ite_none_right_eq_some.mp taken
    have same : desk (state.discardUnsubmittedGeneration uid) =
        { desk state with stats := state.stats.onAbort uid } := desk_releaseGenerationSlot _ uid
    have now := building_erase state uid
    have whole : desk { state.discardUnsubmittedGeneration uid with
        submissions := state.submissions.erase uid } =
        { desk state with
          stats := state.stats.onAbort uid
          building := update (desk state).building uid false } := by
      refine Eq.trans ?_ (congrArg₂ (fun (kept : Desk) building =>
        { kept with building := building }) same now)
      rfl
    rw [whole]
    exact .discarded uid
  | takeAcks uid | rebuildSent requestId | rebuildSendError requestId error
  | rebuildReturned requestId | rebuildTimedOut requestId =>
    simp only [Frontend.step] at taken
    split at taken
    · cases taken
      exact .stay rfl
    · cases taken
  | closeWait uid =>
    cases taken
    exact .stay rfl
  | abortUser uid =>
    obtain ⟨known, ⟨⟩⟩ := Option.ite_none_right_eq_some.mp taken
    exact .aborted state.prepareStage rfl (.inl known) fun left same =>
      ⟨left, same, List.Subset.refl left⟩
  | putDone msg =>
    obtain ⟨mem, ⟨⟩⟩ := Option.ite_none_right_eq_some.mp taken
    exact .put msg mem
  | putLost msg =>
    obtain ⟨mem, ⟨⟩⟩ := Option.ite_none_right_eq_some.mp taken
    exact .lost msg mem
  | prepareStop =>
    simp only [Frontend.step] at taken
    split at taken
    · split at taken
      · cases taken
        exact .stay rfl
      · cases taken
        exact .stay rfl
      · next began =>
        cases taken
        unfold Frontend.prepareStop at began
        split at began
        · cases began
        · split at began
          · cases began
          · cases began
            exact .staged (some .draining) rfl fun _ same => by cases same
    · cases taken
  | drained now =>
    simp only [Frontend.step] at taken
    split at taken
    · next ready =>
      cases taken
      exact .totals now (length_eq_zero_iff.mp ready.1)
    · cases taken
  | drainTimedOut =>
    obtain ⟨-, ⟨⟩⟩ := Option.ite_none_right_eq_some.mp taken
    unfold Frontend.drainTimedOut
    split
    · exact .staged none rfl fun _ same => by cases same
    · have inFlight : ∀ left, some (PrepareStage.aborting state.stats.inflightUids) =
          some (.aborting left) → left = state.stats.inflightUids := fun left same =>
        (PrepareStage.aborting.inj (Option.some.inj same)).symm
      exact .staged (some (.aborting state.stats.inflightUids)) rfl inFlight
  | abortNext uid =>
    simp only [Frontend.step] at taken
    split at taken
    · next left held =>
      obtain ⟨mem, ⟨⟩⟩ := Option.ite_none_right_eq_some.mp taken
      refine .aborted (some (.aborting (left.erase uid))) rfl (.inr ⟨left, held, mem⟩)
        fun after same => ⟨left, held, ?_⟩
      obtain rfl := PrepareStage.aborting.inj (Option.some.inj same)
      exact erase_subset
    · cases taken
  | aborted =>
    obtain ⟨-, ⟨⟩⟩ := Option.ite_none_right_eq_some.mp taken
    exact .staged (some .acknowledging) rfl fun _ same => by cases same
  | prepareFailed =>
    obtain ⟨-, ⟨⟩⟩ := Option.ite_none_right_eq_some.mp taken
    exact .staged none rfl fun _ same => by cases same

/-! ### The invariant -/

def uidOf : TokenizerMsg → Option Nat
  | .tokenize msg => some msg.uid
  | .abort uid => some uid
  | .cacheRebuild _ => none

def requestOf : TokenizerMsg → Option Nat
  | .tokenize msg => some msg.uid
  | _ => none

def msgUid : Msg → Nat
  | .user msg => msg.uid
  | .abort uid => uid

def userOf : Msg → Option Nat
  | .user msg => some msg.uid
  | .abort _ => none

def requestsIn (inbox : List WorkerMsg) : List Nat :=
  (inbox.filterMap TokenizeWorker.tokenize?).map TokenizeMsg.uid

def repliesIn (inbox : List WorkerMsg) : List Reply := inbox.filterMap TokenizeWorker.reply?

def atDesk (desk : Desk) (uid : Nat) : Nat :=
  (desk.building uid).toNat + (desk.sending.filterMap requestOf).count uid +
    (desk.sendTokenizer.filterMap requestOf).count uid

def asked (cfg : ServingConfig) (refused : List Nat) (events : List Scheduler.Event) (s : Serving)
    (uid : Nat) : Nat :=
  atDesk (desk s.frontend) uid +
    (∑ worker ∈ Finset.range (cfg.numTokenizer + 1), (requestsIn (s.inbox worker)).count uid) +
    (∑ worker ∈ Finset.range (cfg.numTokenizer + 1),
      ((s.toScheduler worker).filterMap userOf).count uid) +
    ((Scheduler.arrivals events).map UserMsg.uid).count uid + refused.count uid

def wire (cfg : ServingConfig) (s : Serving) : List Mark :=
  s.heard.map UserReply.mark ++
    (((s.toFrontend cfg.detokenizer).flatMap repliesOf).map UserReply.mark ++
      (repliesIn (s.inbox cfg.detokenizer)).map Reply.mark)

structure Known (n : Nat) (events : List Scheduler.Event) (s : Serving) : Prop where
  building : ∀ uid, (desk s.frontend).building uid = true → uid < n
  sending : ∀ msg ∈ s.frontend.sending ++ s.frontend.sendTokenizer, ∀ uid, uidOf msg = some uid →
    uid < n
  left : ∀ left, s.frontend.prepareStage = some (.aborting left) → ∀ uid ∈ left, uid < n
  inbox : ∀ worker, ∀ msg, .request msg ∈ s.inbox worker → ∀ uid, uidOf msg = some uid → uid < n
  replies : ∀ worker, ∀ reply ∈ repliesIn (s.inbox worker), reply.uid < n
  toFrontend : ∀ worker, ∀ reply ∈ (s.toFrontend worker).flatMap repliesOf, reply.uid < n
  toScheduler : ∀ worker, ∀ msg ∈ s.toScheduler worker, msgUid msg < n
  received : ∀ msg, .recv msg ∈ events → msgUid msg < n
  heard : ∀ reply ∈ s.heard, reply.uid < n

/-- **What was heard of a request with what is under way is what the scheduler sent**, in order; a
request that a worker refused only ends. -/
structure Wired (cfg : ServingConfig) (refused : List Nat) (s : Serving) : Prop where
  idle : ∀ worker, cfg.numTokenizer < worker → s.inbox worker = [] ∧ s.toScheduler worker = []
  requests : ∀ worker, worker ≠ cfg.detokenizer → repliesIn (s.inbox worker) = []
  others : ∀ worker, worker ≠ cfg.detokenizer → ∀ reply ∈ (s.toFrontend worker).flatMap repliesOf,
    reply.uid ∈ refused ∧ reply.mark = Mark.end reply.uid
  order : ∀ uid ∉ refused, (wire cfg s).filter (fun mark => mark.uid = uid) =
    (s.scheduler.out.map Reply.mark).filter fun mark => mark.uid = uid
  ends : ∀ mark ∈ wire cfg s, mark.uid ∈ refused → mark = Mark.end mark.uid

/-- **The invariant**: the scheduler has gone through the events, and the workers have refused the
requests. -/
structure Books (cfg : ServingConfig) (cm : CacheManager) (maxRunningReqs : Nat)
    (refused : List Nat) (events : List Scheduler.Event) (s : Serving) : Prop where
  counted : Counted s.frontend.uidCounter s.aborted s.heard s.frontend.stats
  once : ∀ uid, asked cfg refused events s uid ≤ 1
  known : Known s.frontend.uidCounter events s
  refusals : ∀ uid ∈ refused, uid < s.frontend.uidCounter
  wired : Wired cfg refused s
  run : Scheduler.Run cfg.scheduler (Scheduler.new cm maxRunningReqs) events s.scheduler
  calm : Scheduler.Calm cfg.scheduler (Scheduler.new cm maxRunningReqs) events
  gates : s.frontend.gates.Sound
  totals : ∀ document, s.frontend.sealedAccounting = some document →
    s.frontend.stats.inflight = [] ∧
      document.promptTokensTotal = s.frontend.stats.promptTokensTotal ∧
      document.completionTokensTotal = s.frontend.stats.completionTokensTotal

section Invariant

variable {cfg : ServingConfig} {cm : CacheManager} {maxRunningReqs n : Nat} {refused : List Nat}
  {events : List Scheduler.Event} {s next : Serving}

theorem sum_update {α : Type} (queues : Nat → α) (measure : α → Nat) {worker workers : Nat}
    (inside : worker < workers) (queue : α) :
    (∑ other ∈ Finset.range workers, measure (Function.update queues worker queue other)) +
      measure (queues worker) =
      (∑ other ∈ Finset.range workers, measure (queues other)) + measure queue := by
  have mem : worker ∈ Finset.range workers := Finset.mem_range.mpr inside
  have rest : ∑ other ∈ (Finset.range workers).erase worker,
      measure (update queues worker queue other) =
      ∑ other ∈ (Finset.range workers).erase worker, measure (queues other) :=
    Finset.sum_congr rfl fun other inRest => by rw [update_of_ne (Finset.ne_of_mem_erase inRest)]
  rw [← Finset.add_sum_erase _ _ mem, ← Finset.add_sum_erase _ (fun other =>
    measure (queues other)) mem, rest, update_self]
  omega

theorem Known.requests (known : Known n events s) (worker : Nat) :
    ∀ uid ∈ requestsIn (s.inbox worker), uid < n := by
  intro uid mem
  obtain ⟨msg, inMsgs, rfl⟩ := mem_map.mp mem
  obtain ⟨queued, inInbox, isMsg⟩ := mem_filterMap.mp inMsgs
  cases queued with
  | request request =>
    cases request with
    | tokenize =>
      cases isMsg
      exact known.inbox worker _ inInbox _ rfl
    | abort | cacheRebuild => cases isMsg
  | reply => cases isMsg

theorem Known.asked_eq_zero (known : Known n events s) (ends : ∀ uid ∈ refused, uid < n) {uid : Nat}
    (fresh : n ≤ uid) : asked cfg refused events s uid = 0 := by
  have absent : ∀ {uids : List Nat}, (∀ other ∈ uids, other < n) → uids.count uid = 0 :=
    fun below => count_eq_zero.mpr fun mem => absurd (below uid mem) (not_lt.mpr fresh)
  have sent : ∀ msgs : List TokenizerMsg, (∀ msg ∈ msgs, msg ∈ s.frontend.sending ++
      s.frontend.sendTokenizer) → ∀ other ∈ msgs.filterMap requestOf, other < n := by
    intro msgs inside other mem
    obtain ⟨msg, inMsgs, isUid⟩ := mem_filterMap.mp mem
    refine known.sending msg (inside msg inMsgs) other ?_
    cases msg with
    | tokenize => exact isUid
    | abort | cacheRebuild => cases isUid
  have building : (desk s.frontend).building uid = false := by
    by_contra building
    exact absurd (known.building uid (by simpa using building)) (not_lt.mpr fresh)
  have front : atDesk (desk s.frontend) uid = 0 := by
    unfold atDesk
    rw [building]
    have sending := absent (sent s.frontend.sending fun msg mem => mem_append_left _ mem)
    have queued := absent (sent s.frontend.sendTokenizer fun msg mem => mem_append_right _ mem)
    dsimp only [desk]
    rw [sending, queued]
    rfl
  unfold asked
  rw [front, absent ends]
  rw [Finset.sum_eq_zero, Finset.sum_eq_zero]
  · rw [absent]
    · rfl
    · intro other mem
      obtain ⟨msg, arrived, rfl⟩ := mem_map.mp mem
      obtain ⟨event, inEvents, isMsg⟩ := mem_filterMap.mp arrived
      cases event with
      | recv received =>
        cases received with
        | user user =>
          cases isMsg
          exact known.received _ inEvents
        | abort => cases isMsg
      | launch | drain => cases isMsg
  · intro worker _
    refine absent fun other mem => ?_
    obtain ⟨msg, inQueue, isUid⟩ := mem_filterMap.mp mem
    cases msg with
    | user user =>
      cases isUid
      exact known.toScheduler worker _ inQueue
    | abort => cases isUid
  · exact fun worker _ => absent (known.requests worker)

theorem arrivals_unique (once : ∀ uid, asked cfg refused events s uid ≤ 1) :
    ((Scheduler.arrivals events).map UserMsg.uid).Nodup := by
  refine nodup_iff_count_le_one.mpr fun uid => ?_
  have once := once uid
  unfold asked at once
  omega

theorem refused_unarrived (once : ∀ uid, asked cfg refused events s uid ≤ 1) {uid : Nat}
    (isRefused : uid ∈ refused) : Scheduler.arrivedAs events uid = none := by
  have once := once uid
  have counted := count_pos_iff.mpr isRefused
  unfold asked at once
  have absent : uid ∉ (Scheduler.arrivals events).map UserMsg.uid := count_eq_zero.mp (by omega)
  refine find?_eq_none.mpr fun msg mem same => absent ?_
  rw [← of_decide_eq_true same]
  exact mem_map_of_mem mem

theorem Books.unique (books : Books cfg cm maxRunningReqs refused events s) :
    ((Scheduler.arrivals events).map UserMsg.uid).Nodup := arrivals_unique books.once

theorem out_received {scheduler : Scheduler}
    (run : Scheduler.Run cfg.scheduler (Scheduler.new cm maxRunningReqs) events scheduler)
    (unique : ((Scheduler.arrivals events).map UserMsg.uid).Nodup)
    (calm : Scheduler.Calm cfg.scheduler (Scheduler.new cm maxRunningReqs) events) {reply : Reply}
    (sent : reply ∈ scheduler.out) : ∃ msg, .recv msg ∈ events ∧ msgUid msg = reply.uid := by
  cases arrived : Scheduler.arrivedAs events reply.uid with
  | none =>
    have aborts := (out_unarrived run unique calm sent arrived).2
    obtain ⟨event, inEvents, isAbort⟩ := countP_pos_iff.mp aborts
    cases event with
    | recv msg =>
      cases msg with
      | abort uid => exact ⟨_, inEvents, of_decide_eq_true isAbort⟩
      | user => cases isAbort
    | launch | drain => cases isAbort
  | some msg =>
    have mem := mem_of_find?_eq_some arrived
    have isUid := find?_some arrived
    obtain ⟨event, inEvents, isMsg⟩ := mem_filterMap.mp mem
    cases event with
    | recv received =>
      cases received with
      | user user =>
        cases isMsg
        exact ⟨_, inEvents, of_decide_eq_true isUid⟩
      | abort => cases isMsg
    | launch | drain => cases isMsg

theorem Books.quiet (books : Books cfg cm maxRunningReqs refused events s)
    (idle : s.frontend.stats.inflight = []) :
    (∀ worker, ∀ reply ∈ (s.toFrontend worker).flatMap repliesOf, reply.mark.Quiet) ∧
      ∀ reply ∈ repliesIn (s.inbox cfg.detokenizer), reply.mark.Quiet := by
  have ended : ∀ uid < s.frontend.uidCounter, Ended s.heard uid := by
    intro uid below
    by_contra live
    have := (books.counted.inflight uid).mpr ⟨below, live⟩
    rw [idle] at this
    exact not_mem_nil this
  have later : ∀ mark, mark ∈ ((s.toFrontend cfg.detokenizer).flatMap repliesOf).map
      UserReply.mark ++ (repliesIn (s.inbox cfg.detokenizer)).map Reply.mark →
      mark.uid < s.frontend.uidCounter → mark.Quiet := by
    intro mark underWay below
    have inWire : mark ∈ wire cfg s := mem_append_right _ underWay
    by_cases isRefused : mark.uid ∈ refused
    · rw [books.wired.ends mark inWire isRefused]
      exact Mark.quiet_end _
    · obtain ⟨reply, heard, isUid, finished⟩ := ended mark.uid below
      have order := books.wired.order mark.uid isRefused
      have pairs := before_out books.run books.unique books.calm mark.uid
      rw [← order] at pairs
      unfold wire at pairs
      rw [filter_append] at pairs
      refine ((pairwise_append.mp pairs).2.2 reply.mark ?_ mark ?_).2 finished
      · exact mem_filter.mpr ⟨mem_map_of_mem heard, decide_eq_true isUid⟩
      · exact mem_filter.mpr ⟨underWay, decide_eq_true rfl⟩
  refine ⟨fun worker reply sent => ?_, fun reply queued => ?_⟩
  · by_cases isDetokenizer : worker = cfg.detokenizer
    · subst isDetokenizer
      exact later reply.mark (mem_append_left _ (mem_map_of_mem sent))
        (books.known.toFrontend _ reply sent)
    · rw [(books.wired.others worker isDetokenizer reply sent).2]
      exact Mark.quiet_end _
  · refine later reply.mark (mem_append_right _ (mem_map_of_mem queued)) ?_
    rw [Reply.mark_uid]
    exact books.known.replies _ reply queued

/-! ### A step of the frontend -/

variable {event : Frontend.Event} {after : Desk}

theorem Books.counted_step (books : Books cfg cm maxRunningReqs refused events s)
    (step : DeskStep s.frontend event after) :
    Counted after.uidCounter
      (s.aborted ++ (abortedBy event).toList.filter (· ∈ s.frontend.stats.inflight)) s.heard
      after.stats := by
  have counted := books.counted
  have unchanged : ∀ {event : Frontend.Event}, abortedBy event = none →
      s.aborted ++ (abortedBy event).toList.filter (· ∈ s.frontend.stats.inflight) = s.aborted :=
    fun quiet => by
      rw [quiet]
      exact append_nil _
  cases step with
  | stay quiet => rw [unchanged quiet]; exact counted
  | admitted => rw [unchanged rfl]; exact counted.newUser books.known.heard
  | asked => rw [unchanged rfl]; exact counted
  | discarded uid => exact counted.abort uid
  | aborted stage by_ => rw [by_]; exact counted.abort _
  | put => rw [unchanged rfl]; exact counted
  | lost => rw [unchanged rfl]; exact counted
  | staged stage quiet => rw [unchanged quiet]; exact counted
  | totals => rw [unchanged rfl]; exact counted

theorem DeskStep.atDesk_le {state : Frontend} (step : DeskStep state event after) (uid : Nat) :
    atDesk after uid ≤ atDesk (desk state) uid ∨
      uid = state.uidCounter ∧ atDesk after uid ≤ atDesk (desk state) uid + 1 := by
  have erased : ∀ msg ∈ state.sending, ((state.sending.erase msg).filterMap requestOf).count uid +
        ((requestOf msg).toList).count uid = (state.sending.filterMap requestOf).count uid := by
    intro msg mem
    have perm := ((perm_cons_erase mem).filterMap requestOf).count_eq uid
    rw [perm]
    cases request : requestOf msg with
    | none => rw [filterMap_cons_none request]; rfl
    | some other =>
      rw [filterMap_cons_some request, count_cons, Option.toList_some, count_singleton]
  have appended : ∀ (msgs : List TokenizerMsg) (msg : TokenizerMsg),
      ((msgs ++ [msg]).filterMap requestOf).count uid =
        (msgs.filterMap requestOf).count uid + ((requestOf msg).toList).count uid := by
    intro msgs msg
    rw [filterMap_append, count_append]
    cases request : requestOf msg with
    | none => rw [filterMap_cons_none request]; rfl
    | some other => rw [filterMap_cons_some request]; rfl
  unfold atDesk
  cases step with
  | stay | staged | totals => exact .inl (le_refl _)
  | admitted =>
    dsimp only
    by_cases same : uid = state.uidCounter
    · rw [same, update_self]
      rw [Bool.toNat_true]
      exact .inr ⟨rfl, by omega⟩
    · rw [update_of_ne same]
      exact .inl (le_refl _)
  | asked msg isBuilding =>
    have sent : (desk state).sending = state.sending := rfl
    rw [appended, sent]
    dsimp only
    by_cases same : uid = msg.uid
    · rw [same, update_self, isBuilding]
      have one : ((requestOf (.tokenize msg)).toList).count msg.uid = 1 := count_singleton_self
      rw [one, Bool.toNat_true, Bool.toNat_false]
      exact .inl (by omega)
    · have none_ : ((requestOf (.tokenize msg)).toList).count uid = 0 :=
        count_eq_zero.mpr fun mem => same (mem_singleton.mp mem)
      rw [update_of_ne same, none_]
      exact .inl (le_refl _)
  | discarded other =>
    dsimp only
    by_cases same : uid = other
    · rw [same, update_self, Bool.toNat_false]
      exact .inl (by omega)
    · rw [update_of_ne same]
      exact .inl (le_refl _)
  | aborted =>
    have sent : (desk state).sending = state.sending := rfl
    rw [appended, sent]
    exact .inl (le_refl _)
  | put msg mem =>
    have less := erased msg mem
    have sent : (desk state).sending = state.sending := rfl
    have queued : (desk state).sendTokenizer = state.sendTokenizer := rfl
    dsimp only
    rw [appended, sent, queued]
    exact .inl (by omega)
  | lost msg mem =>
    have less := erased msg mem
    have sent : (desk state).sending = state.sending := rfl
    dsimp only
    rw [sent]
    exact .inl (by omega)

theorem Books.once_step (books : Books cfg cm maxRunningReqs refused events s)
    {frontend : Frontend} {aborted : List Nat}
    (step : DeskStep s.frontend event (desk frontend)) (uid : Nat) :
    asked cfg refused events { s with frontend := frontend, aborted := aborted } uid ≤ 1 := by
  have once := books.once uid
  have fresh : s.frontend.uidCounter ≤ uid → asked cfg refused events s uid = 0 :=
    books.known.asked_eq_zero books.refusals
  unfold asked at once fresh ⊢
  dsimp only
  rcases step.atDesk_le uid with less | ⟨same, more⟩
  · omega
  · have nothing := fresh same.ge
    omega

theorem Books.known_step (books : Books cfg cm maxRunningReqs refused events s)
    {frontend : Frontend} {aborted : List Nat}
    (step : DeskStep s.frontend event (desk frontend)) :
    Known frontend.uidCounter events { s with frontend := frontend, aborted := aborted } := by
  have known := books.known
  have grown : s.frontend.uidCounter ≤ frontend.uidCounter := step.counter_le
  have sentOn : ∀ msgs : List TokenizerMsg, (∀ msg ∈ msgs, msg ∈ s.frontend.sending ++
      s.frontend.sendTokenizer) → ∀ msg ∈ msgs, ∀ uid, uidOf msg = some uid →
      uid < frontend.uidCounter := fun msgs inside msg mem uid isUid =>
    (known.sending msg (inside msg mem) uid isUid).trans_le grown
  have fromSending : ∀ msg ∈ s.frontend.sending, ∀ uid, uidOf msg = some uid →
      uid < frontend.uidCounter := sentOn _ fun msg mem => mem_append_left _ mem
  have fromQueue : ∀ msg ∈ s.frontend.sendTokenizer, ∀ uid, uidOf msg = some uid →
      uid < frontend.uidCounter := sentOn _ fun msg mem => mem_append_right _ mem
  have both : ∀ sending sendTokenizer : List TokenizerMsg,
      (∀ msg ∈ sending, ∀ uid, uidOf msg = some uid → uid < frontend.uidCounter) →
      (∀ msg ∈ sendTokenizer, ∀ uid, uidOf msg = some uid → uid < frontend.uidCounter) →
      ∀ msg ∈ sending ++ sendTokenizer, ∀ uid, uidOf msg = some uid →
        uid < frontend.uidCounter := fun _ _ first second msg mem uid isUid =>
    (mem_append.mp mem).elim (first msg · uid isUid) (second msg · uid isUid)
  have snoc : ∀ (msgs : List TokenizerMsg) (msg : TokenizerMsg),
      (∀ msg ∈ msgs, ∀ uid, uidOf msg = some uid → uid < frontend.uidCounter) →
      (∀ uid, uidOf msg = some uid → uid < frontend.uidCounter) →
      ∀ other ∈ msgs ++ [msg], ∀ uid, uidOf other = some uid → uid < frontend.uidCounter :=
    fun _ msg first last => both _ [msg] first fun _ mem uid isUid => by
      rw [mem_singleton.mp mem] at isUid
      exact last uid isUid
  constructor
  case inbox => exact fun worker msg mem uid isUid =>
    (known.inbox worker msg mem uid isUid).trans_le grown
  case replies => exact fun worker reply mem => (known.replies worker reply mem).trans_le grown
  case toFrontend =>
    exact fun worker reply mem => (known.toFrontend worker reply mem).trans_le grown
  case toScheduler => exact fun worker msg mem => (known.toScheduler worker msg mem).trans_le grown
  case received => exact fun msg mem => (known.received msg mem).trans_le grown
  case heard => exact fun reply mem => (known.heard reply mem).trans_le grown
  case building =>
    have was : ∀ uid, (desk s.frontend).building uid = true → uid < frontend.uidCounter :=
      fun uid building => (known.building uid building).trans_le grown
    have updated : ∀ other uid, update (desk s.frontend).building other false uid = true →
        uid < frontend.uidCounter := by
      intro other uid building
      by_cases same : uid = other
      · rw [same, update_self] at building
        cases building
      · rw [update_of_ne same] at building
        exact was uid building
    intro uid building
    change (desk frontend).building uid = true at building
    have counter : frontend.uidCounter = (desk frontend).uidCounter := rfl
    generalize desk frontend = after at step building counter
    cases step with
    | admitted =>
      rw [counter]
      by_cases same : uid = s.frontend.uidCounter
      · exact same ▸ Nat.lt_succ_self _
      · change update (desk s.frontend).building s.frontend.uidCounter true uid = true
          at building
        rw [update_of_ne same] at building
        exact Nat.lt_succ_of_lt (known.building uid building)
    | asked msg => exact updated msg.uid uid building
    | discarded other => exact updated other uid building
    | _ => exact was uid building
  case sending =>
    show ∀ msg ∈ (desk frontend).sending ++ (desk frontend).sendTokenizer, _
    have counter : frontend.uidCounter = (desk frontend).uidCounter := rfl
    generalize desk frontend = after at step counter ⊢
    cases step with
    | asked msg building =>
      refine both _ _ (snoc _ _ fromSending fun uid isUid => ?_) fromQueue
      cases isUid
      exact (known.building _ building).trans_le grown
    | @aborted _ uid stage by_ isKnown =>
      refine both _ _ (snoc _ _ fromSending fun other isUid => ?_) fromQueue
      cases isUid
      rcases isKnown with below | ⟨left, held, mem⟩
      · exact below.trans_le grown
      · exact (known.left left held uid mem).trans_le grown
    | put msg mem =>
      exact both _ _ (fun other inRest => fromSending other (mem_of_mem_erase inRest))
        (snoc _ _ fromQueue (fromSending msg mem))
    | lost msg mem =>
      exact both _ _ (fun other inRest => fromSending other (mem_of_mem_erase inRest)) fromQueue
    | _ => exact both _ _ fromSending fromQueue
  case left =>
    have was : ∀ left, s.frontend.prepareStage = some (.aborting left) → ∀ uid ∈ left,
        uid < frontend.uidCounter := fun left held uid mem =>
      (known.left left held uid mem).trans_le grown
    show ∀ left, (desk frontend).prepareStage = some (.aborting left) → _
    generalize desk frontend = after at step ⊢
    intro left held uid mem
    cases step with
    | aborted stage _ _ goesOn =>
      obtain ⟨pre, wasHeld, inside⟩ := goesOn left held
      exact was pre wasHeld uid (inside mem)
    | staged stage _ fresh =>
      rw [fresh left held] at mem
      have inFlight := (mem_insertionSort (· ≤ ·)).mp mem
      exact ((books.counted.inflight uid).mp inFlight).1.trans_le grown
    | totals => cases held
    | _ => exact was left held uid mem

theorem Books.totals_step (books : Books cfg cm maxRunningReqs refused events s)
    {frontend : Frontend} (gates : Gates.Step s.frontend.gates frontend.gates)
    (step : DeskStep s.frontend event (desk frontend)) : ∀ document,
    frontend.sealedAccounting = some document → frontend.stats.inflight = [] ∧
      document.promptTokensTotal = frontend.stats.promptTokensTotal ∧
      document.completionTokensTotal = frontend.stats.completionTokensTotal := by
  -- sealed totals keep the gate shut
  have shut : s.frontend.sealedAccounting ≠ none →
      (desk frontend).uidCounter = s.frontend.uidCounter := fun isSealed =>
    (books.gates.closed_step (books.gates.sealed_closed isSealed) gates).2
  have aborts : ∀ uid, s.frontend.stats.inflight = [] →
      s.frontend.stats.onAbort uid = s.frontend.stats := by
    intro uid idle
    refine if_neg ?_
    rw [idle]
    exact not_mem_nil
  show ∀ document, (desk frontend).sealedAccounting = some document →
    (desk frontend).stats.inflight = [] ∧
      document.promptTokensTotal = (desk frontend).stats.promptTokensTotal ∧
      document.completionTokensTotal = (desk frontend).stats.completionTokensTotal
  generalize desk frontend = after at step shut ⊢
  intro document isSealed
  cases step with
  | admitted =>
    have same := shut (by
      change s.frontend.sealedAccounting = some document at isSealed
      rw [isSealed]
      nofun)
    exact absurd same (Nat.succ_ne_self _)
  | discarded uid | @aborted _ uid =>
    have pre := books.totals document isSealed
    dsimp only
    rw [aborts uid pre.1]
    exact pre
  | totals now idle =>
    cases isSealed
    exact ⟨idle, rfl, rfl⟩
  | _ => exact books.totals document isSealed

theorem Books.frontend (books : Books cfg cm maxRunningReqs refused events s)
    (isOrdinary : ordinary event = true) {frontend : Frontend}
    (taken : s.frontend.step event = some frontend) :
    Books cfg cm maxRunningReqs refused events { s with
      frontend := frontend
      aborted := s.aborted ++ (abortedBy event).toList.filter (· ∈ s.frontend.stats.inflight) } := by
  have step := step_desk isOrdinary taken
  have gates := Frontend.step_gates s.frontend taken
  have grown : s.frontend.uidCounter ≤ frontend.uidCounter := step.counter_le
  exact {
    counted := books.counted_step step
    once := books.once_step step
    known := books.known_step step
    refusals := fun uid mem => (books.refusals uid mem).trans_le grown
    wired := { books.wired with }
    run := books.run
    calm := books.calm
    gates := books.gates.step gates
    totals := books.totals_step gates step }

/-! ### Messages that move on -/

theorem Books.route (books : Books cfg cm maxRunningReqs refused events s) {worker : Nat}
    {msg : TokenizerMsg} {rest : List TokenizerMsg} (queue : s.frontend.sendTokenizer = msg :: rest)
    (reaches : cfg.tokenizes worker = true) :
    Books cfg cm maxRunningReqs refused events { s with
      frontend := { s.frontend with sendTokenizer := rest }
      inbox := Function.update s.inbox worker (s.inbox worker ++ [.request msg]) } := by
  have inside : worker < cfg.numTokenizer + 1 := by
    unfold ServingConfig.tokenizes at reaches
    simp only [Bool.or_eq_true, decide_eq_true_eq, Bool.and_eq_true, beq_iff_eq] at reaches
    omega
  have replies : ∀ other, repliesIn (update s.inbox worker
      (s.inbox worker ++ [.request msg]) other) = repliesIn (s.inbox other) :=
    (forall_update_iff s.inbox fun other inbox => repliesIn inbox = repliesIn (s.inbox other)).mpr
      ⟨(filterMap_append).trans (append_nil _), fun _ _ => rfl⟩
  have sameWire : wire cfg { s with
      frontend := { s.frontend with sendTokenizer := rest }
      inbox := update s.inbox worker (s.inbox worker ++ [.request msg]) } = wire cfg s := by
    unfold wire
    dsimp only
    rw [replies]
  refine { books with wired := ?wired, known := ?known, once := ?once }
  case wired =>
    constructor
    case idle =>
      intro other beyond
      dsimp only
      rw [update_of_ne (by omega : other ≠ worker)]
      exact books.wired.idle other beyond
    case requests => exact fun other ne => (replies other).trans (books.wired.requests other ne)
    case others => exact books.wired.others
    case order =>
      rw [sameWire]
      exact books.wired.order
    case ends =>
      rw [sameWire]
      exact books.wired.ends
  case known =>
    have known := books.known
    exact { known with
      sending := fun other mem => known.sending other (by
        rcases mem_append.mp mem with sending | queued
        · exact mem_append_left _ sending
        · rw [queue]
          exact mem_append_right _ (mem_cons_of_mem _ queued))
      inbox := by
        refine (forall_update_iff s.inbox fun _ inbox => ∀ request, .request request ∈ inbox →
          ∀ uid, uidOf request = some uid → uid < s.frontend.uidCounter).mpr
          ⟨fun request mem uid isUid => ?_, fun other _ => known.inbox other⟩
        rcases mem_append.mp mem with pre | now
        · exact known.inbox worker request pre uid isUid
        · obtain rfl := WorkerMsg.request.inj (mem_singleton.mp now)
          refine known.sending request ?_ uid isUid
          rw [queue]
          exact mem_append_right _ mem_cons_self
      replies := fun other reply mem => known.replies other reply (replies other ▸ mem) }
  case once =>
    intro uid
    have once := books.once uid
    have moved := sum_update s.inbox (fun inbox => (requestsIn inbox).count uid) inside
      (s.inbox worker ++ [.request msg])
    have added : (requestsIn (s.inbox worker ++ [.request msg])).count uid =
        (requestsIn (s.inbox worker)).count uid + ((requestOf msg).toList).count uid := by
      unfold requestsIn
      rw [filterMap_append, map_append, count_append]
      cases msg <;> rfl
    have taken : (s.frontend.sendTokenizer.filterMap requestOf).count uid =
        (rest.filterMap requestOf).count uid + ((requestOf msg).toList).count uid := by
      rw [queue]
      cases msg with
      | tokenize => exact count_cons.trans (congrArg _ count_singleton.symm)
      | abort | cacheRebuild => rfl
    unfold asked atDesk at once ⊢
    dsimp only [desk] at once moved ⊢
    rw [taken] at once
    rw [added] at moved
    omega

/-- **The frontend hears a message.** -/
theorem Books.hear (books : Books cfg cm maxRunningReqs refused events s) {worker : Nat}
    {msg : FrontendMsg} {rest : List FrontendMsg} (queue : s.toFrontend worker = msg :: rest) :
    Books cfg cm maxRunningReqs refused events { s with
      frontend := s.frontend.listen msg
      toFrontend := Function.update s.toFrontend worker rest
      heard := s.heard ++ repliesOf msg } := by
  have listened := desk_listen s.frontend msg
  have counter : (s.frontend.listen msg).uidCounter = s.frontend.uidCounter :=
    congrArg Desk.uidCounter listened
  have stats : (s.frontend.listen msg).stats =
      (repliesOf msg).foldl StatsTracker.observe s.frontend.stats := congrArg Desk.stats listened
  have underWay : (s.toFrontend worker).flatMap repliesOf =
      repliesOf msg ++ rest.flatMap repliesOf := by
    rw [queue]
    rfl
  have sent : ∀ reply ∈ repliesOf msg, reply ∈ (s.toFrontend worker).flatMap repliesOf :=
    fun reply mem => by
      rw [underWay]
      exact mem_append_left _ mem
  have left : ∀ other, ∀ reply ∈ (update s.toFrontend worker rest other).flatMap repliesOf,
      reply ∈ (s.toFrontend other).flatMap repliesOf :=
    (forall_update_iff s.toFrontend fun other queue => ∀ reply ∈ queue.flatMap repliesOf,
      reply ∈ (s.toFrontend other).flatMap repliesOf).mpr ⟨fun reply mem => by
        rw [underWay]
        exact mem_append_right _ mem, fun _ _ _ => id⟩
  have known := books.known
  have counted := books.counted.observeAll (repliesOf msg) fun reply mem =>
    known.toFrontend worker reply (sent reply mem)
  constructor
  case counted =>
    dsimp only
    rw [counter, stats]
    exact counted
  case once =>
    intro uid
    have once := books.once uid
    unfold asked at once ⊢
    dsimp only
    rw [listened]
    exact once
  case refusals =>
    dsimp only
    rw [counter]
    exact books.refusals
  case run => exact books.run
  case calm => exact books.calm
  case gates => exact books.gates.step (s.frontend.gates_listen msg)
  case known =>
    dsimp only
    rw [counter]
    exact { known with
      building := by
        intro uid building
        change (desk (s.frontend.listen msg)).building uid = true at building
        rw [listened] at building
        exact known.building uid building
      sending := by
        have sending : (s.frontend.listen msg).sending = s.frontend.sending :=
          congrArg Desk.sending listened
        have queued : (s.frontend.listen msg).sendTokenizer = s.frontend.sendTokenizer :=
          congrArg Desk.sendTokenizer listened
        dsimp only
        rw [sending, queued]
        exact known.sending
      left := by
        have stage : (s.frontend.listen msg).prepareStage = s.frontend.prepareStage :=
          congrArg Desk.prepareStage listened
        dsimp only
        rw [stage]
        exact known.left
      toFrontend := fun other reply mem => known.toFrontend other reply (left other reply mem)
      heard := fun reply mem => (mem_append.mp mem).elim (known.heard reply)
        fun now => known.toFrontend worker reply (sent reply now) }
  case totals =>
    have isSealed : (s.frontend.listen msg).sealedAccounting = s.frontend.sealedAccounting :=
      congrArg Desk.sealedAccounting listened
    dsimp only
    rw [isSealed, stats]
    intro document sealed_
    obtain ⟨idle, prompt, completion⟩ := books.totals document sealed_
    have quiet : ∀ reply ∈ repliesOf msg, reply.mark.Quiet := fun reply mem =>
      (books.quiet idle).1 worker reply (sent reply mem)
    have silent : ∀ value : UserReply → Nat, (∀ reply ∈ repliesOf msg, value reply = 0) →
        ((s.heard ++ repliesOf msg).map value).sum = (s.heard.map value).sum := by
      intro value zero
      rw [map_append, sum_append, map_congr_left zero]
      simp
    refine ⟨?_, ?_, ?_⟩
    · rw [eq_nil_iff_forall_not_mem]
      intro uid mem
      obtain ⟨below, open_⟩ := (counted.inflight uid).mp mem
      have pre : uid ∈ s.frontend.stats.inflight := (books.counted.inflight uid).mpr
        ⟨below, fun ⟨reply, heard, ends⟩ => open_ ⟨reply, mem_append_left _ heard, ends⟩⟩
      rw [idle] at pre
      exact not_mem_nil pre
    · rw [prompt, counted.prompt, books.counted.prompt,
        silent UserReply.promptTokensDelta fun reply mem => (quiet reply mem).1]
    · rw [completion, counted.completion, books.counted.completion,
        silent UserReply.completionTokensDelta fun reply mem => (quiet reply mem).2]
  case wired =>
    have wired := books.wired
    by_cases isDetokenizer : worker = cfg.detokenizer
    · subst isDetokenizer
      have sameWire : wire cfg { s with
          frontend := s.frontend.listen msg
          toFrontend := update s.toFrontend cfg.detokenizer rest
          heard := s.heard ++ repliesOf msg } = wire cfg s := by
        unfold wire
        dsimp only
        rw [update_self, underWay]
        simp only [map_append, append_assoc]
      exact { wired with
        others := fun other ne reply mem => wired.others other ne reply (left other reply mem)
        order := by
          rw [sameWire]
          exact wired.order
        ends := by
          rw [sameWire]
          exact wired.ends }
    · have ended := fun reply mem => wired.others worker isDetokenizer reply (sent reply mem)
      have split : ∀ mark, mark ∈ wire cfg { s with
          frontend := s.frontend.listen msg
          toFrontend := update s.toFrontend worker rest
          heard := s.heard ++ repliesOf msg } → mark ∈ wire cfg s ∨
          mark ∈ (repliesOf msg).map UserReply.mark := by
        unfold wire
        dsimp only
        rw [update_of_ne (Ne.symm isDetokenizer), map_append]
        intro mark mem
        simp only [mem_append] at mem ⊢
        tauto
      exact { wired with
        others := fun other ne reply mem => wired.others other ne reply (left other reply mem)
        order := by
          intro uid unrefused
          rw [← wired.order uid unrefused]
          have none_ : ((repliesOf msg).map UserReply.mark).filter
              (fun mark => mark.uid = uid) = [] := by
            rw [filter_eq_nil_iff]
            intro mark mem isUid
            obtain ⟨reply, inMsg, rfl⟩ := mem_map.mp mem
            have isUid : reply.uid = uid := of_decide_eq_true isUid
            exact unrefused (isUid ▸ (ended reply inMsg).1)
          unfold wire
          dsimp only
          rw [update_of_ne (Ne.symm isDetokenizer), map_append]
          simp only [filter_append, none_, append_nil]
        ends := by
          intro mark mem isRefused
          rcases split mark mem with pre | now
          · exact wired.ends mark pre isRefused
          · obtain ⟨reply, inMsg, rfl⟩ := mem_map.mp now
            exact (ended reply inMsg).2 }

theorem Books.waiting (books : Books cfg cm maxRunningReqs refused events s) {worker uid : Nat}
    (inside : worker < cfg.numTokenizer + 1) (waits : uid ∈ requestsIn (s.inbox worker)) :
    Scheduler.arrivedAs events uid = none ∧ uid ∉ refused := by
  have once := books.once uid
  have pos := count_pos_iff.mpr waits
  have most := Finset.single_le_sum (f := fun worker => (requestsIn (s.inbox worker)).count uid)
    (fun _ _ => Nat.zero_le _) (Finset.mem_range.mpr inside)
  unfold asked at once
  refine ⟨find?_eq_none.mpr fun msg mem same => ?_, count_eq_zero.mp (by omega)⟩
  have arrived := count_pos_iff.mpr (mem_map_of_mem (f := UserMsg.uid) mem)
  rw [of_decide_eq_true same] at arrived
  omega

/-- **A turn of a worker.** -/
theorem Books.work (books : Books cfg cm maxRunningReqs refused events s) {worker : Nat}
    (inside : worker < cfg.numTokenizer + 1) (count : Nat) (texts : Nat → String) :
    Books cfg cm maxRunningReqs (refused ++ (TokenizeWorker.tokenizeRequests cfg.tokenize
      (((s.inbox worker).take count).filterMap TokenizeWorker.tokenize?)).2.map UserReply.uid)
      events { s with
        inbox := Function.update s.inbox worker ((s.inbox worker).drop count)
        toFrontend := Function.update s.toFrontend worker (s.toFrontend worker ++
          (TokenizeWorker.turn cfg.tokenize texts ((s.inbox worker).take count)).1)
        toScheduler := Function.update s.toScheduler worker (s.toScheduler worker ++
          (TokenizeWorker.turn cfg.tokenize texts ((s.inbox worker).take count)).2) } := by
  have known := books.known
  have wired := books.wired
  have sentOn := @TokenizeWorker.repliesOf_turn cfg.tokenize texts
    ((s.inbox worker).take count)
  have marks := @TokenizeWorker.marks_sentOn texts ((s.inbox worker).take count)
  have counts := fun uid => @TokenizeWorker.count_tokenizeRequests cfg.tokenize uid
    (((s.inbox worker).take count).filterMap TokenizeWorker.tokenize?)
  have isEnd := @TokenizeWorker.refused_end cfg.tokenize
    (((s.inbox worker).take count).filterMap TokenizeWorker.tokenize?)
  have msgs : (TokenizeWorker.turn cfg.tokenize texts ((s.inbox worker).take count)).2 =
      (TokenizeWorker.tokenizeRequests cfg.tokenize
        (((s.inbox worker).take count).filterMap TokenizeWorker.tokenize?)).1.map .user ++
        (((s.inbox worker).take count).filterMap TokenizeWorker.abort?).map .abort := rfl
  have cut := take_append_drop count (s.inbox worker)
  generalize (TokenizeWorker.turn cfg.tokenize texts ((s.inbox worker).take count)).1 = replies
    at sentOn ⊢
  generalize (TokenizeWorker.turn cfg.tokenize texts ((s.inbox worker).take count)).2 = passed
    at msgs ⊢
  generalize (s.inbox worker).drop count = later at cut ⊢
  generalize (s.inbox worker).take count = pending at cut marks sentOn counts isEnd msgs ⊢
  generalize pending.filterMap TokenizeWorker.promptAdmitted? ++
    TokenizeWorker.sampledReplies texts pending ++
      pending.filterMap TokenizeWorker.error? = forwarded at sentOn marks
  generalize accepted_ : (TokenizeWorker.tokenizeRequests cfg.tokenize
    (pending.filterMap TokenizeWorker.tokenize?)).1 = accepted at counts msgs
  generalize errors_ : (TokenizeWorker.tokenizeRequests cfg.tokenize
    (pending.filterMap TokenizeWorker.tokenize?)).2 = errors at counts sentOn isEnd ⊢
  have requests : requestsIn (s.inbox worker) = requestsIn pending ++ requestsIn later := by
    unfold requestsIn
    rw [← cut, filterMap_append, map_append]
  have inQueue : repliesIn (s.inbox worker) = repliesIn pending ++ repliesIn later := by
    unfold repliesIn
    rw [← cut, filterMap_append]
  have fromPending : ∀ uid, uid ∈ errors.map UserReply.uid → uid ∈ requestsIn (s.inbox worker) := by
    intro uid mem
    have pos := count_pos_iff.mpr mem
    have split := counts uid
    rw [requests]
    exact mem_append_left _ (count_pos_iff.mp (by unfold requestsIn; omega))
  have forwardedFrom : ∀ reply ∈ forwarded, ∃ origin ∈ repliesIn pending,
      origin.mark = reply.mark := by
    intro reply mem
    have inMarks : reply.mark ∈ (TokenizeWorker.byRank (repliesIn pending)).map Reply.mark := by
      unfold repliesIn
      rw [← marks]
      exact mem_map_of_mem mem
    obtain ⟨origin, inRank, same⟩ := mem_map.mp inMarks
    exact ⟨origin, TokenizeWorker.mem_of_mem_byRank inRank, same⟩
  have belowInbox := known.requests worker
  have inboxNow : ∀ other, ∀ msg ∈ update s.inbox worker later other, msg ∈ s.inbox other :=
    (forall_update_iff s.inbox fun other inbox => ∀ msg ∈ inbox, msg ∈ s.inbox other).mpr
      ⟨fun msg mem => cut ▸ mem_append_right _ mem, fun _ _ _ => id⟩
  have frontendNow : ∀ other, ∀ reply ∈ (update s.toFrontend worker
      (s.toFrontend worker ++ replies) other).flatMap repliesOf,
      reply ∈ (s.toFrontend other).flatMap repliesOf ∨
        other = worker ∧ (reply ∈ forwarded ∨ reply ∈ errors) := by
    refine (forall_update_iff s.toFrontend fun other queue => ∀ reply ∈ queue.flatMap repliesOf,
      reply ∈ (s.toFrontend other).flatMap repliesOf ∨
        other = worker ∧ (reply ∈ forwarded ∨ reply ∈ errors)).mpr
      ⟨fun reply mem => ?_, fun _ _ _ => .inl⟩
    rw [flatMap_append, sentOn] at mem
    simp only [mem_append] at mem
    tauto
  refine { books with refusals := ?refusals, once := ?once, known := ?known, wired := ?wired }
  case refusals =>
    intro uid mem
    rcases mem_append.mp mem with pre | now
    · exact books.refusals uid pre
    · exact belowInbox uid (fromPending uid now)
  case once =>
    intro uid
    have once := books.once uid
    have inbox := sum_update s.inbox (fun inbox => (requestsIn inbox).count uid) inside later
    have sent := sum_update s.toScheduler (fun queue => (queue.filterMap userOf).count uid) inside
      (s.toScheduler worker ++ passed)
    have users : ((s.toScheduler worker ++ passed).filterMap userOf).count uid =
        ((s.toScheduler worker).filterMap userOf).count uid +
          (accepted.map UserMsg.uid).count uid := by
      rw [filterMap_append, count_append, msgs, filterMap_append]
      have users : (accepted.map Msg.user).filterMap userOf = accepted.map UserMsg.uid := by
        rw [filterMap_map]
        exact congrFun filterMap_eq_map accepted
      have aborts : ((pending.filterMap TokenizeWorker.abort?).map Msg.abort).filterMap userOf =
          [] := by
        rw [filterMap_map]
        exact filterMap_eq_nil_iff.mpr fun _ _ => rfl
      rw [users, aborts, append_nil]
    have split := counts uid
    have total := congrArg (List.count uid) requests
    rw [count_append] at total
    unfold asked at once ⊢
    dsimp only at inbox sent ⊢
    rw [users] at sent
    rw [count_append]
    unfold requestsIn at total inbox once ⊢
    omega
  case known =>
    exact { known with
      inbox := fun other msg mem => known.inbox other msg (inboxNow other _ mem)
      replies := by
        intro other reply mem
        obtain ⟨msg, inInbox, isReply⟩ := mem_filterMap.mp mem
        exact known.replies other reply (mem_filterMap.mpr ⟨msg, inboxNow other _ inInbox, isReply⟩)
      toFrontend := by
        intro other reply mem
        rcases frontendNow other reply mem with pre | ⟨rfl, forwards | error⟩
        · exact known.toFrontend other reply pre
        · obtain ⟨origin, inPending, same⟩ := forwardedFrom reply forwards
          have uid : origin.uid = reply.uid :=
            (Reply.mark_uid origin).symm.trans (congrArg Mark.uid same)
          rw [← uid]
          refine known.replies other origin ?_
          rw [inQueue]
          exact mem_append_left _ inPending
        · exact belowInbox _ (fromPending _ (mem_map_of_mem error))
      toScheduler := by
        refine (forall_update_iff s.toScheduler fun _ queue => ∀ msg ∈ queue,
          msgUid msg < s.frontend.uidCounter).mpr ⟨fun msg mem => ?_,
            fun other _ => known.toScheduler other⟩
        rcases mem_append.mp mem with pre | now
        · exact known.toScheduler worker msg pre
        rw [msgs] at now
        rcases mem_append.mp now with user | abort
        · obtain ⟨asking, inAccepted, rfl⟩ := mem_map.mp user
          refine belowInbox _ ?_
          rw [requests]
          refine mem_append_left _ (count_pos_iff.mp ?_)
          have pos := count_pos_iff.mpr (mem_map_of_mem (f := UserMsg.uid) inAccepted)
          have split := counts asking.uid
          unfold requestsIn
          show 0 < List.count asking.uid _
          omega
        · obtain ⟨uid, inAborts, rfl⟩ := mem_map.mp abort
          obtain ⟨queued, inPending, isAbort⟩ := mem_filterMap.mp inAborts
          have inInbox : queued ∈ s.inbox worker := by
            rw [← cut]
            exact mem_append_left _ inPending
          cases queued with
          | request request =>
            cases request with
            | abort =>
              cases isAbort
              exact known.inbox worker _ inInbox _ rfl
            | tokenize | cacheRebuild => cases isAbort
          | reply => cases isAbort }
  case wired =>
    have isNow : ∀ reply ∈ errors, reply.uid ∈ refused ++ errors.map UserReply.uid :=
      fun reply mem => mem_append_right _ (mem_map_of_mem mem)
    have quietBefore : ∀ mark ∈ wire cfg s, mark.uid ∈ refused ++ errors.map UserReply.uid →
        mark = Mark.end mark.uid := by
      intro mark mem isRefused
      rcases mem_append.mp isRefused with pre | now
      · exact wired.ends mark mem pre
      · obtain ⟨unarrived, unrefused⟩ := books.waiting inside (fromPending mark.uid now)
        have inOut : mark ∈ (s.scheduler.out.map Reply.mark).filter fun other =>
            other.uid = mark.uid := by
          rw [← wired.order mark.uid unrefused]
          exact mem_filter.mpr ⟨mem, decide_eq_true rfl⟩
        obtain ⟨reply, sent, rfl⟩ := mem_map.mp (mem_filter.mp inOut).1
        rw [Reply.mark_uid] at unarrived ⊢
        exact (out_unarrived books.run books.unique books.calm sent unarrived).1
    have idleStill : ∀ other, cfg.numTokenizer < other → update s.inbox worker later other = [] ∧
        update s.toScheduler worker (s.toScheduler worker ++ passed) other = [] := by
      intro other beyond
      have apart : other ≠ worker := by omega
      rw [update_of_ne apart, update_of_ne apart]
      exact wired.idle other beyond
    by_cases isDetokenizer : worker = cfg.detokenizer
    · subst isDetokenizer
      have wireNow : wire cfg { s with
          inbox := update s.inbox cfg.detokenizer later
          toFrontend := update s.toFrontend cfg.detokenizer
            (s.toFrontend cfg.detokenizer ++ replies)
          toScheduler := update s.toScheduler cfg.detokenizer
            (s.toScheduler cfg.detokenizer ++ passed) } =
          s.heard.map UserReply.mark ++
            (((s.toFrontend cfg.detokenizer).flatMap repliesOf).map UserReply.mark ++
              ((TokenizeWorker.byRank (repliesIn pending)).map Reply.mark ++
                (errors.map UserReply.mark ++ (repliesIn later).map Reply.mark))) := by
        unfold wire
        dsimp only
        rw [update_self, update_self, flatMap_append, sentOn, map_append, map_append, marks]
        simp only [append_assoc]
        rfl
      have wireWas : wire cfg s = s.heard.map UserReply.mark ++
          (((s.toFrontend cfg.detokenizer).flatMap repliesOf).map UserReply.mark ++
            ((repliesIn pending).map Reply.mark ++ (repliesIn later).map Reply.mark)) := by
        unfold wire
        rw [inQueue, map_append]
      constructor
      case idle => exact idleStill
      case requests =>
        intro other ne
        dsimp only
        rw [update_of_ne ne]
        exact wired.requests other ne
      case others =>
        intro other ne reply mem
        change reply ∈ (update s.toFrontend cfg.detokenizer
          (s.toFrontend cfg.detokenizer ++ replies) other).flatMap repliesOf at mem
        rw [update_of_ne ne] at mem
        obtain ⟨isRefused, quiet⟩ := wired.others other ne reply mem
        exact ⟨mem_append_left _ isRefused, quiet⟩
      case order =>
        intro uid unrefused
        rw [mem_append, not_or] at unrefused
        have was := wired.order uid unrefused.1
        have none_ : (errors.map UserReply.mark).filter (fun mark => mark.uid = uid) = [] := by
          rw [filter_eq_nil_iff]
          intro mark mem isUid
          obtain ⟨reply, inErrors, rfl⟩ := mem_map.mp mem
          have isUid : reply.uid = uid := of_decide_eq_true isUid
          exact unrefused.2 (isUid ▸ mem_map_of_mem inErrors)
        -- what waits for the turn is a piece of what the scheduler sent, and in order
        have inOrder : TokenizeWorker.byRank ((repliesIn pending).filter fun reply =>
            reply.uid = uid) = (repliesIn pending).filter fun reply => reply.uid = uid := by
          have pairs := before_out books.run books.unique books.calm uid
          rw [← was, wireWas] at pairs
          simp only [filter_append] at pairs
          have piece := (pairwise_append.mp (pairwise_append.mp (pairwise_append.mp
            pairs).2.1).2.1).1
          rw [filter_marks] at piece
          exact TokenizeWorker.byRank_of_pairwise piece
        have sorted : ((TokenizeWorker.byRank (repliesIn pending)).map Reply.mark).filter
            (fun mark => mark.uid = uid) =
            ((repliesIn pending).map Reply.mark).filter fun mark => mark.uid = uid := by
          rw [filter_marks, filter_marks, TokenizeWorker.byRank_filter, inOrder]
        rw [wireNow, ← was, wireWas]
        simp only [filter_append, none_, sorted, nil_append]
      case ends =>
        intro mark mem isRefused
        rw [wireNow] at mem
        have known : mark ∈ wire cfg s ∨ mark ∈ errors.map UserReply.mark := by
          rw [wireWas]
          simp only [mem_append] at mem ⊢
          rcases mem with heard | sent | ranked | error | rest
          · exact .inl (.inl heard)
          · exact .inl (.inr (.inl sent))
          · obtain ⟨reply, inRank, rfl⟩ := mem_map.mp ranked
            exact .inl (.inr (.inr (.inl (mem_map_of_mem
              (TokenizeWorker.mem_of_mem_byRank inRank)))))
          · exact .inr error
          · exact .inl (.inr (.inr (.inr rest)))
        rcases known with pre | now
        · exact quietBefore mark pre isRefused
        · obtain ⟨reply, inErrors, rfl⟩ := mem_map.mp now
          exact isEnd reply inErrors
    · have none_ : forwarded = [] := by
        have nothing : repliesIn pending = [] := by
          have empty := wired.requests worker isDetokenizer
          rw [inQueue] at empty
          exact (append_eq_nil_iff.mp empty).1
        refine map_eq_nil_iff.mp (marks.trans ?_)
        unfold repliesIn at nothing
        rw [nothing]
        rfl
      have sameWire : wire cfg { s with
          inbox := update s.inbox worker later
          toFrontend := update s.toFrontend worker (s.toFrontend worker ++ replies)
          toScheduler := update s.toScheduler worker
            (s.toScheduler worker ++ passed) } = wire cfg s := by
        unfold wire
        dsimp only
        rw [update_of_ne (Ne.symm isDetokenizer), update_of_ne (Ne.symm isDetokenizer)]
      constructor
      case idle => exact idleStill
      case requests =>
        refine (forall_update_iff s.inbox fun other inbox => other ≠ cfg.detokenizer →
          repliesIn inbox = []).mpr ⟨fun ne => ?_, fun other _ => wired.requests other⟩
        have empty := wired.requests worker ne
        rw [inQueue] at empty
        exact (append_eq_nil_iff.mp empty).2
      case others =>
        intro other ne reply mem
        rcases frontendNow other reply mem with pre | ⟨-, forwards | error⟩
        · obtain ⟨isRefused, quiet⟩ := wired.others other ne reply pre
          exact ⟨mem_append_left _ isRefused, quiet⟩
        · rw [none_] at forwards
          cases forwards
        · exact ⟨isNow reply error, isEnd reply error⟩
      case order =>
        intro uid unrefused
        rw [sameWire]
        exact wired.order uid fun pre => unrefused (mem_append_left _ pre)
      case ends =>
        rw [sameWire]
        exact quietBefore

/-! ### A step of the scheduler -/

theorem run_snoc {start last : Scheduler} {events : List Scheduler.Event}
    (run : Scheduler.Run cfg.scheduler start events last) :
    events = [] ∧ last = start ∨ ∃ pre event mid, events = pre ++ [event] ∧
      Scheduler.Run cfg.scheduler start pre mid ∧
      mid.step cfg.scheduler event = .ok last := by
  cases run with
  | nil => exact .inl ⟨rfl, rfl⟩
  | snoc run _ step => exact .inr ⟨_, _, _, rfl, run, step⟩

theorem run_unique {start first second : Scheduler} {events : List Scheduler.Event}
    (run : Scheduler.Run cfg.scheduler start events first)
    (other : Scheduler.Run cfg.scheduler start events second) : first = second := by
  induction run generalizing second with
  | nil =>
    rcases run_snoc other with ⟨-, same⟩ | ⟨pre, event, mid, split, -, -⟩
    · exact same.symm
    · exact absurd split.symm (append_ne_nil_of_right_ne_nil _ (cons_ne_nil _ _))
  | snoc run _ step ih =>
    rcases run_snoc other with ⟨nothing, -⟩ | ⟨pre, event, mid, split, prev, step'⟩
    · exact absurd nothing (append_ne_nil_of_right_ne_nil _ (cons_ne_nil _ _))
    · obtain ⟨rfl, last⟩ := append_inj' split rfl
      obtain rfl := cons.inj last |>.1
      obtain rfl := ih prev
      exact Except.ok.inj (step.symm.trans step')

theorem calm_snoc {start last : Scheduler} {events : List Scheduler.Event}
    {event : Scheduler.Event} (calm : Scheduler.Calm cfg.scheduler start events)
    (run : Scheduler.Run cfg.scheduler start (events ++ [event]) last)
    (room : last.abortTombstones.length < Scheduler.tombstoneCap) :
    Scheduler.Calm cfg.scheduler start (events ++ [event]) := by
  intro pre state isPrefix reached
  rcases prefix_concat_iff.mp isPrefix with same | shorter
  · rw [same] at reached
    rw [run_unique reached run]
    exact room
  · exact calm pre state shorter reached

/-- **A step of the scheduler**, with the queue that its message was taken off. -/
theorem Books.scheduled (books : Books cfg cm maxRunningReqs refused events s)
    {toScheduler : Nat → List Msg} {event : Scheduler.Event} {scheduler : Scheduler}
    (enabled : s.scheduler.enabled event = true)
    (step : s.scheduler.step cfg.scheduler event = .ok scheduler)
    (room : scheduler.abortTombstones.length < Scheduler.tombstoneCap)
    (received : ∀ msg, event = .recv msg → msgUid msg < s.frontend.uidCounter)
    (sent : ∀ worker, ∀ msg ∈ toScheduler worker, msg ∈ s.toScheduler worker)
    (once : ∀ uid, asked cfg refused (events ++ [event])
      { s with toScheduler := toScheduler } uid ≤ 1) :
    Books cfg cm maxRunningReqs refused (events ++ [event]) { s with
      toScheduler := toScheduler
      scheduler := scheduler
      inbox := Function.update s.inbox cfg.detokenizer (s.inbox cfg.detokenizer ++
        (scheduler.out.drop s.scheduler.out.length).map .reply) } := by
  obtain ⟨control, phase⟩ := Scheduler.control_run books.run
  obtain ⟨more, out⟩ := step_out control phase enabled step
  have run := Scheduler.Run.snoc books.run enabled step
  have calm := calm_snoc books.calm run room
  have known := books.known
  have wired := books.wired
  have added : scheduler.out.drop s.scheduler.out.length = more := by rw [out, drop_left]
  rw [added]
  have noRequest : (more.map WorkerMsg.reply).filterMap TokenizeWorker.tokenize? = [] := by
    rw [filterMap_map]
    exact filterMap_eq_nil_iff.mpr fun _ _ => rfl
  have replies : repliesIn (s.inbox cfg.detokenizer ++ more.map .reply) =
      repliesIn (s.inbox cfg.detokenizer) ++ more := by
    unfold repliesIn
    rw [filterMap_append, filterMap_map]
    exact congrArg _ (filterMap_some)
  have once' : ∀ uid, asked cfg refused (events ++ [event]) { s with
      toScheduler := toScheduler
      scheduler := scheduler
      inbox := update s.inbox cfg.detokenizer (s.inbox cfg.detokenizer ++
        more.map .reply) } uid ≤ 1 := by
    intro uid
    have pre := once uid
    have moved := sum_update s.inbox (fun inbox => (requestsIn inbox).count uid)
      (show cfg.detokenizer < cfg.numTokenizer + 1 from Nat.lt_succ_self _)
      (s.inbox cfg.detokenizer ++ more.map .reply)
    have same : requestsIn (s.inbox cfg.detokenizer ++ more.map .reply) =
        requestsIn (s.inbox cfg.detokenizer) := by
      unfold requestsIn
      rw [filterMap_append, noRequest, append_nil]
    unfold asked at pre ⊢
    dsimp only at pre moved ⊢
    rw [same] at moved
    omega
  have unique := arrivals_unique once'
  have receivedNow : ∀ msg, .recv msg ∈ events ++ [event] → msgUid msg < s.frontend.uidCounter :=
    fun msg mem => (mem_append.mp mem).elim (known.received msg)
      fun now => received msg (mem_singleton.mp now).symm
  have moreOut : ∀ reply ∈ more, reply ∈ scheduler.out := fun reply mem => by
    rw [out]
    exact mem_append_right _ mem
  have wireNow : wire cfg { s with
      toScheduler := toScheduler
      scheduler := scheduler
      inbox := update s.inbox cfg.detokenizer (s.inbox cfg.detokenizer ++
        more.map .reply) } = wire cfg s ++ more.map Reply.mark := by
    unfold wire
    dsimp only
    rw [update_self, replies, map_append]
    simp only [append_assoc]
  refine { books with once := once', run := run, calm := calm, known := ?known, wired := ?wired }
  case known =>
    exact { known with
      toScheduler := fun worker msg mem => known.toScheduler worker msg (sent worker msg mem)
      received := receivedNow
      inbox := by
        refine (forall_update_iff s.inbox fun _ inbox => ∀ msg, .request msg ∈ inbox → ∀ uid,
          uidOf msg = some uid → uid < s.frontend.uidCounter).mpr ⟨fun msg mem => ?_,
            fun worker _ => known.inbox worker⟩
        rcases mem_append.mp mem with pre | now
        · exact known.inbox _ msg pre
        · obtain ⟨reply, -, absurd⟩ := mem_map.mp now
          cases absurd
      replies := by
        refine (forall_update_iff s.inbox fun _ inbox => ∀ reply ∈ repliesIn inbox,
          reply.uid < s.frontend.uidCounter).mpr ⟨fun reply mem => ?_,
            fun worker _ => known.replies worker⟩
        rw [replies] at mem
        rcases mem_append.mp mem with pre | now
        · exact known.replies _ reply pre
        · obtain ⟨msg, inEvents, isUid⟩ := out_received run unique calm (moreOut reply now)
          rw [← isUid]
          exact receivedNow msg inEvents }
  case wired =>
    constructor
    case idle =>
      intro worker beyond
      obtain ⟨inbox, queue⟩ := wired.idle worker beyond
      dsimp only
      rw [update_of_ne (by unfold ServingConfig.detokenizer; omega)]
      refine ⟨inbox, eq_nil_iff_forall_not_mem.mpr fun msg mem => ?_⟩
      have pre := sent worker msg mem
      rw [queue] at pre
      exact not_mem_nil pre
    case requests =>
      intro worker ne
      dsimp only
      rw [update_of_ne ne]
      exact wired.requests worker ne
    case others => exact wired.others
    case order =>
      intro uid unrefused
      rw [wireNow, out, map_append, filter_append, filter_append, wired.order uid unrefused]
    case ends =>
      intro mark mem isRefused
      rw [wireNow] at mem
      rcases mem_append.mp mem with pre | now
      · exact wired.ends mark pre isRefused
      · obtain ⟨reply, inMore, rfl⟩ := mem_map.mp now
        rw [Reply.mark_uid] at isRefused ⊢
        exact (out_unarrived run unique calm (moreOut reply inMore)
          (refused_unarrived once' isRefused)).1

end Invariant

/-! ### Runs of the server -/

def Calm (cfg : ServingConfig) (start : Serving) (events : List Event) : Prop :=
  ∀ pre state, pre <+: events → run cfg start pre = some state →
    state.scheduler.abortTombstones.length < Scheduler.tombstoneCap

section Runs

variable {cfg : ServingConfig} {cm : CacheManager} {maxRunningReqs limit : Nat} {instanceId : String}
  {servedModelName : Option String} {refused : List Nat} {received : List Scheduler.Event}
  {s next : Serving} {events : List Event}

theorem Books.initial : Books cfg cm maxRunningReqs [] []
    (initial instanceId servedModelName limit cm maxRunningReqs) where
  counted := Counted.initial
  once := by
    intro uid
    have nothing : asked cfg [] [] (Serving.initial instanceId servedModelName limit cm
        maxRunningReqs) uid = 0 := by
      unfold asked
      have front : atDesk (desk (Serving.initial instanceId servedModelName limit cm
          maxRunningReqs).frontend) uid = 0 := rfl
      have inboxes : (∑ worker ∈ Finset.range (cfg.numTokenizer + 1),
          (requestsIn ((Serving.initial instanceId servedModelName limit cm
            maxRunningReqs).inbox worker)).count uid) = 0 := Finset.sum_eq_zero fun _ _ => rfl
      have queues : (∑ worker ∈ Finset.range (cfg.numTokenizer + 1),
          (((Serving.initial instanceId servedModelName limit cm
            maxRunningReqs).toScheduler worker).filterMap userOf).count uid) = 0 :=
        Finset.sum_eq_zero fun _ _ => rfl
      rw [front, inboxes, queues]
      rfl
    rw [nothing]
    exact Nat.zero_le 1
  known := {
    building := fun uid building => nomatch building
    sending := fun _ mem => nomatch mem
    left := fun _ absurd => nomatch absurd
    inbox := fun _ _ mem => nomatch mem
    replies := fun _ _ mem => nomatch mem
    toFrontend := fun _ _ mem => nomatch mem
    toScheduler := fun _ _ mem => nomatch mem
    received := fun _ mem => nomatch mem
    heard := fun _ mem => nomatch mem }
  refusals := fun _ mem => nomatch mem
  wired := {
    idle := fun _ _ => ⟨rfl, rfl⟩
    requests := fun _ _ => rfl
    others := fun _ _ _ mem => nomatch mem
    order := fun _ _ => rfl
    ends := fun _ mem => nomatch mem }
  run := Scheduler.Run.nil
  calm := by
    intro pre state isPrefix run
    obtain rfl := prefix_nil.mp isPrefix
    rcases run_snoc run with ⟨-, rfl⟩ | ⟨_, _, _, split, -, -⟩
    · show 0 < Scheduler.tombstoneCap
      exact Nat.zero_lt_succ _
    · exact absurd split.symm (append_ne_nil_of_right_ne_nil _ (cons_ne_nil _ _))
  gates := Frontend.sound_initial instanceId servedModelName limit
  totals := fun _ absurd => nomatch absurd

/-- **A step keeps the books.** -/
theorem Books.step (books : Books cfg cm maxRunningReqs refused received s) {event : Event}
    (taken : s.step cfg event = some next)
    (room : next.scheduler.abortTombstones.length < Scheduler.tombstoneCap) :
    ∃ refused received, Books cfg cm maxRunningReqs refused received next := by
  -- a step of the scheduler that receives no request
  have scheduled : ∀ event : Scheduler.Event, Scheduler.arrivals [event] = [] →
      (∀ msg, event ≠ .recv msg) → schedulerStep cfg s event = some next →
      ∃ refused received, Books cfg cm maxRunningReqs refused received next := by
    intro event silent quiet taken
    unfold schedulerStep at taken
    obtain ⟨enabled, taken⟩ := Option.ite_none_right_eq_some.mp taken
    split at taken
    · next scheduler step =>
      cases taken
      refine ⟨refused, received ++ [event], books.scheduled enabled step room
        (fun msg isRecv => absurd isRecv (quiet msg)) (fun _ _ mem => mem) fun uid => ?_⟩
      have once := books.once uid
      unfold asked at once ⊢
      rw [Scheduler.arrivals_append, silent, append_nil]
      exact once
    · cases taken
  cases event with
  | frontend event =>
    obtain ⟨isOrdinary, taken⟩ := Option.ite_none_right_eq_some.mp taken
    obtain ⟨frontend, step, rfl⟩ := Option.map_eq_some_iff.mp taken
    exact ⟨refused, received, books.frontend isOrdinary step⟩
  | route worker =>
    simp only [Serving.step] at taken
    split at taken
    · cases taken
    · next msg rest queue =>
      obtain ⟨reaches, ⟨⟩⟩ := Option.ite_none_right_eq_some.mp taken
      exact ⟨refused, received, books.route queue reaches⟩
  | work worker count texts =>
    cases taken
    by_cases inside : worker < cfg.numTokenizer + 1
    · exact ⟨_, received, books.work inside count texts⟩
    · obtain ⟨inbox, queue⟩ := books.wired.idle worker (by omega)
      -- a worker that does not exist has nothing to do
      have stays : ({ s with
          inbox := update s.inbox worker ((s.inbox worker).drop count)
          toFrontend := update s.toFrontend worker (s.toFrontend worker ++
            (TokenizeWorker.turn cfg.tokenize texts ((s.inbox worker).take count)).1)
          toScheduler := update s.toScheduler worker (s.toScheduler worker ++
            (TokenizeWorker.turn cfg.tokenize texts ((s.inbox worker).take count)).2) } :
          Serving) = s := by
        have nothing : TokenizeWorker.turn cfg.tokenize texts ((s.inbox worker).take count) =
            ([], []) := by
          rw [inbox, take_nil]
          rfl
        have same : (s.inbox worker).drop count = s.inbox worker := by rw [inbox, drop_nil]
        rw [nothing, same, append_nil, append_nil, update_eq_self, update_eq_self, update_eq_self]
      exact ⟨refused, received, stays.symm ▸ books⟩
  | hear worker =>
    simp only [Serving.step] at taken
    split at taken
    · cases taken
    · next msg rest queue =>
      cases taken
      exact ⟨refused, received, books.hear queue⟩
  | recv worker =>
    simp only [Serving.step] at taken
    split at taken
    · cases taken
    · next msg rest queue =>
      have inside : worker < cfg.numTokenizer + 1 := by
        by_contra beyond
        have idle := (books.wired.idle worker (by omega)).2
        rw [queue] at idle
        cases idle
      unfold schedulerStep at taken
      obtain ⟨enabled, taken⟩ := Option.ite_none_right_eq_some.mp taken
      split at taken
      · next scheduler step =>
        cases taken
        refine ⟨refused, received ++ [.recv msg], books.scheduled enabled step room ?_ ?_ ?_⟩
        · intro other same
          obtain rfl := Scheduler.Event.recv.inj same
          refine books.known.toScheduler worker msg ?_
          rw [queue]
          exact mem_cons_self
        · exact (forall_update_iff s.toScheduler fun other queue => ∀ msg ∈ queue,
            msg ∈ s.toScheduler other).mpr ⟨fun kept mem => queue ▸ mem_cons_of_mem _ mem,
              fun _ _ _ => id⟩
        · intro uid
          have once := books.once uid
          have moved := sum_update s.toScheduler
            (fun queue => (queue.filterMap userOf).count uid) inside rest
          have taken : ((s.toScheduler worker).filterMap userOf).count uid =
              (rest.filterMap userOf).count uid +
                ((Scheduler.arrivals [.recv msg]).map UserMsg.uid).count uid := by
            rw [queue]
            cases msg with
            | user msg => exact count_cons.trans (congrArg _ count_singleton.symm)
            | abort => rfl
          unfold asked at once ⊢
          dsimp only at moved ⊢
          rw [Scheduler.arrivals_append, map_append, count_append]
          omega
      · cases taken
  | launch nextTokens | drain => exact scheduled _ rfl (fun _ same => by cases same) taken

theorem books_run (taken : run cfg (Serving.initial instanceId servedModelName limit cm
    maxRunningReqs) events = some s)
    (calm : Calm cfg (Serving.initial instanceId servedModelName limit cm maxRunningReqs) events) :
    ∃ refused received, Books cfg cm maxRunningReqs refused received s := by
  induction events using reverseRecOn generalizing s with
  | nil =>
    obtain rfl := Option.some.inj taken
    exact ⟨[], [], Books.initial⟩
  | append_singleton events event ih =>
    have room := calm _ _ prefix_rfl taken
    unfold run at taken
    rw [foldlM_append, Option.bind_eq_bind, Option.bind_eq_some_iff] at taken
    obtain ⟨mid, prev, last⟩ := taken
    obtain ⟨refused, received, books⟩ := ih prev fun pre state isPrefix =>
      calm pre state (isPrefix.trans (prefix_append events [event]))
    have step : mid.step cfg event = some s := by simpa using last
    exact books.step step room

theorem sum_eq_zero_of_quiet {value : Mark → Nat} {marks : List Mark}
    (nothing : ∀ mark ∈ marks, value mark = 0) : (marks.map value).sum = 0 :=
  sum_eq_zero fun total mem => by
    obtain ⟨mark, inMarks, rfl⟩ := mem_map.mp mem
    exact nothing mark inMarks

theorem Books.sum_heard (books : Books cfg cm maxRunningReqs refused received s)
    (idle : s.frontend.stats.inflight = []) (value : Mark → Nat)
    (quiet : ∀ mark : Mark, mark.Quiet → value mark = 0) :
    ((s.heard.map UserReply.mark).map value).sum = ((s.scheduler.out.map Reply.mark).map value).sum := by
  obtain ⟨sent, queued⟩ := books.quiet idle
  have silent : (((((s.toFrontend cfg.detokenizer).flatMap repliesOf).map UserReply.mark) ++
      (repliesIn (s.inbox cfg.detokenizer)).map Reply.mark).map value).sum = 0 := by
    refine sum_eq_zero_of_quiet fun mark mem => quiet mark ?_
    rcases mem_append.mp mem with first | second
    · obtain ⟨reply, inQueue, rfl⟩ := mem_map.mp first
      exact sent _ reply inQueue
    · obtain ⟨reply, inQueue, rfl⟩ := mem_map.mp second
      exact queued reply inQueue
  have whole : ((wire cfg s).map value).sum = ((s.heard.map UserReply.mark).map value).sum := by
    unfold wire
    rw [map_append, sum_append, silent, add_zero]
  rw [← whole]
  refine sum_of_uids value fun uid => ?_
  by_cases isRefused : uid ∈ refused
  · -- what a worker refused only ends, and the scheduler does not know it
    have heard : (((wire cfg s).filter fun mark => mark.uid = uid).map value).sum = 0 := by
      refine sum_eq_zero_of_quiet fun mark mem => quiet mark ?_
      obtain ⟨inWire, isUid⟩ := mem_filter.mp mem
      rw [books.wired.ends mark inWire (of_decide_eq_true isUid ▸ isRefused)]
      exact Mark.quiet_end _
    have told : (((s.scheduler.out.map Reply.mark).filter fun mark => mark.uid = uid).map value).sum
        = 0 := by
      refine sum_eq_zero_of_quiet fun mark mem => quiet mark ?_
      obtain ⟨inMarks, isUid⟩ := mem_filter.mp mem
      obtain ⟨reply, inOut, rfl⟩ := mem_map.mp inMarks
      rw [decide_eq_true_iff, Reply.mark_uid] at isUid
      have absent := refused_unarrived books.once isRefused
      rw [← isUid] at absent
      rw [(out_unarrived books.run books.unique books.calm inOut absent).1]
      exact Mark.quiet_end _
    rw [heard, told]
  · rw [books.wired.order uid isRefused]

/-- **The accounting barrier.** As long as the scheduler keeps fewer tombstones than its cap: with
nothing in flight the last reply of every admitted request was counted; the sealed totals are the
sums of the tokens in everything that the scheduler ever sends; and the completed requests are those
whose last reply was counted and that were not aborted before. -/
theorem accounting_barrier (taken : run cfg (Serving.initial instanceId servedModelName limit cm
    maxRunningReqs) events = some s)
    (calm : Calm cfg (Serving.initial instanceId servedModelName limit cm maxRunningReqs) events) :
    (s.frontend.stats.active = 0 → ∀ uid < s.frontend.uidCounter, Ended s.heard uid) ∧
      (∀ document, s.frontend.sealedAccounting = some document →
        document.promptTokensTotal = (s.scheduler.out.map fun reply => reply.mark.prompt).sum ∧
          document.completionTokensTotal =
            (s.scheduler.out.map fun reply => reply.mark.completion).sum) ∧
      s.frontend.stats.completed = ((Finset.range s.frontend.uidCounter).filter fun uid =>
        Ended s.heard uid ∧ uid ∉ s.aborted).card := by
  obtain ⟨refused, received, books⟩ := books_run taken calm
  refine ⟨fun idle uid below => ?_, fun document isSealed => ?_, books.counted.completed⟩
  · by_contra live
    have inFlight := (books.counted.inflight uid).mpr ⟨below, live⟩
    rw [eq_nil_of_length_eq_zero idle] at inFlight
    exact not_mem_nil inFlight
  · obtain ⟨idle, prompt, completion⟩ := books.totals document isSealed
    have prompts := books.sum_heard idle Mark.prompt fun _ quiet => quiet.1
    have completions := books.sum_heard idle Mark.completion fun _ quiet => quiet.2
    rw [map_map, map_map] at prompts completions
    exact ⟨prompt.trans (books.counted.prompt.trans prompts),
      completion.trans (books.counted.completion.trans completions)⟩

def plainServing : ServingConfig where
  scheduler := Scheduler.plainConfig
  numTokenizer := 2
  tokenize := fun _ => .ok [1]

def plainStart : Serving := Serving.initial "server" none 0 Scheduler.plainCache 2

def plainRequest (uid : Nat) : TokenizeMsg := ⟨uid, "hi", ⟨false, 1, []⟩⟩

def plainEvents : List Event :=
  [.frontend (.backendReady 0), .frontend .admitGeneration,
    .frontend (.sendTokenize (plainRequest 0)), .frontend (.putDone (.tokenize (plainRequest 0))),
    .frontend .prepareStop, .route 0, .work 0 1 fun _ => "", .recv 0, .launch fun _ => 4,
    .launch fun _ => 9, .drain, .drain, .work 2 2 fun _ => "word", .hear 2, .hear 2,
    .frontend (.drained 5)]

/-- The totals of one prompt token and one more are sealed, and one request was completed. -/
theorem accounting_barrier_plain : ∃ s, run plainServing plainStart plainEvents = some s ∧
    s.frontend.sealedAccounting = some ⟨"server", none, 1, 1, 0, true⟩ ∧
    (s.scheduler.out.map fun reply => reply.mark.prompt).sum = 1 ∧
    s.frontend.stats.completed = ((Finset.range s.frontend.uidCounter).filter fun uid =>
      Ended s.heard uid ∧ uid ∉ s.aborted).card := by
  have taken : run plainServing plainStart plainEvents = some _ := rfl
  have calm : Calm plainServing plainStart plainEvents := by
    have few : plainEvents.inits.all (fun pre => (run plainServing plainStart pre).all
        fun state => state.scheduler.abortTombstones.length < Scheduler.tombstoneCap) := rfl
    intro pre state isPrefix reached
    have each := all_eq_true.mp few pre ((mem_inits _ _).mpr isPrefix)
    rw [reached] at each
    exact of_decide_eq_true each
  obtain ⟨-, totals, completed⟩ := accounting_barrier taken calm
  exact ⟨_, taken, rfl, (totals _ rfl).1.symm, completed⟩

end Runs

/-! ### A request later than the tombstone of its abort -/

def idleScheduler (tombstones acks : List Nat) (out : List Reply) : Scheduler :=
  { Scheduler.new Scheduler.plainCache 2 with
    abortTombstones := tombstones
    pendingAbortAcks := acks
    out := out }

/-- A request waits with the first tokenizer, while everything else is idle. -/
structure Overdue (n : Nat) (tombstones : List Nat) (s : Serving) : Prop where
  gates : s.frontend.gates = ⟨.serving, none, none, n, none, none⟩
  ungated : s.frontend.generationGate = none
  sending : s.frontend.sending = [] ∧ s.frontend.sendTokenizer = []
  idle : s.frontend.stats.inflight = []
  prompt : s.frontend.stats.promptTokensTotal = 0
  late : s.inbox 0 = [.request (.tokenize (plainRequest 0))]
  inbox : s.inbox 1 = [] ∧ s.inbox 2 = []
  toFrontend : s.toFrontend 2 = []
  toScheduler : s.toScheduler 0 = [] ∧ s.toScheduler 1 = []
  scheduler : ∃ out, s.scheduler = idleScheduler tombstones [] out ∧
    (out.map fun reply => reply.mark.prompt).sum = 0

def abortRound (uid : Nat) : List Event :=
  [.frontend .admitGeneration, .frontend (.abortUser uid), .frontend (.putDone (.abort uid)),
    .route 1, .work 1 1 fun _ => "", .recv 1, .launch fun _ => 0, .work 2 1 fun _ => "", .hear 2]

variable {n : Nat} {tombstones : List Nat} {s : Serving}

theorem idle_abort (uid : Nat) (out : List Reply) :
    (idleScheduler tombstones [] out).step Scheduler.plainConfig (.recv (.abort uid)) =
      .ok (idleScheduler (Scheduler.entomb tombstones uid) [uid] out) := by
  show (idleScheduler tombstones [] out).processAbort uid = _
  unfold Scheduler.processAbort
  have same : (idleScheduler tombstones [] out).abortTombstones = tombstones := rfl
  rw [same]
  -- the cap is a large number, which nothing here has to look at
  generalize Scheduler.entomb tombstones uid = entombed
  rfl

def ackOf (uid : Nat) : Reply :=
  .errorReply uid "request aborted" none (Scheduler.new Scheduler.plainCache 2).usage

theorem idle_launch (uid : Nat) (out : List Reply) :
    (idleScheduler tombstones [uid] out).step Scheduler.plainConfig (.launch fun _ => 0) =
      .ok (idleScheduler tombstones [] (out ++ [ackOf uid])) := rfl

theorem generationGate_listen {frontend : Frontend} (reply : UserReply)
    (ungated : frontend.generationGate = none) :
    (frontend.listen (.userReplies [reply])).generationGate = none := by
  show (frontend.hear reply).generationGate = none
  unfold Frontend.hear Frontend.releaseGenerationSlot
  dsimp only
  split
  · split
    · split
      · simp [ungated]
      · exact ungated
    · exact ungated
  · split
    · split
      · simp [ungated]
      · exact ungated
    · exact ungated

theorem observe_last {stats : StatsTracker} {reply : UserReply} (last : reply.finished = true)
    (only : stats.inflight = [reply.uid]) : (stats.observe reply).inflight = [] ∧
      (stats.observe reply).promptTokensTotal =
        stats.promptTokensTotal + reply.promptTokensDelta := by
  obtain ⟨inflight, -, -, prompt, -⟩ := Counted.counts stats reply
  unfold StatsTracker.observe
  generalize (stats.countTokens reply).recordUsage reply = noted at inflight prompt ⊢
  have emptied : noted.inflight.erase reply.uid = [] := by
    rw [inflight, only]
    exact erase_cons_head (a := reply.uid) (l := [])
  have known : reply.uid ∈ noted.inflight := by
    rw [inflight, only]
    exact mem_singleton_self _
  dsimp only
  rw [if_pos last]
  unfold StatsTracker.countTerminal
  rw [if_pos known]
  dsimp only
  split
  · exact ⟨emptied, prompt⟩
  · exact ⟨emptied, prompt⟩

theorem onAbort_onNewUser {stats : StatsTracker} (uid : Nat) (idle : stats.inflight = []) :
    ((stats.onNewUser uid).onAbort uid).inflight = [uid] ∧
      ((stats.onNewUser uid).onAbort uid).promptTokensTotal = stats.promptTokensTotal := by
  have only : (stats.onNewUser uid).inflight = [uid] := by simp [StatsTracker.onNewUser, idle]
  unfold StatsTracker.onAbort
  split
  · exact ⟨only, rfl⟩
  · exact ⟨only, rfl⟩

theorem Overdue.round (overdue : Overdue n tombstones s) :
    ∃ next, run plainServing s (abortRound n) = some next ∧
      Overdue (n + 1) (Scheduler.entomb tombstones n) next := by
  obtain ⟨out, scheduler, silent⟩ := overdue.scheduler
  have serving : s.frontend.maintenanceState = .serving :=
    congrArg Gates.maintenanceState overdue.gates
  have alive : s.frontend.fatalError = none := congrArg Gates.fatalError overdue.gates
  have counter : s.frontend.uidCounter = n := congrArg Gates.uidCounter overdue.gates
  let frontend : Frontend := { s.frontend with
    uidCounter := n + 1
    ackMap := (s.frontend.ackMap.insert n []).erase n
    eventMap := (s.frontend.eventMap.insert n false).erase n
    generationGate := none
    maintenanceState := .serving
    fatalError := none
    stats := (s.frontend.stats.onNewUser n).onAbort n
    submissions := s.frontend.submissions.insert n .building
    sending := []
    sendTokenizer := [] }
  let ack := TokenizeWorker.errorReply n "request aborted" none
    (Scheduler.new Scheduler.plainCache 2).usage
  have tokenizes : plainServing.tokenizes 1 = true := rfl
  have detokenizer : plainServing.detokenizer = 2 := rfl
  have config : plainServing.scheduler = Scheduler.plainConfig := rfl
  have asked : ∀ texts, TokenizeWorker.turn plainServing.tokenize texts [.request (.abort n)] =
      ([], [.abort n]) := fun _ => rfl
  have acked : ∀ texts, TokenizeWorker.turn plainServing.tokenize texts [.reply (ackOf n)] =
      ([.userReplies [ack]], []) := fun _ => rfl
  have receiving : ∀ msg, (idleScheduler tombstones [] out).enabled (.recv msg) = true :=
    fun _ => rfl
  have launching : ∀ tombstones, (idleScheduler tombstones [n] out).enabled (.launch fun _ => 0) =
      true := fun _ => rfl
  have outs : ∀ tombstones acks out, (idleScheduler tombstones acks out).out = out :=
    fun _ _ _ => rfl
  have old : (out.map WorkerMsg.reply).drop out.length = [] := by simp
  obtain ⟨next, taken, hears, empty, queues, idles, scheduled⟩ : ∃ next,
      run plainServing s (abortRound n) = some next ∧
        next.frontend = frontend.listen (.userReplies [ack]) ∧
        (next.inbox 0 = s.inbox 0 ∧ next.inbox 1 = [] ∧ next.inbox 2 = []) ∧
        next.toFrontend 2 = [] ∧ (next.toScheduler 0 = [] ∧ next.toScheduler 1 = []) ∧
        next.scheduler = idleScheduler (Scheduler.entomb tombstones n) [] (out ++ [ackOf n]) := by
    simp [run, abortRound, step, ordinary, Frontend.step, Frontend.admitGeneration,
      Frontend.newUser, Frontend.abortUser, Frontend.sendOne, schedulerStep, scheduler, serving,
      alive, counter, overdue.ungated, overdue.sending, overdue.inbox, overdue.toFrontend,
      overdue.toScheduler, tokenizes, detokenizer, config, asked, acked, receiving, launching,
      outs, old, idle_abort, idle_launch]
    rfl
  have counts := desk_listen frontend (.userReplies [ack])
  obtain ⟨only, pre⟩ := onAbort_onNewUser n overdue.idle
  obtain ⟨emptied, counted⟩ := @observe_last frontend.stats ack rfl only
  refine ⟨next, taken, ?_⟩
  constructor
  case gates =>
    rw [hears]
    refine (Frontend.gates_hear frontend ack).trans ?_
    obtain ⟨-, -, rebuild, -, unsealed, stage⟩ := Gates.mk.inj overdue.gates
    show Gates.mk _ _ _ _ _ _ = _
    rw [rebuild, unsealed, stage]
  case ungated =>
    rw [hears]
    exact generationGate_listen ack rfl
  case sending =>
    rw [hears]
    exact ⟨congrArg Desk.sending counts, congrArg Desk.sendTokenizer counts⟩
  case idle =>
    rw [hears]
    exact (congrArg (fun desk => desk.stats.inflight) counts).trans emptied
  case prompt =>
    rw [hears]
    refine (congrArg (fun desk => desk.stats.promptTokensTotal) counts).trans ?_
    exact counted.trans (pre.trans overdue.prompt)
  case late => exact empty.1.trans overdue.late
  case inbox => exact empty.2
  case toFrontend => exact queues
  case toScheduler => exact idles
  case scheduler =>
    refine ⟨_, scheduled, ?_⟩
    rw [map_append, sum_append, silent]
    rfl

/-- The first request reaches a worker that does nothing with it, and is aborted by way of the
other. -/
def overtakenEvents : List Event :=
  [.frontend (.backendReady 0), .frontend .admitGeneration,
    .frontend (.sendTokenize (plainRequest 0)), .frontend (.putDone (.tokenize (plainRequest 0))),
    .route 0, .frontend (.abortUser 0), .frontend (.putDone (.abort 0)), .route 1,
    .work 1 1 fun _ => "", .recv 1, .launch fun _ => 0, .work 2 1 fun _ => "", .hear 2]

theorem overdue_first : ∃ s, run plainServing plainStart overtakenEvents = some s ∧
    Overdue 1 [0] s := by
  refine ⟨_, rfl, ?_⟩
  constructor
  case scheduler => exact ⟨_, rfl, rfl⟩
  all_goals first | rfl | exact ⟨rfl, rfl⟩

theorem entomb_range {n : Nat} (room : n < Scheduler.tombstoneCap) :
    Scheduler.entomb (List.range n) n = List.range (n + 1) := by
  unfold Scheduler.entomb
  rw [if_neg not_mem_range_self, ← range_succ]
  dsimp only
  rw [length_range, Nat.sub_eq_zero_of_le room, drop_zero]

theorem forgets {n : Nat} (full : Scheduler.tombstoneCap ≤ n) :
    0 ∉ Scheduler.entomb (List.range n) n := by
  unfold Scheduler.entomb
  rw [if_neg not_mem_range_self, ← range_succ]
  dsimp only
  rw [length_range]
  intro kept
  obtain ⟨index, inside, isZero⟩ := mem_iff_getElem.mp kept
  rw [getElem_drop, getElem_range] at isZero
  omega

theorem overdue_rounds {n : Nat} (room : n + 1 ≤ Scheduler.tombstoneCap) :
    ∃ events s, run plainServing plainStart events = some s ∧
      Overdue (n + 1) (List.range (n + 1)) s := by
  induction n with
  | zero =>
    obtain ⟨s, taken, overdue⟩ := overdue_first
    exact ⟨_, s, taken, overdue⟩
  | succ n ih =>
    obtain ⟨events, s, taken, overdue⟩ := ih (by omega)
    obtain ⟨next, more, round⟩ := overdue.round
    rw [entomb_range (by omega)] at round
    refine ⟨events ++ abortRound (n + 1), next, ?_, round⟩
    unfold run at taken more ⊢
    rw [foldlM_append, taken]
    exact more

def promptScheduler (tombstones : List Nat) (out : List Reply) : Scheduler :=
  { idleScheduler tombstones [] out with pendingList := [⟨0, [1], ⟨false, 1, []⟩, none, false⟩] }

theorem idle_user (out : List Reply) (forgotten : 0 ∉ tombstones) :
    (idleScheduler tombstones [] out).step Scheduler.plainConfig
        (.recv (.user ⟨0, [1], ⟨false, 1, []⟩, false⟩)) = .ok (promptScheduler tombstones out) := by
  show Except.ok (Scheduler.processUser _ _ _) = _
  unfold Scheduler.processUser
  have other : 0 ∉ (idleScheduler tombstones [] out).abortTombstones := forgotten
  rw [if_neg other]
  rfl

theorem prompt_launch (out : List Reply) : ∃ after : Scheduler,
    (promptScheduler tombstones out).step Scheduler.plainConfig (.launch fun _ => 4) = .ok after ∧
      after.out = out ++ [.promptAdmitted 0 1 0] := by
  -- no acknowledgement waits
  have told : (((promptScheduler tombstones out).step Scheduler.plainConfig
      (.launch fun _ => 4)).toOption.map Scheduler.out) =
      some (out ++ [.promptAdmitted 0 1 0] ++ []) := by
    with_unfolding_all rfl
  rw [append_nil] at told
  cases launched : (promptScheduler tombstones out).step Scheduler.plainConfig
      (.launch fun _ => 4) with
  | ok after =>
    rw [launched] at told
    exact ⟨after, rfl, Option.some.inj told⟩
  | error err =>
    rw [launched] at told
    cases told

def lateEvents : List Event :=
  [.frontend .prepareStop, .frontend (.drained 5), .work 0 1 fun _ => "", .recv 0,
    .launch fun _ => 4]

theorem Overdue.late_admission (overdue : Overdue n tombstones s) (forgotten : 0 ∉ tombstones) :
    ∃ next document, run plainServing s lateEvents = some next ∧
      next.frontend.sealedAccounting = some document ∧ document.promptTokensTotal = 0 ∧
      (next.scheduler.out.map fun reply => reply.mark.prompt).sum = 1 := by
  obtain ⟨out, scheduler, silent⟩ := overdue.scheduler
  obtain ⟨after, launched, sent⟩ := @prompt_launch tombstones out
  obtain ⟨serving, alive, rebuild, counter, unsealed, stage⟩ := Gates.mk.inj overdue.gates
  have config : plainServing.scheduler = Scheduler.plainConfig := rfl
  have tokenized : ∀ texts, TokenizeWorker.turn plainServing.tokenize texts
      [.request (.tokenize (plainRequest 0))] = ([], [.user ⟨0, [1], ⟨false, 1, []⟩, false⟩]) :=
    fun _ => rfl
  have receiving : ∀ msg, (idleScheduler tombstones [] out).enabled (.recv msg) = true :=
    fun _ => rfl
  have launching : (promptScheduler tombstones out).enabled (.launch fun _ => 4) = true := rfl
  obtain ⟨next, taken, isSealed, outs⟩ : ∃ next, run plainServing s lateEvents = some next ∧
      (∃ document, next.frontend.sealedAccounting = some document ∧
        document.promptTokensTotal = s.frontend.stats.promptTokensTotal) ∧
      next.scheduler.out = after.out := by
    simp [run, lateEvents, step, ordinary, Frontend.step, Frontend.prepareStop, serving, alive,
      unsealed, stage, StatsTracker.active, overdue.idle, Frontend.sealTotals,
      Frontend.sealedDocument, overdue.late, overdue.toScheduler, tokenized, schedulerStep,
      scheduler, receiving, config, idle_user out forgotten, launching, launched]
  obtain ⟨document, isDocument, total⟩ := isSealed
  refine ⟨next, document, taken, isDocument, total.trans overdue.prompt, ?_⟩
  rw [outs, sent, map_append, sum_append, silent]
  rfl

/-- A request is aborted while its message waits with a tokenizer, and then as many other requests
as there are tombstones. The first tombstone is gone when the message moves on, after the totals
were sealed: the scheduler admits the request, whose token is in no total. -/
theorem late_request_unbilled : ∃ events s document,
    run plainServing plainStart events = some s ∧ s.frontend.sealedAccounting = some document ∧
      document.promptTokensTotal ≠ (s.scheduler.out.map fun reply => reply.mark.prompt).sum := by
  obtain ⟨events, s, taken, overdue⟩ := overdue_rounds (n := Scheduler.tombstoneCap - 1) (by decide)
  obtain ⟨full, more, round⟩ := overdue.round
  have forgotten : 0 ∉ Scheduler.entomb (range (Scheduler.tombstoneCap - 1 + 1))
      (Scheduler.tombstoneCap - 1 + 1) :=
    forgets (Nat.sub_add_cancel (Nat.zero_lt_succ _)).ge
  obtain ⟨next, document, last, isSealed, nothing, told⟩ := round.late_admission forgotten
  refine ⟨events ++ abortRound (Scheduler.tombstoneCap - 1 + 1) ++ lateEvents, next, document, ?_,
    isSealed, ?_⟩
  · unfold run at taken more last ⊢
    rw [foldlM_append, foldlM_append, taken]
    exact (congrArg (· >>= _) more).trans last
  · rw [nothing, told]
    exact Nat.zero_ne_one

end Serving

end FreeToken
