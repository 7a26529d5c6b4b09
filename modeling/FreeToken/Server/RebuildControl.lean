/-
**The rebuild control plane.**

The frontend, the rebuilds on their way to the scheduler, and the scheduler with the results it has
sent. A worker passes a rebuild on as it is, so what is on its way is one list, in no order. A result
that was sent can be heard at any time and any number of times.

* `places`: where a rebuild that was admitted can be.
-/

import FreeToken.Server.Lifecycle
import FreeToken.Scheduler.Rebuild

namespace FreeToken

open List Option

variable (state : Frontend) (backend : RebuildScheduler) {requestId : String}

namespace RebuildControl

structure System where
  frontend : Frontend
  toScheduler : List CacheRebuildMsg := []
  backend : RebuildScheduler
  /-- The rebuilds whose put failed. -/
  lost : List String := []

def rebuildId : TokenizerMsg → Option String
  | .cacheRebuild msg => some msg.requestId
  | _ => none

inductive Event where
  /-- A step of the frontend that is not its listener hearing a rebuild result. -/
  | frontend (event : Frontend.Event)
  /-- A worker passes a rebuild on. -/
  | forward (msg : CacheRebuildMsg)
  /-- The scheduler receives a request or an abort. -/
  | recv (msg : Msg)
  /-- The scheduler receives a rebuild. -/
  | recvRebuild (msg : CacheRebuildMsg)
  | execute (outcome : RebuildOutcome)
  | launch (nextTokens : Nat → Token)
  | drain
  /-- The frontend hears a result that was sent. -/
  | hear (reply : CacheRebuildReply)

def schedulerStep (cfg : SchedulerConfig) (system : System) (event : Scheduler.Event) :
    Option System :=
  if system.backend.scheduler.enabled event then
    match system.backend.scheduler.step cfg event with
    | .ok scheduler => some { system with backend := { system.backend with scheduler := scheduler } }
    | .error _ => none
  else none

def step (cfg : SchedulerConfig) (system : System) : Event → Option System
  | .frontend (.listen (.cacheRebuild _)) => none
  | .frontend (.putLost msg) =>
      (system.frontend.step (.putLost msg)).map fun frontend =>
        { system with frontend := frontend, lost := system.lost ++ (rebuildId msg).toList }
  | .frontend event =>
      (system.frontend.step event).map fun frontend => { system with frontend := frontend }
  | .forward msg =>
      if .cacheRebuild msg ∈ system.frontend.sendTokenizer then
        some { system with
          frontend := { system.frontend with
            sendTokenizer := system.frontend.sendTokenizer.erase (.cacheRebuild msg) }
          toScheduler := system.toScheduler ++ [msg] }
      else none
  | .recv msg =>
      if system.backend.crashed.isNone then schedulerStep cfg system (.recv msg) else none
  | .recvRebuild msg =>
      if system.backend.crashed.isNone ∧ msg ∈ system.toScheduler ∧
          system.backend.scheduler.todo = none then
        some { system with
          toScheduler := system.toScheduler.erase msg
          backend := system.backend.processRebuild msg }
      else none
  | .execute outcome =>
      if system.backend.crashed.isNone ∧ system.backend.ready ∧
          system.backend.scheduler.todo = none then
        system.backend.pendingRebuild.map fun msg =>
          { system with backend := system.backend.executePending msg outcome }
      else none
  | .launch nextTokens =>
      -- A rebuild that can be executed comes before the next batch.
      if system.backend.crashed.isNone ∧ system.backend.ready = false then
        schedulerStep cfg system (.launch nextTokens)
      else none
  | .drain => if system.backend.crashed.isNone then schedulerStep cfg system .drain else none
  | .hear reply =>
      if reply ∈ system.backend.results then
        some { system with frontend := system.frontend.listen (.cacheRebuild reply) }
      else none

def run (cfg : SchedulerConfig) (system : System) (events : List Event) : Option System :=
  events.foldlM (step cfg) system

def initial (frontend : Frontend) (cm : CacheManager) (maxRunningReqs : Nat)
    (supportsRuntimeRebuild : Bool) (tpSize : Nat) (geometry : CacheGeometry) : System where
  frontend := frontend
  backend :=
    { scheduler := Scheduler.new cm maxRunningReqs
      supportsRuntimeRebuild := supportsRuntimeRebuild
      tpSize := tpSize
      geometry := geometry }

def inTransit (system : System) : List String :=
  system.frontend.sending.filterMap rebuildId ++
    system.frontend.sendTokenizer.filterMap rebuildId ++
    system.toScheduler.map CacheRebuildMsg.requestId ++
    system.backend.pendingRebuild.toList.map CacheRebuildMsg.requestId

/-- The ids of the rebuilds that are not on their way any more: answered, lost, or the end of the
worker. -/
def settled (system : System) : List String :=
  system.backend.results.map CacheRebuildReply.requestId ++ system.lost ++
    system.backend.crashed.toList.map CacheRebuildMsg.requestId

/-- **Every admitted rebuild is in one place**, and on its way only while it is the active one. -/
structure Outstanding (system : System) : Prop where
  places : (inTransit system ++ settled system).Perm system.frontend.rebuildIds
  distinct : system.frontend.rebuildIds.Nodup
  active : ∀ requestId ∈ inTransit system, system.frontend.activeRebuildId = some requestId

/-! ### The frontend's side -/

/-- The rebuilds among the messages that the frontend puts and has put, the ids it has drawn and the
active one. -/
structure Traffic where
  puts : List String
  queued : List String
  admitted : List String
  active : Option String

def traffic (frontend : Frontend) : Traffic where
  puts := frontend.sending.filterMap rebuildId
  queued := frontend.sendTokenizer.filterMap rebuildId
  admitted := frontend.rebuildIds
  active := frontend.activeRebuildId

section Frames

variable (state : Frontend)

@[simp] theorem traffic_releaseGenerationSlot (uid : Nat) :
    traffic (state.releaseGenerationSlot uid) = traffic state := by
  unfold Frontend.releaseGenerationSlot
  split
  · rfl
  · rfl

@[simp] theorem traffic_hear (reply : UserReply) : traffic (state.hear reply) = traffic state := by
  have released : traffic (if reply.finished then
      Frontend.releaseGenerationSlot { state with stats := state.stats.observe reply } reply.uid
      else { state with stats := state.stats.observe reply }) = traffic state := by
    split
    · exact traffic_releaseGenerationSlot _ _
    · rfl
  rw [← released]
  unfold Frontend.hear
  dsimp only
  split
  · rfl
  · rfl

@[simp] theorem traffic_resolveFuture (requestId : String) (res : RebuildResult) :
    traffic (state.resolveFuture requestId res) = traffic state := by
  unfold Frontend.resolveFuture
  split
  · unfold Frontend.setResult
    split
    · rfl
    · rfl
  · rfl

theorem traffic_foldl {α : Type} (change : Frontend → α → Frontend)
    (same : ∀ state value, traffic (change state value) = traffic state) (values : List α)
    (state : Frontend) : traffic (values.foldl change state) = traffic state := by
  induction values generalizing state with
  | nil => rfl
  | cons value values ih => exact (ih (change state value)).trans (same state value)

theorem traffic_sendOne {msg : TokenizerMsg} (other : rebuildId msg = none) :
    traffic (state.sendOne msg) = traffic state := by
  unfold traffic Frontend.sendOne
  simp [other]

end Frames

inductive TrafficStep (state : Frontend) : Frontend.Event → Frontend → Prop
  | stay {event : Frontend.Event} {next : Frontend} (same : traffic next = traffic state) :
      TrafficStep state event next
  | dispatch {next : Frontend} (requestId : String) (request : RebuildRequest)
      (fresh : requestId ∉ state.rebuildIds) (idle : state.activeRebuildId = none)
      (now : traffic next = {
        puts := (traffic state).puts ++ [requestId]
        queued := (traffic state).queued
        admitted := (traffic state).admitted ++ [requestId]
        active := some requestId }) :
      TrafficStep state (.dispatchRebuild requestId request) next
  | put {next : Frontend} (msg : TokenizerMsg) (mem : msg ∈ state.sending)
      (now : traffic next = { traffic state with
        puts := (state.sending.erase msg).filterMap rebuildId
        queued := (traffic state).queued ++ (rebuildId msg).toList }) :
      TrafficStep state (.putDone msg) next
  | lost {next : Frontend} (msg : TokenizerMsg) (mem : msg ∈ state.sending)
      (now : traffic next = { traffic state with
        puts := (state.sending.erase msg).filterMap rebuildId }) :
      TrafficStep state (.putLost msg) next
  | heard {next : Frontend} (reply : CacheRebuildReply) (now : next = state.resolveRebuild reply) :
      TrafficStep state (.listen (.cacheRebuild reply)) next

theorem step_traffic {state next : Frontend} {event : Frontend.Event}
    (taken : state.step event = some next) : TrafficStep state event next := by
  cases event with
  | backendReady now =>
    cases taken
    refine .stay ?_
    unfold Frontend.markBackendReady
    split
    · rfl
    · rfl
  | backendFailed message =>
    cases taken
    exact .stay rfl
  | failPendingRebuilds message =>
    cases taken
    exact .stay (traffic_foldl _ (fun state requestId => traffic_resolveFuture state requestId _) _ _)
  | failInflightRequests message =>
    cases taken
    exact .stay ((traffic_foldl _ (fun state uid => traffic_hear state _) _ _).trans
      (traffic_foldl _ traffic_releaseGenerationSlot _ _))
  | admitGeneration =>
    simp only [Frontend.step] at taken
    split at taken
    · cases taken
    · split at taken
      · rename_i admitted
        cases taken
        refine .stay ?_
        have newUser : ∀ {uid : Nat} {next : Frontend}, state.newUser = .ok (uid, next) →
            traffic next = traffic state := by
          intro uid next admitted
          unfold Frontend.newUser at admitted
          split at admitted
          · cases admitted
          · cases admitted
            rfl
        unfold Frontend.admitGeneration at admitted
        split at admitted
        · have same := newUser admitted
          exact same
        · split at admitted
          · cases admitted
          · rename_i inner
            have same := newUser inner
            cases admitted
            exact same
      · cases taken
        exact .stay rfl
  | sendTokenize msg =>
    simp only [Frontend.step] at taken
    split at taken
    · cases taken
      have same := @traffic_sendOne state (.tokenize msg) rfl
      exact .stay same
    · cases taken
  | submitted uid | takeAcks uid | rebuildSent requestId | rebuildSendError requestId error
  | rebuildReturned requestId | rebuildTimedOut requestId | drained now | aborted | prepareFailed =>
    simp only [Frontend.step] at taken
    split at taken
    · cases taken
      exact .stay rfl
    · cases taken
  | discardUnsubmitted uid =>
    obtain ⟨-, ⟨⟩⟩ := Option.ite_none_right_eq_some.mp taken
    refine .stay ?_
    have same : traffic (state.discardUnsubmittedGeneration uid) = traffic state :=
      traffic_releaseGenerationSlot _ uid
    exact same
  | listen msg =>
    cases taken
    cases msg with
    | userReplies replies => exact .stay (traffic_foldl _ traffic_hear _ _)
    | cacheRebuild reply => exact .heard reply rfl
  | closeWait uid =>
    cases taken
    exact .stay rfl
  | abortUser uid =>
    obtain ⟨-, ⟨⟩⟩ := Option.ite_none_right_eq_some.mp taken
    exact .stay (traffic_sendOne _ rfl)
  | putDone msg =>
    simp only [Frontend.step] at taken
    split at taken
    · rename_i mem
      cases taken
      refine .put msg mem ?_
      unfold traffic
      rw [filterMap_append]
      congr 2
    · cases taken
  | putLost msg =>
    simp only [Frontend.step] at taken
    split at taken
    · rename_i mem
      cases taken
      exact .lost msg mem rfl
    · cases taken
  | dispatchRebuild requestId request =>
    simp only [Frontend.step] at taken
    split at taken
    · cases taken
    · rename_i fresh
      split at taken
      · rename_i admitted
        cases taken
        unfold Frontend.dispatchRebuild at admitted
        split at admitted
        · cases admitted
        · rename_i «open»
          push Not at «open»
          cases admitted
          refine .dispatch requestId request fresh «open».2.2 ?_
          unfold traffic Frontend.sendOne
          rw [filterMap_append]
          rfl
      · cases taken
        exact .stay rfl
  | prepareStop =>
    simp only [Frontend.step] at taken
    split at taken
    · split at taken
      · cases taken
        exact .stay rfl
      · cases taken
        exact .stay rfl
      · rename_i began
        cases taken
        unfold Frontend.prepareStop at began
        split at began
        · cases began
        · split at began
          · cases began
          · cases began
            exact .stay rfl
    · cases taken
  | drainTimedOut =>
    simp only [Frontend.step] at taken
    split at taken
    · cases taken
      unfold Frontend.drainTimedOut
      split
      · exact .stay rfl
      · exact .stay rfl
    · cases taken
  | abortNext uid =>
    simp only [Frontend.step] at taken
    split at taken
    · split at taken
      · cases taken
        have same := @traffic_sendOne { state with
          ackMap := state.ackMap.erase uid
          eventMap := state.eventMap.erase uid
          stats := state.stats.onAbort uid } (.abort uid) rfl
        exact .stay same
      · cases taken
    · cases taken

/-! ### One place for each rebuild -/

variable {cfg : SchedulerConfig} {system next : System}

theorem count_erase {msg : TokenizerMsg} {messages : List TokenizerMsg} (mem : msg ∈ messages)
    (requestId : String) : (messages.filterMap rebuildId).count requestId =
      (rebuildId msg).toList.count requestId +
        ((messages.erase msg).filterMap rebuildId).count requestId := by
  have perm := (perm_cons_erase mem).filterMap rebuildId
  rw [perm.count_eq]
  cases isId : rebuildId msg with
  | none =>
    rw [filterMap_cons_none isId]
    simp
  | some other =>
    rw [filterMap_cons_some isId, count_cons, toList_some, count_singleton]
    omega

theorem count_inTransit (system : System) (requestId : String) :
    (inTransit system).count requestId = (traffic system.frontend).puts.count requestId +
      (traffic system.frontend).queued.count requestId +
      (system.toScheduler.map CacheRebuildMsg.requestId).count requestId +
      (system.backend.pendingRebuild.toList.map CacheRebuildMsg.requestId).count requestId := by
  unfold inTransit traffic
  rw [count_append, count_append, count_append]

theorem count_settled (system : System) (requestId : String) : (settled system).count requestId =
      (system.backend.results.map CacheRebuildReply.requestId).count requestId +
      system.lost.count requestId +
      (system.backend.crashed.toList.map CacheRebuildMsg.requestId).count requestId := by
  unfold settled
  rw [count_append, count_append]

theorem Outstanding.count (outstanding : Outstanding system) (requestId : String) :
    (inTransit system).count requestId + (settled system).count requestId =
      system.frontend.rebuildIds.count requestId ∧ system.frontend.rebuildIds.count requestId ≤ 1 := by
  refine ⟨?_, nodup_iff_count_le_one.mp outstanding.distinct requestId⟩
  rw [← count_append]
  exact outstanding.places.count_eq requestId

theorem Outstanding.of_count (nodup : next.frontend.rebuildIds.Nodup)
    (counts : ∀ requestId, (inTransit next).count requestId + (settled next).count requestId =
      next.frontend.rebuildIds.count requestId)
    (active : ∀ requestId ∈ inTransit next, next.frontend.activeRebuildId = some requestId) :
    Outstanding next where
  places := perm_iff_count.mpr fun requestId => by
    rw [count_append]
    exact counts requestId
  distinct := nodup
  active := active

theorem Outstanding.of_same (outstanding : Outstanding system)
    (frontend : traffic next.frontend = traffic system.frontend)
    (toScheduler : next.toScheduler = system.toScheduler) (lost : next.lost = system.lost)
    (pending : next.backend.pendingRebuild = system.backend.pendingRebuild)
    (results : next.backend.results = system.backend.results)
    (crashed : next.backend.crashed = system.backend.crashed) : Outstanding next := by
  have puts : next.frontend.sending.filterMap rebuildId =
      system.frontend.sending.filterMap rebuildId := congrArg Traffic.puts frontend
  have queued : next.frontend.sendTokenizer.filterMap rebuildId =
      system.frontend.sendTokenizer.filterMap rebuildId := congrArg Traffic.queued frontend
  have admitted : next.frontend.rebuildIds = system.frontend.rebuildIds :=
    congrArg Traffic.admitted frontend
  have active : next.frontend.activeRebuildId = system.frontend.activeRebuildId :=
    congrArg Traffic.active frontend
  have transit : inTransit next = inTransit system := by
    unfold inTransit
    rw [puts, queued, toScheduler, pending]
  have done : settled next = settled system := by
    unfold settled
    rw [results, lost, crashed]
  exact {
    places := by rw [transit, done, admitted]; exact outstanding.places
    distinct := by rw [admitted]; exact outstanding.distinct
    active := by rw [transit, active]; exact outstanding.active }

theorem Outstanding.alone (outstanding : Outstanding system) {requestId other : String}
    (onWay : requestId ∈ inTransit system) (also : other ∈ inTransit system) : other = requestId :=
  some.inj ((outstanding.active other also).symm.trans (outstanding.active requestId onWay))

theorem Outstanding.count_le (outstanding : Outstanding system) (requestId : String) :
    (inTransit system).count requestId + (settled system).count requestId ≤ 1 := by
  obtain ⟨same, atMost⟩ := outstanding.count requestId
  omega

theorem Outstanding.of_moves (outstanding : Outstanding system)
    (admitted : next.frontend.rebuildIds = system.frontend.rebuildIds)
    (active : next.frontend.activeRebuildId = system.frontend.activeRebuildId)
    (counts : ∀ requestId, (inTransit next).count requestId + (settled next).count requestId =
      (inTransit system).count requestId + (settled system).count requestId)
    (fewer : ∀ requestId, (inTransit next).count requestId ≤ (inTransit system).count requestId) :
    Outstanding next := by
  refine .of_count (admitted ▸ outstanding.distinct) ?_ ?_
  · intro requestId
    rw [counts, admitted]
    exact (outstanding.count requestId).1
  · intro requestId mem
    rw [active]
    refine outstanding.active requestId (count_pos_iff.mp ?_)
    exact (count_pos_iff.mpr mem).trans_le (fewer requestId)

theorem replyRebuild_places (requestId status : String)
    (error : Option String) : (backend.replyRebuild requestId status error).results.map
      CacheRebuildReply.requestId = backend.results.map CacheRebuildReply.requestId ++ [requestId] := by
  unfold RebuildScheduler.replyRebuild
  rw [map_append]
  rfl

theorem processRebuild_cases (msg : CacheRebuildMsg) :
    (backend.processRebuild msg).crashed = backend.crashed ∧
      (((backend.processRebuild msg).pendingRebuild = backend.pendingRebuild ∧
          (backend.processRebuild msg).results.map CacheRebuildReply.requestId =
            backend.results.map CacheRebuildReply.requestId ++ [msg.requestId]) ∨
        ((backend.processRebuild msg).pendingRebuild = some msg ∧
          (backend.processRebuild msg).results = backend.results)) := by
  unfold RebuildScheduler.processRebuild
  split
  · exact ⟨rfl, .inl ⟨rfl, replyRebuild_places _ _ _ _⟩⟩
  · split
    · exact ⟨rfl, .inl ⟨rfl, replyRebuild_places _ _ _ _⟩⟩
    · split
      · exact ⟨rfl, .inl ⟨rfl, replyRebuild_places _ _ _ _⟩⟩
      · split
        · exact ⟨rfl, .inl ⟨rfl, replyRebuild_places _ _ _ _⟩⟩
        · exact ⟨rfl, .inr ⟨rfl, rfl⟩⟩

theorem executePending_cases (msg : CacheRebuildMsg) (outcome : RebuildOutcome) :
    (backend.executePending msg outcome).pendingRebuild = none ∧
      (((backend.executePending msg outcome).crashed = backend.crashed ∧
          (backend.executePending msg outcome).results.map CacheRebuildReply.requestId =
            backend.results.map CacheRebuildReply.requestId ++ [msg.requestId]) ∨
        ((backend.executePending msg outcome).crashed = some msg ∧
          (backend.executePending msg outcome).results = backend.results)) := by
  cases outcome with
  | rebuilt cacheManager geometry
  | rejected error => exact ⟨rfl, .inl ⟨rfl, replyRebuild_places _ _ _ _⟩⟩
  | crashed error => exact ⟨rfl, .inr ⟨rfl, rfl⟩⟩

theorem Outstanding.pending_none (outstanding : Outstanding system) {msg : CacheRebuildMsg}
    (arriving : msg ∈ system.toScheduler) : system.backend.pendingRebuild = none := by
  cases pending : system.backend.pendingRebuild with
  | none => rfl
  | some kept =>
    have arrivingId : msg.requestId ∈ system.toScheduler.map CacheRebuildMsg.requestId :=
      List.mem_map_of_mem arriving
    have keptId : kept.requestId ∈ system.backend.pendingRebuild.toList.map
        CacheRebuildMsg.requestId := by
      rw [pending]
      exact mem_singleton_self _
    have same : kept.requestId = msg.requestId := by
      refine outstanding.alone ?_ ?_
      · exact mem_append_left _ (mem_append_right _ arrivingId)
      · exact mem_append_right _ keptId
    have atMost := outstanding.count_le msg.requestId
    have first := count_pos_iff.mpr arrivingId
    have second := count_pos_iff.mpr keptId
    rw [same] at second
    rw [count_inTransit] at atMost
    omega

theorem traffic_resolveRebuild (reply : CacheRebuildReply) :
    traffic (state.resolveRebuild reply) = if state.activeRebuildId = some reply.requestId then
      { traffic state with active := none } else traffic state := by
  unfold Frontend.resolveRebuild
  split
  · rw [traffic_resolveFuture]
    rfl
  · rfl

theorem Outstanding.hear (outstanding : Outstanding system) {reply : CacheRebuildReply}
    (sent : reply ∈ system.backend.results) : Outstanding { system with
      frontend := system.frontend.listen (.cacheRebuild reply) } := by
  have now := traffic_resolveRebuild system.frontend reply
  split at now
  · rename_i active
    have answered : 0 < (settled system).count reply.requestId := by
      rw [count_settled]
      have pos := count_pos_iff.mpr (List.mem_map_of_mem
        (f := CacheRebuildReply.requestId) sent)
      omega
    have empty : inTransit system = [] := by
      refine eq_nil_iff_forall_not_mem.mpr fun requestId mem => ?_
      have same := some.inj ((outstanding.active requestId mem).symm.trans active)
      have atMost := outstanding.count_le requestId
      have pos := count_pos_iff.mpr mem
      rw [same] at atMost pos
      omega
    have transit : inTransit { system with
        frontend := system.frontend.listen (.cacheRebuild reply) } = inTransit system := by
      have puts : (system.frontend.resolveRebuild reply).sending.filterMap rebuildId =
          system.frontend.sending.filterMap rebuildId := congrArg Traffic.puts now
      have queued : (system.frontend.resolveRebuild reply).sendTokenizer.filterMap rebuildId =
          system.frontend.sendTokenizer.filterMap rebuildId := congrArg Traffic.queued now
      unfold inTransit
      show (system.frontend.resolveRebuild reply).sending.filterMap rebuildId ++
        (system.frontend.resolveRebuild reply).sendTokenizer.filterMap rebuildId ++ _ ++ _ = _
      rw [puts, queued]
    have admitted : (system.frontend.resolveRebuild reply).rebuildIds =
        system.frontend.rebuildIds := congrArg Traffic.admitted now
    refine .of_count ?_ ?_ ?_
    · show (system.frontend.resolveRebuild reply).rebuildIds.Nodup
      rw [admitted]
      exact outstanding.distinct
    · intro requestId
      rw [transit]
      show _ = (system.frontend.resolveRebuild reply).rebuildIds.count requestId
      rw [admitted]
      exact (outstanding.count requestId).1
    · intro requestId mem
      rw [transit, empty] at mem
      cases mem
  · exact outstanding.of_same now rfl rfl rfl rfl rfl

theorem Outstanding.frontend (outstanding : Outstanding system) {event : Frontend.Event}
    {frontend : Frontend} (taken : system.frontend.step event = some frontend)
    (notHeard : ∀ reply, event ≠ .listen (.cacheRebuild reply))
    (notLost : ∀ msg, event ≠ .putLost msg) :
    Outstanding { system with frontend := frontend } := by
  cases step_traffic taken with
  | stay same => exact outstanding.of_same same rfl rfl rfl rfl rfl
  | dispatch requestId request fresh idle now =>
    have empty : inTransit system = [] := by
      refine eq_nil_iff_forall_not_mem.mpr fun other mem => ?_
      have active := outstanding.active other mem
      rw [idle] at active
      cases active
    have admitted : frontend.rebuildIds = system.frontend.rebuildIds ++ [requestId] :=
      congrArg Traffic.admitted now
    have counts : ∀ other, (inTransit { system with frontend := frontend }).count other =
        (inTransit system).count other + [requestId].count other := by
      intro other
      rw [count_inTransit, count_inTransit]
      rw [now, count_append]
      dsimp only
      omega
    refine .of_count ?_ ?_ ?_
    · rw [admitted, nodup_append]
      refine ⟨outstanding.distinct, nodup_singleton _, ?_⟩
      intro other mem drawn isDrawn same
      rw [mem_singleton] at isDrawn
      rw [same, isDrawn] at mem
      exact fresh mem
    · intro other
      rw [counts]
      show _ + (settled system).count other = frontend.rebuildIds.count other
      rw [admitted, count_append]
      have pre := (outstanding.count other).1
      omega
    · intro other mem
      have active : frontend.activeRebuildId = some requestId := congrArg Traffic.active now
      rw [active]
      have pos := count_pos_iff.mpr mem
      rw [counts, empty, count_nil, zero_add] at pos
      exact congrArg some (mem_singleton.mp (count_pos_iff.mp pos)).symm
  | put msg mem now =>
    have counts : ∀ other, (inTransit { system with frontend := frontend }).count other =
        (inTransit system).count other := by
      intro other
      rw [count_inTransit, count_inTransit]
      rw [now]
      have moved := count_erase mem other
      show ((system.frontend.sending.erase msg).filterMap rebuildId).count other +
        ((traffic system.frontend).queued ++ _).count other + _ + _ =
        (system.frontend.sending.filterMap rebuildId).count other + _ + _ + _
      rw [count_append]
      dsimp only
      omega
    refine outstanding.of_moves (congrArg Traffic.admitted now) (congrArg Traffic.active now) ?_ ?_
    · intro other
      rw [counts]
      rfl
    · exact fun other => (counts other).le
  | lost msg _ _ => exact absurd rfl (notLost msg)
  | heard reply _ => exact absurd rfl (notHeard reply)

theorem Outstanding.putLost (outstanding : Outstanding system) {msg : TokenizerMsg}
    {frontend : Frontend} (taken : system.frontend.step (.putLost msg) = some frontend) :
    Outstanding { system with
      frontend := frontend
      lost := system.lost ++ (rebuildId msg).toList } := by
  cases step_traffic taken with
  | stay same =>
    have traffics := same
    simp only [Frontend.step] at taken
    split at taken
    · rename_i mem
      cases taken
      have kept : (system.frontend.sending.erase msg).filterMap rebuildId =
          system.frontend.sending.filterMap rebuildId := congrArg Traffic.puts traffics
      have noId : (rebuildId msg).toList = [] := by
        refine eq_nil_iff_forall_not_mem.mpr fun requestId here => ?_
        have moved := count_erase mem requestId
        have pos := count_pos_iff.mpr here
        rw [kept] at moved
        omega
      rw [noId, append_nil]
      exact outstanding.of_same same rfl rfl rfl rfl rfl
    · cases taken
  | lost _ mem now =>
    have transit : ∀ other, (inTransit system).count other = (inTransit { system with
          frontend := frontend
          lost := system.lost ++ (rebuildId msg).toList }).count other +
          (rebuildId msg).toList.count other := by
      intro other
      rw [count_inTransit, count_inTransit]
      show _ = (traffic frontend).puts.count other + (traffic frontend).queued.count other + _ + _ + _
      rw [now]
      have moved := count_erase mem other
      show (system.frontend.sending.filterMap rebuildId).count other + _ + _ + _ =
        ((system.frontend.sending.erase msg).filterMap rebuildId).count other + _ + _ + _ + _
      dsimp only
      omega
    refine outstanding.of_moves (congrArg Traffic.admitted now) (congrArg Traffic.active now) ?_ ?_
    · intro other
      have moved := transit other
      rw [count_settled, count_settled, count_append]
      dsimp only
      omega
    · intro other
      have moved := transit other
      omega

theorem Outstanding.forward (outstanding : Outstanding system) {msg : CacheRebuildMsg}
    (mem : .cacheRebuild msg ∈ system.frontend.sendTokenizer) :
    Outstanding { system with
      frontend := { system.frontend with
        sendTokenizer := system.frontend.sendTokenizer.erase (.cacheRebuild msg) }
      toScheduler := system.toScheduler ++ [msg] } := by
  have counts : ∀ other, (inTransit { system with
      frontend := { system.frontend with
        sendTokenizer := system.frontend.sendTokenizer.erase (.cacheRebuild msg) }
      toScheduler := system.toScheduler ++ [msg] }).count other =
      (inTransit system).count other := by
    intro other
    have moved : (system.frontend.sendTokenizer.filterMap rebuildId).count other =
        [msg.requestId].count other +
          ((system.frontend.sendTokenizer.erase (.cacheRebuild msg)).filterMap rebuildId).count
            other := count_erase mem other
    rw [count_inTransit, count_inTransit]
    show _ + ((system.frontend.sendTokenizer.erase (.cacheRebuild msg)).filterMap rebuildId).count
        other + ((system.toScheduler ++ [msg]).map CacheRebuildMsg.requestId).count other + _ =
      _ + (system.frontend.sendTokenizer.filterMap rebuildId).count other + _ + _
    rw [map_append, count_append, map_singleton, moved]
    unfold traffic
    dsimp only
    omega
  refine outstanding.of_moves rfl rfl ?_ fun other => (counts other).le
  intro other
  rw [counts]
  rfl

theorem Outstanding.recvRebuild (outstanding : Outstanding system) {msg : CacheRebuildMsg}
    (mem : msg ∈ system.toScheduler) :
    Outstanding { system with
      toScheduler := system.toScheduler.erase msg
      backend := system.backend.processRebuild msg } := by
  have empty := outstanding.pending_none mem
  have moved : ∀ other, (system.toScheduler.map CacheRebuildMsg.requestId).count other =
      [msg.requestId].count other +
        ((system.toScheduler.erase msg).map CacheRebuildMsg.requestId).count other := by
    intro other
    have perm := (perm_cons_erase mem).map CacheRebuildMsg.requestId
    rw [perm.count_eq, map_cons, count_cons, count_singleton]
    omega
  obtain ⟨crashed, ⟨pending, results⟩ | ⟨pending, results⟩⟩ :=
    processRebuild_cases system.backend msg
  · refine outstanding.of_moves rfl rfl ?_ ?_
    · intro other
      rw [count_inTransit, count_inTransit, count_settled, count_settled]
      dsimp only
      rw [pending, results, crashed, count_append, moved]
      omega
    · intro other
      rw [count_inTransit, count_inTransit]
      dsimp only
      rw [pending, moved]
      omega
  · refine outstanding.of_moves rfl rfl ?_ ?_
    · intro other
      rw [count_inTransit, count_inTransit, count_settled, count_settled]
      rw [pending, results, crashed, empty, moved]
      simp only [toList_some, toList_none, map_cons, map_nil, count_nil]
      omega
    · intro other
      rw [count_inTransit, count_inTransit]
      rw [pending, empty, moved]
      simp only [toList_some, toList_none, map_cons, map_nil, count_nil]
      omega

theorem Outstanding.execute (outstanding : Outstanding system) {msg : CacheRebuildMsg}
    (alive : system.backend.crashed = none) (kept : system.backend.pendingRebuild = some msg)
    (outcome : RebuildOutcome) :
    Outstanding { system with backend := system.backend.executePending msg outcome } := by
  obtain ⟨pending, ⟨crashed, results⟩ | ⟨crashed, results⟩⟩ :=
    executePending_cases system.backend msg outcome
  · refine outstanding.of_moves rfl rfl ?_ ?_
    · intro other
      rw [count_inTransit, count_inTransit, count_settled, count_settled]
      rw [pending, results, crashed, kept, count_append]
      simp only [toList_some, toList_none, map_cons, map_nil, count_nil]
      omega
    · intro other
      rw [count_inTransit, count_inTransit]
      rw [pending]
      simp only [toList_none, map_nil, count_nil]
      omega
  · refine outstanding.of_moves rfl rfl ?_ ?_
    · intro other
      rw [count_inTransit, count_inTransit, count_settled, count_settled]
      rw [pending, results, crashed, kept, alive]
      simp only [toList_some, toList_none, map_cons, map_nil, count_nil]
      omega
    · intro other
      rw [count_inTransit, count_inTransit]
      rw [pending]
      simp only [toList_none, map_nil, count_nil]
      omega

theorem Outstanding.schedulerStep (outstanding : Outstanding system) {event : Scheduler.Event}
    (taken : schedulerStep cfg system event = some next) : Outstanding next := by
  unfold RebuildControl.schedulerStep at taken
  split at taken
  · split at taken
    · cases taken
      exact outstanding.of_same rfl rfl rfl rfl rfl rfl
    · cases taken
  · cases taken

theorem Outstanding.step (outstanding : Outstanding system) {event : Event}
    (taken : step cfg system event = some next) : Outstanding next := by
  have plain : ∀ {event : Frontend.Event} {frontend : Frontend},
      system.frontend.step event = some frontend →
      (∀ reply, event ≠ .listen (.cacheRebuild reply)) → (∀ msg, event ≠ .putLost msg) →
      Outstanding { system with frontend := frontend } :=
    fun taken notHeard notLost => outstanding.frontend taken notHeard notLost
  cases event with
  | frontend event =>
    unfold RebuildControl.step at taken
    split at taken
    · cases taken
    · obtain ⟨frontend, stepped, now⟩ := map_eq_some_iff.mp taken
      cases now
      exact outstanding.putLost stepped
    · rename_i event notHeard notLost isEvent
      cases isEvent
      obtain ⟨frontend, stepped, now⟩ := map_eq_some_iff.mp taken
      cases now
      exact plain stepped notHeard notLost
    all_goals rename_i isEvent; cases isEvent
  | forward msg =>
    simp only [RebuildControl.step] at taken
    split at taken
    · rename_i mem
      cases taken
      exact outstanding.forward mem
    · cases taken
  | recv msg | launch nextTokens | drain =>
    obtain ⟨-, taken⟩ := Option.ite_none_right_eq_some.mp taken
    exact outstanding.schedulerStep taken
  | recvRebuild msg =>
    simp only [RebuildControl.step] at taken
    split at taken
    · rename_i guards
      cases taken
      exact outstanding.recvRebuild guards.2.1
    · cases taken
  | execute outcome =>
    simp only [RebuildControl.step] at taken
    split at taken
    · rename_i guards
      obtain ⟨msg, kept, now⟩ := map_eq_some_iff.mp taken
      cases now
      exact outstanding.execute (isNone_iff_eq_none.mp guards.1) kept outcome
    · cases taken
  | hear reply =>
    simp only [RebuildControl.step] at taken
    split at taken
    · rename_i sent
      cases taken
      exact outstanding.hear sent
    · cases taken

/-! ### Runs -/

theorem outstanding_initial (instanceId : String) (servedModelName : Option String) (limit : Nat)
    (cm : CacheManager) (maxRunningReqs : Nat) (supportsRuntimeRebuild : Bool) (tpSize : Nat)
    (geometry : CacheGeometry) :
    Outstanding (initial (.initial instanceId servedModelName limit) cm maxRunningReqs
      supportsRuntimeRebuild tpSize geometry) where
  places := Perm.refl []
  distinct := nodup_nil
  active _ mem := nomatch mem

theorem Outstanding.run (outstanding : Outstanding system) {events : List Event}
    (reached : run cfg system events = some next) : Outstanding next := by
  induction events generalizing system with
  | nil =>
    cases reached
    exact outstanding
  | cons event events ih =>
    obtain ⟨stepped, taken, rest⟩ := bind_eq_some_iff.mp reached
    exact ih (outstanding.step taken) rest

/-- A drawn id stays drawn, and one that is not active never becomes so again. -/
structure Spent (requestId : String) (frontend : Frontend) : Prop where
  drawn : requestId ∈ frontend.rebuildIds
  inactive : frontend.activeRebuildId ≠ some requestId

theorem Spent.of_traffic {state next : Frontend} (spent : Spent requestId state)
    (admitted : (traffic next).admitted = (traffic state).admitted)
    (active : (traffic next).active = (traffic state).active) : Spent requestId next where
  drawn := by
    have same : next.rebuildIds = state.rebuildIds := admitted
    rw [same]
    exact spent.drawn
  inactive := by
    have same : next.activeRebuildId = state.activeRebuildId := active
    rw [same]
    exact spent.inactive

theorem Spent.resolveRebuild {state : Frontend} (spent : Spent requestId state)
    (reply : CacheRebuildReply) : Spent requestId (state.resolveRebuild reply) := by
  have now := traffic_resolveRebuild state reply
  split at now
  · have admitted : (state.resolveRebuild reply).rebuildIds = state.rebuildIds :=
      congrArg Traffic.admitted now
    have active : (state.resolveRebuild reply).activeRebuildId = none := congrArg Traffic.active now
    refine ⟨admitted ▸ spent.drawn, ?_⟩
    rw [active]
    nofun
  · exact spent.of_traffic (congrArg Traffic.admitted now) (congrArg Traffic.active now)

theorem Spent.frontendStep {state next : Frontend} {event : Frontend.Event}
    (spent : Spent requestId state) (taken : state.step event = some next) :
    Spent requestId next := by
  cases step_traffic taken with
  | stay same => exact spent.of_traffic (congrArg Traffic.admitted same) (congrArg Traffic.active same)
  | dispatch drawn request fresh _ now =>
    have admitted : next.rebuildIds = state.rebuildIds ++ [drawn] := congrArg Traffic.admitted now
    have active : next.activeRebuildId = some drawn := congrArg Traffic.active now
    refine ⟨admitted ▸ mem_append_left _ spent.drawn, ?_⟩
    intro again
    rw [active] at again
    rw [some.inj again] at fresh
    exact fresh spent.drawn
  | put _ _ now | lost _ _ now => exact spent.of_traffic (by rw [now]) (by rw [now])
  | heard reply now =>
    rw [now]
    exact spent.resolveRebuild reply

theorem Spent.schedulerStep {requestId : String} {event : Scheduler.Event}
    (spent : Spent requestId system.frontend)
    (taken : schedulerStep cfg system event = some next) : Spent requestId next.frontend := by
  unfold RebuildControl.schedulerStep at taken
  split at taken
  · split at taken
    · cases taken
      exact spent
    · cases taken
  · cases taken

theorem Spent.step {requestId : String} (spent : Spent requestId system.frontend) {event : Event}
    (taken : step cfg system event = some next) : Spent requestId next.frontend := by
  cases event with
  | frontend event =>
    unfold RebuildControl.step at taken
    split at taken
    · cases taken
    · obtain ⟨frontend, stepped, now⟩ := map_eq_some_iff.mp taken
      cases now
      exact spent.frontendStep stepped
    · obtain ⟨frontend, stepped, now⟩ := map_eq_some_iff.mp taken
      cases now
      exact spent.frontendStep stepped
    all_goals rename_i isEvent; cases isEvent
  | forward msg =>
    obtain ⟨-, ⟨⟩⟩ := Option.ite_none_right_eq_some.mp taken
    exact ⟨spent.drawn, spent.inactive⟩
  | recv msg | launch nextTokens | drain =>
    obtain ⟨-, taken⟩ := Option.ite_none_right_eq_some.mp taken
    exact spent.schedulerStep taken
  | recvRebuild msg =>
    obtain ⟨-, ⟨⟩⟩ := Option.ite_none_right_eq_some.mp taken
    exact spent
  | execute outcome =>
    obtain ⟨-, taken⟩ := Option.ite_none_right_eq_some.mp taken
    obtain ⟨msg, kept, now⟩ := map_eq_some_iff.mp taken
    cases now
    exact spent
  | hear reply =>
    obtain ⟨-, ⟨⟩⟩ := Option.ite_none_right_eq_some.mp taken
    exact spent.resolveRebuild reply

theorem Spent.run {requestId : String} (spent : Spent requestId system.frontend)
    {events : List Event} (reached : run cfg system events = some next) :
    Spent requestId next.frontend := by
  induction events generalizing system with
  | nil =>
    cases reached
    exact spent
  | cons event events ih =>
    obtain ⟨stepped, taken, rest⟩ := bind_eq_some_iff.mp reached
    exact ih (spent.step taken) rest

theorem listen_inactive {state : Frontend} {reply : CacheRebuildReply}
    (inactive : state.activeRebuildId ≠ some reply.requestId) :
    state.listen (.cacheRebuild reply) = state := if_neg inactive

theorem setResult_other {requestId other : String} (differs : other ≠ requestId)
    (res : RebuildResult) :
    (state.setResult requestId res).rebuildCalls.lookup other = state.rebuildCalls.lookup other := by
  unfold Frontend.setResult
  split
  · exact AList.lookup_insert_ne differs
  · rfl

theorem listen_other (reply : CacheRebuildReply) {other : String}
    (differs : other ≠ reply.requestId) :
    (state.listen (.cacheRebuild reply)).rebuildCalls.lookup other =
      state.rebuildCalls.lookup other := by
  show (state.resolveRebuild reply).rebuildCalls.lookup other = _
  unfold Frontend.resolveRebuild Frontend.resolveFuture
  split
  · split
    · exact setResult_other _ differs _
    · rfl
  · rfl

theorem maintenanceState_resolveFuture (requestId : String) (res : RebuildResult) :
    (state.resolveFuture requestId res).maintenanceState = state.maintenanceState := by
  unfold Frontend.resolveFuture Frontend.setResult
  split
  · split
    · rfl
    · rfl
  · rfl

theorem listen_opens {state : Frontend} {reply : CacheRebuildReply}
    (opens : (state.listen (.cacheRebuild reply)).maintenanceState = .serving) :
    state.maintenanceState = .serving ∨ (state.maintenanceState = .rebuilding ∧
      state.fatalError = none ∧ state.activeRebuildId = some reply.requestId) := by
  replace opens : (state.resolveRebuild reply).maintenanceState = .serving := opens
  unfold Frontend.resolveRebuild at opens
  split at opens
  · rename_i active
    rw [maintenanceState_resolveFuture] at opens
    replace opens : state.stateAfterRebuild reply = .serving := opens
    unfold Frontend.stateAfterRebuild at opens
    split at opens
    · cases opens
    · rename_i healthy
      push Not at healthy
      split at opens
      · rename_i rebuilding
        exact .inr ⟨rebuilding, healthy.1, active⟩
      · exact .inl opens
  · exact .inl opens

/-- A call whose put raised is told that delivery is unknown, unless its result is there. -/
theorem told_unknown {state next : Frontend} {requestId error : String}
    (raised : state.step (.rebuildSendError requestId error) = some next) :
    (requestId, .undelivered requestId
        ("failed to dispatch rebuild; delivery is unknown: " ++ error)) ∈ next.rebuildAnswers ∨
      ∃ res, state.rebuildCalls.lookup requestId = some ⟨false, .done res⟩ ∧
        (requestId, res) ∈ next.rebuildAnswers := by
  simp only [Frontend.step] at raised
  split at raised
  · rename_i future called
    cases raised
    have last := fun answer : RebuildResult =>
      mem_append_right state.rebuildAnswers (mem_singleton_self (requestId, answer))
    cases future with
    | pending => exact .inl (last _)
    | done res => exact .inr ⟨res, called, last _⟩
  · cases raised

/-- **In every reachable state at most one rebuild is on its way, it is the active one and no other
is admitted; the scheduler takes a rebuild on only while it has none. Every admitted rebuild is on its
way, answered by one result, lost with its put or the end of the worker. A result changes nothing but
its own call, nothing at all once its rebuild is not the active one, which it never is again after it
was heard; it opens the frontend only from the rebuild that it ends.** -/
theorem control_plane {cfg : SchedulerConfig} {instanceId : String}
    {servedModelName : Option String} {limit : Nat} {cm : CacheManager} {maxRunningReqs : Nat}
    {supportsRuntimeRebuild : Bool} {tpSize : Nat} {geometry : CacheGeometry} {events : List Event}
    {system : System}
    (reached : run cfg (initial (.initial instanceId servedModelName limit) cm maxRunningReqs
      supportsRuntimeRebuild tpSize geometry) events = some system) :
    (inTransit system).length ≤ 1 ∧
    (∀ requestId ∈ inTransit system, system.frontend.activeRebuildId = some requestId) ∧
    (inTransit system ≠ [] → ∀ requestId request,
      system.frontend.dispatchRebuild requestId request = .error Frontend.rebuildClosed) ∧
    (system.toScheduler ≠ [] → system.backend.pendingRebuild = none) ∧
    (∀ requestId ∈ system.frontend.rebuildIds, (inTransit system).count requestId +
      (system.backend.results.map CacheRebuildReply.requestId).count requestId +
      system.lost.count requestId +
      (system.backend.crashed.toList.map CacheRebuildMsg.requestId).count requestId = 1) ∧
    (∀ requestId error next, system.frontend.step (.rebuildSendError requestId error) = some next →
      (requestId, .undelivered requestId
        ("failed to dispatch rebuild; delivery is unknown: " ++ error)) ∈ next.rebuildAnswers ∨
      ∃ res, system.frontend.rebuildCalls.lookup requestId = some ⟨false, .done res⟩ ∧
        (requestId, res) ∈ next.rebuildAnswers) ∧
    ∀ reply ∈ system.backend.results, reply.requestId ∈ system.frontend.rebuildIds ∧
      (system.frontend.activeRebuildId ≠ some reply.requestId →
        system.frontend.listen (.cacheRebuild reply) = system.frontend) ∧
      (∀ other, other ≠ reply.requestId →
        (system.frontend.listen (.cacheRebuild reply)).rebuildCalls.lookup other =
          system.frontend.rebuildCalls.lookup other) ∧
      ((system.frontend.listen (.cacheRebuild reply)).maintenanceState = .serving →
        system.frontend.maintenanceState = .serving ∨
          (system.frontend.maintenanceState = .rebuilding ∧ system.frontend.fatalError = none ∧
            system.frontend.activeRebuildId = some reply.requestId)) ∧
      ∀ {onward : List Event} {later : System},
        run cfg system (.hear reply :: onward) = some later →
        ∀ again : CacheRebuildReply, again.requestId = reply.requestId →
          later.frontend.listen (.cacheRebuild again) = later.frontend := by
  have outstanding : Outstanding system := (outstanding_initial _ _ _ _ _ _ _ _).run reached
  refine ⟨?_, outstanding.active, ?_, ?_, ?_, fun _ _ _ => told_unknown, ?_⟩
  · -- Two places would be held by the active rebuild, which is counted once.
    cases here : inTransit system with
    | nil => exact Nat.zero_le 1
    | cons requestId rest =>
      cases rest with
      | nil => exact le_rfl
      | cons other rest =>
        have first : requestId ∈ inTransit system := here ▸ mem_cons_self
        have second : other ∈ inTransit system := here ▸ mem_cons_of_mem _ mem_cons_self
        have same := outstanding.alone first second
        have atMost := outstanding.count_le requestId
        rw [here, same, count_cons_self, count_cons_self] at atMost
        omega
  · intro onWay requestId request
    obtain ⟨active, mem⟩ := exists_mem_of_ne_nil _ onWay
    refine if_pos (.inr (.inr ?_))
    rw [outstanding.active active mem]
    nofun
  · intro arriving
    obtain ⟨msg, mem⟩ := exists_mem_of_ne_nil _ arriving
    exact outstanding.pending_none mem
  · intro requestId drawn
    have counts := (outstanding.count requestId).1
    have once := count_eq_one_of_mem outstanding.distinct drawn
    rw [count_settled] at counts
    omega
  · intro reply sent
    have drawn : reply.requestId ∈ system.frontend.rebuildIds := by
      refine outstanding.places.subset (mem_append_right _ ?_)
      exact mem_append_left _ (mem_append_left _ (List.mem_map_of_mem sent))
    refine ⟨drawn, listen_inactive, fun other differs => listen_other _ _ differs, listen_opens, ?_⟩
    intro onward later goesOn again sameId
    obtain ⟨heard, taken, rest⟩ := bind_eq_some_iff.mp goesOn
    have spent : Spent reply.requestId heard.frontend := by
      simp only [RebuildControl.step, if_pos sent, some.injEq] at taken
      subst taken
      show Spent reply.requestId (system.frontend.resolveRebuild reply)
      have now := traffic_resolveRebuild system.frontend reply
      split at now
      · have admitted : (system.frontend.resolveRebuild reply).rebuildIds =
            system.frontend.rebuildIds := congrArg Traffic.admitted now
        have active : (system.frontend.resolveRebuild reply).activeRebuildId = none :=
          congrArg Traffic.active now
        refine ⟨admitted ▸ drawn, ?_⟩
        rw [active]
        nofun
      · rename_i inactive
        exact Spent.resolveRebuild ⟨drawn, inactive⟩ reply
    refine listen_inactive ?_
    rw [sameId]
    exact (spent.run rest).inactive

theorem step_lost {event : Event} (taken : step cfg system event = some next) :
    system.lost ⊆ next.lost := by
  have scheduler : ∀ {event : Scheduler.Event} {next : System},
      schedulerStep cfg system event = some next → system.lost ⊆ next.lost := by
    intro event next taken
    unfold schedulerStep at taken
    split at taken
    · split at taken
      · cases taken
        exact List.Subset.refl _
      · cases taken
    · cases taken
  cases event with
  | frontend event =>
    unfold step at taken
    split at taken
    · cases taken
    · obtain ⟨frontend, stepped, now⟩ := map_eq_some_iff.mp taken
      cases now
      exact subset_append_left _ _
    · obtain ⟨frontend, stepped, now⟩ := map_eq_some_iff.mp taken
      cases now
      exact List.Subset.refl _
    all_goals rename_i isEvent; cases isEvent
  | execute outcome =>
    obtain ⟨-, taken⟩ := Option.ite_none_right_eq_some.mp taken
    obtain ⟨msg, kept, now⟩ := map_eq_some_iff.mp taken
    cases now
    exact List.Subset.refl _
  | recv msg | launch nextTokens | drain =>
    obtain ⟨-, taken⟩ := Option.ite_none_right_eq_some.mp taken
    exact scheduler taken
  | forward msg | recvRebuild msg | hear reply =>
    obtain ⟨-, ⟨⟩⟩ := Option.ite_none_right_eq_some.mp taken
    exact List.Subset.refl _

theorem run_lost {events : List Event} (reached : run cfg system events = some next) :
    system.lost ⊆ next.lost := by
  induction events generalizing system with
  | nil =>
    cases reached
    exact List.Subset.refl _
  | cons event events ih =>
    obtain ⟨stepped, taken, rest⟩ := bind_eq_some_iff.mp reached
    exact List.Subset.trans (step_lost taken) (ih rest)

theorem Outstanding.lost_unanswered (outstanding : Outstanding system) {requestId : String}
    (isLost : requestId ∈ system.lost) {onward : List Event}
    (goesOn : RebuildControl.run cfg system onward = some next) :
    requestId ∉ next.backend.results.map CacheRebuildReply.requestId := by
  intro answered
  have atMost := (outstanding.run goesOn).count_le requestId
  have lost := count_pos_iff.mpr (run_lost goesOn isLost)
  have res := count_pos_iff.mpr answered
  rw [count_settled] at atMost
  omega

/-! ### Two runs -/

def plainConfig : SchedulerConfig where
  maxSeqLen := 8
  prefillBudget := 8
  eosTokenIds := [9]
  toolcallAnchorId := none
  decode := fun _ => []
  swaEvictionInterval := 1

def plainSystem : System :=
  initial (.initial "engine" none 0)
    (CacheManager.new 8 1 .naive (LinearStatePool.new 1) none 0) 4 true 1
    { numPages := 8, moeCacheSize := none, numMambaSlots := none, numSwaPages := none }

def firstRebuild : CacheRebuildMsg := { requestId := "first", request := {} }

def lateEvents : List Event :=
  [.frontend (.backendReady 0), .frontend (.dispatchRebuild "first" {}),
    .frontend (.putDone (.cacheRebuild firstRebuild)), .forward firstRebuild,
    .recvRebuild firstRebuild, .frontend (.rebuildTimedOut "first"), .execute (.rejected "too big")]

def lostEvents : List Event :=
  [.frontend (.backendReady 0), .frontend (.dispatchRebuild "first" {}),
    .frontend (.putLost (.cacheRebuild firstRebuild)),
    .frontend (.rebuildSendError "first" "queue closed")]

theorem control_plane_late : ∃ system : System, run plainConfig plainSystem lateEvents = some system ∧
    system.backend.results.length = 1 ∧ (inTransit system).length ≤ 1 := by
  have reached : run plainConfig plainSystem lateEvents = some _ := rfl
  exact ⟨_, reached, rfl, (control_plane reached).1⟩

/-- **A result that comes after its caller gave up opens the frontend, and a rebuild whose put failed
has no result, now or later.** -/
theorem late_reply_opens :
    (∃ system : System, run plainConfig plainSystem lateEvents = some system ∧
      system.frontend.rebuildCalls.lookup "first" = none ∧
      system.frontend.maintenanceState = .rebuilding ∧
      ∃ reply ∈ system.backend.results, reply.requestId = "first" ∧
        (system.frontend.listen (.cacheRebuild reply)).maintenanceState = .serving) ∧
    ∃ system : System, run plainConfig plainSystem lostEvents = some system ∧
      system.frontend.rebuildIds = ["first"] ∧
      ∀ onward later, run plainConfig system onward = some later →
        "first" ∉ later.backend.results.map CacheRebuildReply.requestId := by
  constructor
  · exact ⟨_, rfl, rfl, rfl, _, mem_singleton_self _, rfl, rfl⟩
  · refine ⟨_, rfl, rfl, ?_⟩
    intro onward later reached
    have outstanding : Outstanding plainSystem := outstanding_initial _ _ _ _ _ _ _ _
    exact (@Outstanding.run plainConfig _ _ outstanding lostEvents rfl).lost_unanswered
      (mem_singleton_self _) reached

end RebuildControl

end FreeToken
