/-
**The idle check.**
-/

import FreeToken.KVCache.SWAOperations
import FreeToken.Scheduler.HybridSlots
import FreeToken.Scheduler.PageLedger

namespace FreeToken

open List Function

namespace Scheduler

variable {cfg : SchedulerConfig} {s next : Scheduler}

/-! ### Who is attended -/

/-- Whoever holds a row and is not a chunk that another follows decodes, or is in a batch that is not
drained yet; but for one request that is off the queue. -/
def AttendedBut (late : Option Nat) (s : Scheduler) : Prop :=
  ∀ name < s.nextReq, (s.reqs name).tableIdx.isSome →
    (s.reqs name).chunked = false ∨ (s.reqs name).aborted = true → some name ≠ late →
    (s.reqs name).canDecode = true ∧ (s.reqs name).aborted = false ∨ name ∈ s.queue ∨
      name ∈ s.inForward

abbrev Attended (s : Scheduler) : Prop := AttendedBut none s

/-- A change that leaves a request, or puts it into a batch or off its row. -/
theorem AttendedBut.change {late : Option Nat} (attended : AttendedBut late s)
    (reqs : ∀ name < next.nextReq, (next.reqs name).tableIdx.isSome → some name ≠ late →
      name < s.nextReq ∧ (next.reqs name).core = (s.reqs name).core ∨
        name ∈ next.queue ∨ name ∈ next.inForward)
    (batches : ∀ name, some name ≠ late → name ∈ s.queue ∨ name ∈ s.inForward →
      name ∈ next.queue ∨ name ∈ next.inForward) : AttendedBut late next := by
  intro name known seated owner apart
  rcases reqs name known seated apart with ⟨old, same⟩ | inBatch
  · rw [Req.canDecode_of_core same, Req.aborted_of_core same]
    rw [Req.chunked_of_core same, Req.aborted_of_core same] at owner
    rw [Req.tableIdx_of_core same] at seated
    exact (attended name old seated owner apart).imp_right (batches name apart)
  · exact .inr inBatch

theorem processOneMsg_attended (control : Control s) (attended : Attended s)
    (receiving : s.todo = none) {msg : Msg} (done : s.processOneMsg cfg msg = .ok next) :
    Attended next := by
  cases msg with
  | user msg =>
    cases done
    unfold processUser
    dsimp only
    split
    · exact attended
    · split <;> exact attended
  | abort uid =>
    obtain ⟨taken, freed, reqToFree, took, freeing, rfl⟩ := processAbort_ok control done
    have takenAttended : Attended taken := by cases took <;> exact attended
    have todo : taken.todo = none := by cases took <;> exact receiving
    cases reqToFree with
    | none =>
      cases freeing
      exact takenAttended
    | some name =>
      change (if taken.inFlight name then _ else _) = _ at freeing
      split at freeing
      · next flight =>
        cases freeing
        refine AttendedBut.change takenAttended (fun other known seated _ => ?_) fun _ _ inBatch => inBatch
        by_cases same : other = name
        · subst same
          refine .inr (.inl ?_)
          unfold inFlight at flight
          unfold queue
          dsimp only [setReq]
          rw [todo]
          cases launched : taken.lastData with
          | none => simp [launched] at flight
          | some data => simpa [launched] using flight
        · exact .inl ⟨known, congrArg Req.core (update_of_ne same ..)⟩
      · obtain ⟨retired, gone, -⟩ := freeReqResources_retired freeing
        refine AttendedBut.change takenAttended (fun other known seated _ => .inl ⟨retired.nextReq ▸ known, ?_⟩)
          fun _ _ inBatch => ?_
        · refine congrArg Req.core (retired.others other fun same => ?_)
          rw [same, gone] at seated
          cases seated
        · rwa [retired.todo, retired.lastData, retired.ongoing]

/-- A round chooses among the requests there were and those it adds, which are in its batch. -/
theorem Scheduled.old {batch : Option (Batch × List (Nat × Nat × Nat))}
    (scheduled : Scheduled cfg s next batch) {name : Nat} (known : name < next.nextReq) :
    name < s.nextReq ∧ next.reqs name = s.reqs name ∨
      ∃ chosen, batch = some chosen ∧ name ∈ chosen.1.reqs := by
  cases scheduled with
  | prefill taken rest pass _ split of _ =>
    by_cases old : name < s.nextReq
    · exact .inl ⟨old, of.old name old⟩
    · refine .inr ⟨_, rfl, ?_⟩
      change name < pass.nextReq at known
      rw [of.nextReq] at known
      rw [of.batch, mem_range'_1]
      exact ⟨not_lt.mp old, known⟩
  | other pass of _ _ _ =>
    have old : name < s.nextReq := (show name < pass.nextReq from known).trans_eq of.nextReq
    exact .inl ⟨old, of.old name old⟩

theorem launch_attended (control : Control s) (phase : Phase s) (attended : Attended s)
    (receiving : s.todo = none) {nextTokens : Nat → Token}
    (done : s.launch cfg nextTokens = .ok next) : Attended next := by
  have idle := (phase.receiving receiving).1
  obtain ⟨launched, ok, after⟩ := launch_ok done
  have batch := launchBatch_ok control idle ok
  obtain ⟨last, todo, -⟩ := batch.frame
  have launchedAttended : Attended launched := by
    refine AttendedBut.change attended (fun name known seated _ => ?_) fun name _ inBatch => .inl ?_
    · cases batch with
      | idle mid scheduled =>
        rcases scheduled.old known with ⟨old, same⟩ | ⟨_, absurd, _⟩
        · exact .inl ⟨old, congrArg Req.core same⟩
        · cases absurd
      | batch mid prepared batch admissions scheduled _ forwarded =>
        rcases scheduled.old (forwarded.nextReq ▸ known) with ⟨old, same⟩ | ⟨chosen, is, inBatch⟩
        · by_cases inBatch : name ∈ batch.reqs
          · exact .inr (.inr inBatch)
          · exact .inl ⟨old, (forwarded.others name inBatch).trans (congrArg Req.core same)⟩
        · obtain rfl := Option.some.inj is
          exact .inr (.inr inBatch)
    · unfold queue inForward at *
      rw [idle] at inBatch
      rw [last, todo]
      simpa using inBatch
  rcases after with ⟨nothing, rfl⟩ | ⟨data, some_, rfl⟩
  · refine AttendedBut.change launchedAttended (fun _ known _ _ => .inl ⟨known, rfl⟩) fun name _ inBatch => .inl ?_
    unfold queue inForward at *
    dsimp only [flushAbortAcks, sendResult]
    rw [todo, receiving, nothing] at inBatch
    rw [todo, receiving]
    simpa using inBatch
  · refine AttendedBut.change launchedAttended (fun _ known _ _ => .inl ⟨known, rfl⟩) fun name _ inBatch => ?_
    refine inBatch.imp_left fun mem => ?_
    unfold queue at mem ⊢
    rw [todo, receiving, some_] at mem
    exact mem

/-- A request that is off the queue and ended, or that goes on, is late no more. -/
theorem AttendedBut.settle {name : Nat} (attended : AttendedBut (some name) s)
    (nextReq : next.nextReq = s.nextReq) (todo : next.todo = s.todo)
    (last : next.lastData = s.lastData) (ongoing : next.ongoing = s.ongoing)
    (others : ∀ other ≠ name, next.reqs other = s.reqs other)
    (own : (next.reqs name).tableIdx.isSome →
      (next.reqs name).chunked = false ∨ (next.reqs name).aborted = true →
      (next.reqs name).canDecode = true ∧ (next.reqs name).aborted = false ∨
        name ∈ s.inForward) : Attended next := by
  have queueSame : next.queue = s.queue := by
    unfold queue
    rw [todo, last]
  have forwardSame : next.inForward = s.inForward := by
    unfold inForward
    rw [ongoing]
  intro other known seated owner _
  rw [queueSame, forwardSame]
  by_cases same : other = name
  · subst same
    exact (own seated owner).imp_right .inr
  · rw [others other same] at seated owner ⊢
    exact attended other (nextReq ▸ known) seated owner fun equal => same (Option.some.inj equal)

/-- **The drain of one request** takes it off the queue: it ends there, or it goes on decoding. -/
theorem DrainedReq.attended {data : ForwardData} {name : Nat}
    (attended : AttendedBut (some name) s) (notQueued : name ∉ s.queue)
    (finished : ∀ other ∈ s.finishedReqs, (s.reqs other).tableIdx = none)
    (lengths : (s.reqs name).tableIdx.isSome →
      (s.reqs name).deviceLen = (s.reqs name).cachedLen + 1 ∧
        (s.reqs name).inputIds.length + 1 + (if (s.reqs name).chunked then 0
          else (s.undelivered name).length) = (s.reqs name).deviceLen)
    (drained : DrainedReq cfg s data name next) : Attended next := by
  have ends : ∀ {start last : Scheduler}, Retired start name last →
      (last.reqs name).tableIdx = none → start.nextReq = s.nextReq → start.todo = s.todo →
      start.lastData = s.lastData → start.ongoing = s.ongoing →
      (∀ other ≠ name, start.reqs other = s.reqs other) → Attended last := by
    intro start last retired gone nextReq todo lastData ongoing others
    refine attended.settle (retired.nextReq.trans nextReq) (retired.todo.trans todo)
      (retired.lastData.trans lastData) (retired.ongoing.trans ongoing)
      (fun other apart => (retired.others other apart).trans (others other apart)) fun seated => ?_
    rw [gone] at seated
    cases seated
  cases drained with
  | chunk chunked live =>
    refine attended.settle rfl rfl rfl rfl (fun _ _ => rfl) fun _ owner => ?_
    rw [chunked, live] at owner
    simp at owner
  | chunkFreed next chunked aborted done =>
    obtain ⟨retired, gone, -⟩ := freeReqResources_retired done
    exact ends retired gone rfl rfl rfl rfl fun _ _ => rfl
  | aborted next whole aborted done =>
    obtain ⟨retired, -, gone, -⟩ := finishReq_retired done
    exact ends retired gone rfl rfl rfl rfl fun _ _ => rfl
  | skipped whole live isEnded =>
    refine attended.settle rfl rfl rfl rfl (fun _ _ => rfl) fun seated => ?_
    rw [finished name isEnded] at seated
    cases seated
  | delivered next whole live goesOn done =>
    obtain ⟨-, -, given, core, -, delivered⟩ := deliver_ok done
    have goes : ∀ req : Req, req.core = given.core → (verdict cfg { s.reqs name with
        inputIds := (s.reqs name).inputIds ++ [data.nextTokens name] }
          (data.nextTokens name)).finished = false → req.tableIdx.isSome →
        req.canDecode = true ∧ req.aborted = false ∨ name ∈ s.inForward := by
      intro req same running seated
      have same := same.trans core
      have tableIdx := congrArg Req.tableIdx same
      refine or_iff_not_imp_right.mpr fun notForward => ⟨?_, (congrArg Req.aborted same).trans live⟩
      obtain ⟨-, ids⟩ := lengths (tableIdx ▸ seated)
      have nothing : s.undelivered name = [] := by
        unfold undelivered
        rw [if_neg notQueued, if_neg notForward]
        rfl
      rw [whole, nothing] at ids
      unfold verdict at running
      simp only [Bool.or_eq_false_iff, decide_eq_false_iff_not, length_append, length_singleton]
        at running
      have chunked : req.chunked = false := (congrArg Req.chunked same).trans whole
      have deviceLen := congrArg Req.deviceLen same
      have maxLen := congrArg Req.maxDeviceLen same
      change req.deviceLen = (s.reqs name).deviceLen at deviceLen
      change req.maxDeviceLen = (s.reqs name).maxDeviceLen at maxLen
      have room := running.1.1
      unfold Req.canDecode Req.remainLen
      rw [chunked, deviceLen, maxLen]
      simp at ids ⊢
      omega
    cases delivered with
    | finished _ _ done =>
      obtain ⟨retired, -, gone, -⟩ := finishReq_retired done
      exact ends retired gone rfl rfl rfl rfl fun other apart => update_of_ne apart ..
    | committed cm req running _ _ commit =>
      refine attended.settle rfl rfl rfl rfl (fun other apart => ?_) fun seated _ => ?_
      · exact (update_of_ne apart ..).trans (update_of_ne apart ..)
      · dsimp only [setReq] at seated ⊢
        rw [update_self] at seated ⊢
        exact goes req (CacheManager.cacheReq_core commit) running seated
    | kept running =>
      refine attended.settle rfl rfl rfl rfl (fun other apart => update_of_ne apart ..)
        fun seated _ => ?_
      dsimp only [setReq] at seated ⊢
      rw [update_self] at seated ⊢
      exact goes given rfl running seated

theorem drain_attended (control : Control s) (phase : Phase s) (attended : Attended s)
    (draining : s.todo.isSome) (done : s.drain cfg = .ok next) : Attended next := by
  rcases drain_ok phase draining done with ⟨name, rest, data, todo, last, drained⟩ | ⟨todo, rfl⟩
  · obtain ⟨late, known, -, lengths⟩ := control.dequeue todo last
    have queueIs : s.queue = name :: rest := by
      unfold queue
      rw [todo]
    have nodup := control.queueDistinct
    rw [queueIs] at nodup
    refine drained.attended (fun other below seated owner apart => ?_) (nodup_cons.mp nodup).1
      (fun other mem => (late.finished other (mem_append_left _ mem)).2) lengths
    refine (attended other below seated owner (by simp)).imp_right (Or.imp_left fun mem => ?_)
    rw [queueIs] at mem
    exact (mem_cons.mp mem).resolve_left fun same => apart (congrArg some same)
  · refine AttendedBut.change attended (fun _ known _ _ => .inl ⟨known, rfl⟩) fun name _ inBatch => .inl ?_
    unfold queue inForward at inBatch
    rw [todo] at inBatch
    unfold queue
    dsimp only [finishDrain, flushAbortAcks, sendResult]
    simpa using inBatch

/-- **Who holds a row is attended, in every state that is reached.** -/
theorem attended_run {cm : CacheManager} {maxRunningReqs : Nat} {events : List Event}
    (run : Run cfg (Scheduler.new cm maxRunningReqs) events s) : Attended s := by
  induction run with
  | nil => nofun
  | @snoc events s next event run enabled done ih =>
    obtain ⟨control, phase⟩ := control_run run
    cases event with
    | recv msg => exact processOneMsg_attended control ih (Option.isNone_iff_eq_none.mp enabled) done
    | launch nextTokens =>
      exact launch_attended control phase ih (Option.isNone_iff_eq_none.mp enabled) done
    | drain => exact drain_attended control phase ih enabled done

/-- Nothing waits, runs or is in flight: the scheduler blocks for the next message. -/
def idle (s : Scheduler) : Bool :=
  s.todo.isNone && s.lastData.isNone && s.pendingList.isEmpty && s.decodeManager.runningReqs.isEmpty

/-- A request that holds resources decodes, is in a batch that is not drained, or waits for its next
chunk. -/
theorem Attended.whereabouts (attended : Attended s) (control : Control s) {name : Nat}
    (holds : s.Houses name) : name ∈ s.decodeManager.runningReqs ∨ name ∈ s.queue ∨
      name ∈ s.inForward ∨ ∃ pending ∈ s.pendingList, pending.chunkedReq = some name := by
  obtain ⟨known, seated, owner⟩ := holds
  rw [← or_assoc] at owner
  rcases owner with owner | waits
  · rcases attended name known seated owner (by simp) with ⟨decodes, live⟩ | queued | launched
    · exact .inl (control.decoding name known decodes live seated (by simp))
    · exact .inr (.inl queued)
    · exact .inr (.inr (.inl launched))
  · exact .inr (.inr (.inr waits))

theorem Attended.unseated (attended : Attended s) (control : Control s) (phase : Phase s)
    (idle : s.idle = true) (name : Nat) : ¬s.Houses name := by
  unfold Scheduler.idle at idle
  simp only [Bool.and_eq_true, Option.isNone_iff_eq_none, List.isEmpty_iff] at idle
  obtain ⟨⟨⟨todo, last⟩, pending⟩, running⟩ := idle
  intro holds
  have here := attended.whereabouts control holds
  unfold queue inForward at here
  rw [todo, last, (phase.receiving todo).1, pending, running] at here
  simp at here

/-- **No request keeps a row unattended**, whatever its cache and whatever was aborted, chunked or
cut short; and an idle scheduler has given every row back. -/
theorem rows_attended {cm : CacheManager} {maxRunningReqs : Nat} {events : List Event}
    (run : Run cfg (Scheduler.new cm maxRunningReqs) events s) :
    (∀ name, s.Houses name → name ∈ s.decodeManager.runningReqs ∨ name ∈ s.queue ∨
      name ∈ s.inForward ∨ ∃ pending ∈ s.pendingList, pending.chunkedReq = some name) ∧
      (s.idle = true → ∀ name, ¬s.Houses name) := by
  obtain ⟨control, phase⟩ := control_run run
  exact ⟨fun _ holds => (attended_run run).whereabouts control holds,
    fun idle => (attended_run run).unseated control phase idle⟩

/-- An abort of a request in flight: it is marked, and freed when the batch is drained. -/
theorem rows_attended_aborted : ∃ s : Scheduler, Run ⟨64, 32, [], none, fun _ => [], 8⟩
      (Scheduler.new (newRadix 8 2 ⟨fun _ => 0, 0⟩ (LinearStatePool.new 1) none 0) 2)
      [.recv (.user ⟨0, [1, 2, 3], ⟨true, 4, []⟩, false⟩), .launch fun _ => 7, .recv (.abort 0),
        .launch fun _ => 8, .drain, .drain] s ∧ s.idle = true ∧ ∀ name, ¬s.Houses name := by
  obtain ⟨s, run, idle⟩ : ∃ s, Run ⟨64, 32, [], none, fun _ => [], 8⟩
      (Scheduler.new (newRadix 8 2 ⟨fun _ => 0, 0⟩ (LinearStatePool.new 1) none 0) 2)
      [.recv (.user ⟨0, [1, 2, 3], ⟨true, 4, []⟩, false⟩), .launch fun _ => 7, .recv (.abort 0),
        .launch fun _ => 8, .drain, .drain] s ∧ s.idle = true :=
    ⟨_, .snoc (.snoc (.snoc (.snoc (.snoc (.snoc .nil rfl rfl) rfl rfl) rfl rfl) rfl rfl) rfl rfl)
      rfl rfl, rfl⟩
  exact ⟨s, run, idle, (rows_attended run).2 idle⟩

end Scheduler

/-! ### The check -/

/-- `HybridRadixCache.check_integrity`. -/
def HybridRadixCache.checkIntegrity (cache : HybridRadixCache) : Except Err Unit :=
  (cache.tier.nodes.filter fun node => node.data.mambaValue.isSome).forM fun node =>
    ensure (node.data.mambaValue.isSome ∧ 0 ≤ node.data.mambaRefCount ∧ 0 ≤ node.data.refCount) ""

/-- `SWARadixCache.check_integrity`. -/
def SWARadixCache.checkIntegrity (cache : SWARadixCache) : Except Err Unit :=
  cache.tier.nodes.forM fun node => do
    ensure (0 ≤ node.data.refCount ∧ 0 ≤ node.data.swaRefCount) ""
    ensure (node.data.swaRefCount ≤ node.data.refCount) "full_ref must be >= swa_ref"
    if node.data.swaTombstone then
      ensure (node.data.swaRefCount = 0) "a tombstoned node cannot hold a swa lock"

namespace CacheManager

variable (cm : CacheManager)

/-- The checks of the tree and of its second currency; the pages in the tree. -/
def checkTree : Except Err Int :=
  match cm.prefixCache with
  | .hybrid cache => do
      cache.checkIntegrity
      let free := cm.linearStatePool.numFreeSlots
      let treeSlots := cache.mambaEvictable + cache.mambaProtected
      let capacity : Int := cm.linearStatePool.numSlots - 1
      ensure (free + treeSlots ≤ capacity)
        s!"GDN-slot leak: free({free}) + tree({treeSlots}) > capacity({capacity})"
      pure ((cache.tier.evictableSize + cache.tier.protectedSize) / cm.pageSize)
  | .swa cache => do
      cache.checkIntegrity
      let free := cm.swaPool.elim 0 HybridSWAPool.swaAvailableSize
      let treeSwa := cache.swaEvictable + cache.swaProtected
      let capacity : Int := cm.swaPool.elim 0 HybridSWAPool.swaNumTokens - 1
      ensure (free + treeSwa = capacity)
        s!"SWA-slot leak/double-free: free({free}) + tree({treeSwa}) != capacity({capacity})"
      pure ((cache.tier.evictableSize + cache.tier.protectedSize) / cm.pageSize)
  | .radix cache => pure ((cache.tier.evictableSize + cache.tier.protectedSize) / cm.pageSize)
  | .naive => pure 0

/-- `check_integrity`, which `run_when_idle` calls. -/
def checkIntegrity : Except Err Unit := do
  let cachePages ← cm.checkTree
  if (cm.freeSlots.length : Int) + cachePages ≠ cm.numPages then
    throw (.runtime (s!"CacheManager integrity check failed: free_pages({cm.freeSlots.length}) +" ++
      s!" cache_pages({cachePages}) != num_pages({cm.numPages})"))
  if 1 < cm.pageSize then
    ensure (∀ slot ∈ cm.freeSlots, slot % cm.pageSize = 0) ""

end CacheManager

/-- A check of all nodes passes when each does. -/
theorem forM_ok {α : Type} {check : α → Except Err PUnit} {list : List α}
    (each : ∀ x ∈ list, check x = .ok ⟨⟩) : list.forM check = .ok ⟨⟩ := by
  induction list with
  | nil => rfl
  | cons x rest ih =>
    unfold List.forM
    rw [each x mem_cons_self]
    exact ih fun y mem => each y (mem_cons_of_mem _ mem)

namespace SWARadixCache

/-- What `check_integrity` asserts of a window tree, and that its four counters are the sums over its
nodes. -/
structure Intact (cache : SWARadixCache) : Prop where
  passes : cache.checkIntegrity = .ok ()
  evictable : cache.tier.evictableSize = PageTree.total idle cache.tier.nodes
  protect : cache.tier.protectedSize = PageTree.total pinned cache.tier.nodes
  swaEvictable : cache.swaEvictable = PageTree.total liveIdle cache.tier.nodes
  swaProtected : cache.swaProtected = PageTree.total liveLocked cache.tier.nodes

/-- **The check of the window tree passes in every tree that is reached**, under any order of
matches, insertions, locks, releases, evictions and trims. -/
theorem reachable_intact {ps window : Nat} (pos : 0 < ps) (windowPos : 0 < window)
    {st : LockedTree} (reachable : Reachable ps window st) : st.cache.Intact := by
  have inv := reachable.inv pos windowPos
  refine ⟨forM_ok fun node mem => ?_, inv.full.counts.evictable, inv.full.counts.protect,
    inv.counts.evictable, inv.counts.protect⟩
  have full := inv.full.counts.refCount node mem
  have window := inv.counts.swaRef node mem
  have below := windowThrough_le st.locks node.path
  have low := windowThrough_nonneg st.locks node.path
  by_cases dead : node.data.swaTombstone = true
  · rw [if_pos dead] at window
    rw [ensure_of (by omega), ensure_of (by omega), ensure_of window, if_pos dead]
    rfl
  · rw [if_neg dead] at window
    rw [ensure_of (by omega), ensure_of (by omega), if_neg dead]
    rfl

/-- A locked node that a match has split. -/
theorem reachable_intact_split : ∃ st, Reachable 1 1 st ∧ st.locks.length = 1 ∧
    st.cache.tier.nodes.length = 2 ∧ st.cache.Intact := by
  have inserted : (new 1 1).insert [7, 8, 9] [0, 1, 2] 0 0 = .ok (oneNode, 0, []) := by decide
  have reach := ((Reachable.init.step (.insert _ _ _ 0 0 (by decide) _ inserted)).step
    (.incLock _ [7, 8, 9] (.inr (by decide)))).step (.matchPrefix _ [7, 8])
  exact ⟨_, reach, by decide, by decide, reachable_intact (by decide) (by decide) reach⟩

end SWARadixCache

variable {ps : Nat} {locks : List (List Token)} {cache : HybridRadixCache}

/-- **The check of the hybrid tree passes** under any locks. -/
theorem HybridInv.checkIntegrity (inv : HybridInv ps locks cache) :
    cache.checkIntegrity = .ok () := by
  refine forM_ok fun node mem => ensure_of ?_ _
  obtain ⟨lt, snapshot⟩ := mem_filter.mp mem
  refine ⟨snapshot, ?_, ?_⟩
  · rw [inv.core.mambaRef node lt]
    exact Int.natCast_nonneg _
  · rw [inv.core.tier.counts.refCount node lt]
    exact through_nonneg _ _

/-- The pages of the tree are what its two counters say. -/
theorem treePages_length {nodes : List RadixTreeNode} (pos : 0 < ps) (full : FullNodes nodes)
    (whole : ∀ node ∈ nodes, ps ∣ node.length) :
    PageTree.total idle nodes + PageTree.total pinned nodes = (treePages ps nodes).length * ps := by
  induction nodes with
  | nil => exact (Int.zero_mul _).symm
  | cons node rest ih =>
    have rest_ := ih (fun other mem => full other (mem_cons_of_mem _ mem))
      fun other mem => whole other (mem_cons_of_mem _ mem)
    obtain ⟨pages, isPages⟩ := whole node mem_cons_self
    have head : (stride ps node.data.value).length * ps = node.length := by
      rw [stride_eq pos, length_map, length_range, full node mem_cons_self, isPages,
        mul_comm ps pages, divCeil_mul _ pos]
    have split : treePages ps (node :: rest) = stride ps node.data.value ++ treePages ps rest := rfl
    have both : idle node + pinned node = node.length := by
      unfold idle pinned
      split <;> simp
    rw [PageTree.total_cons, PageTree.total_cons, split, length_append]
    push_cast
    rw [Int.add_mul, ← rest_]
    have head : ((stride ps node.data.value).length : Int) * ps = node.length := by
      exact_mod_cast head
    omega

/-- **The idle check of the plain manager passes**: in every state that is reached in which nothing
waits, runs or is in flight, the free pages and those of the tree are all pages. -/
theorem idle_integrity {numPages maxRunningReqs slidingWindowSize : Nat} {clock : Clock}
    {pool : LinearStatePool} {swaPool : Option HybridSWAPool} {cfg : SchedulerConfig}
    (pos : 0 < ps) {events : List Scheduler.Event} {s : Scheduler}
    (run : Scheduler.Run cfg (Scheduler.new
      (newRadix numPages ps clock pool swaPool slidingWindowSize) maxRunningReqs) events s)
    (idle : s.idle = true) :
    s.cacheManager.checkIntegrity = .ok () ∧
      s.tableManager.freeSlots.Perm (range maxRunningReqs) := by
  obtain ⟨control, phase⟩ := Scheduler.control_run run
  obtain ⟨names, -, who, holds⟩ := pageInv_run pos run
  obtain rfl : names = [] := eq_nil_iff_forall_not_mem.mpr fun name mem =>
    (Scheduler.attended_run run).unseated control phase idle name (by simpa using (who name).mp mem)
  have receiving : s.todo.isSome = false := by
    unfold Scheduler.idle at idle
    simp only [Bool.and_eq_true, Option.isNone_iff_eq_none] at idle
    rw [idle.1.1.1]
    rfl
  obtain ⟨total, cache, kind, size, inv, pages⟩ := holds.paged
  rw [holds.closed receiving] at pages
  change (s.cacheManager.freeSlots ++ [] ++ (treePages ps cache.tier.nodes ++ [])).Perm _ at pages
  rw [append_nil, append_nil] at pages
  refine ⟨?_, holds.rows⟩
  have counted := treePages_length inv.positive inv.full inv.tier.wf.aligned
  rw [← inv.tier.counts.evictable, ← inv.tier.counts.protect] at counted
  have sum := pages.length_eq
  rw [length_append, length_map, length_range] at sum
  unfold CacheManager.checkIntegrity CacheManager.checkTree
  rw [kind]
  dsimp only
  rw [counted, size, Int.mul_ediv_cancel _ (by have := inv.positive; omega), total]
  refine (if_neg (not_not.mpr (by exact_mod_cast sum))).trans ?_
  split
  · refine ensure_of (fun slot mem => ?_) _
    obtain ⟨page, -, rfl⟩ := mem_map.mp (pages.subset (mem_append_left _ mem))
    exact Nat.mul_mod_left page ps
  · rfl

/-- One prompt that ends with its first token: the round after it is idle. -/
theorem idle_integrity_round : ∃ (cfg : SchedulerConfig) (s : Scheduler),
    Scheduler.Run cfg (Scheduler.new (newRadix 8 2 ⟨fun _ => 0, 0⟩ (LinearStatePool.new 1) none 0) 2)
      [.recv (.user ⟨0, [1, 2, 3], ⟨true, 1, []⟩, false⟩), .launch fun _ => 7, .launch fun _ => 8,
        .drain, .drain] s ∧ s.idle = true ∧
    s.cacheManager.checkIntegrity = .ok () ∧ s.tableManager.freeSlots.Perm (range 2) := by
  refine ⟨⟨64, 32, [], none, fun _ => [], 8⟩, ?_⟩
  obtain ⟨s, run, idle⟩ : ∃ s, Scheduler.Run ⟨64, 32, [], none, fun _ => [], 8⟩
      (Scheduler.new (newRadix 8 2 ⟨fun _ => 0, 0⟩ (LinearStatePool.new 1) none 0) 2)
      [.recv (.user ⟨0, [1, 2, 3], ⟨true, 1, []⟩, false⟩), .launch fun _ => 7, .launch fun _ => 8,
        .drain, .drain] s ∧ s.idle = true :=
    ⟨_, .snoc (.snoc (.snoc (.snoc (.snoc .nil rfl rfl) rfl rfl) rfl rfl) rfl rfl) rfl rfl, rfl⟩
  exact ⟨s, run, idle, idle_integrity (by decide) run idle⟩

/-- Where the recurrent-state slots are: in the tree `cache`, with the requests `names` or free. -/
structure SlotsConserved (numSlots : Nat) (s : Scheduler) (cache : HybridRadixCache)
    (names : List Nat) : Prop where
  tree : s.cacheManager.prefixCache = .hybrid cache
  distinct : names.Nodup
  holders : ∀ name, name ∈ names ↔ s.Houses name
  slots : (s.cacheManager.linearStatePool.freeSlots ++ (snapshots cache.tier.nodes ++
    names.flatMap fun name => slotsOf (s.reqs name))).Perm (range' 1 (numSlots - 1))
  equipped : ∀ name ∈ names, Equipped (s.reqs name)
  passes : cache.checkIntegrity = .ok ()
  idle : s.idle = true → names = []

/-- **Recurrent-state slots over a run of the hybrid manager.** In every state that is reached each
slot but the padding one is free, the snapshot of one node or held by one request, which has its live
slot and its pair; the check of the tree passes, and an idle scheduler holds no slot. -/
theorem hybrid_slots_conserved {numPages numSlots maxRunningReqs slidingWindowSize : Nat}
    {clock : Clock} {swaPool : Option HybridSWAPool} {cfg : SchedulerConfig}
    (enough : 4 * maxRunningReqs + 1 ≤ numSlots) {events : List Scheduler.Event} {s : Scheduler}
    (run : Scheduler.Run cfg (Scheduler.new
      (newHybrid numPages ps numSlots clock swaPool slidingWindowSize) maxRunningReqs) events s) :
    ∃ cache names, SlotsConserved numSlots s cache names := by
  obtain ⟨control, phase⟩ := Scheduler.control_run run
  obtain ⟨names, nodup, who, holds⟩ := (slotInv_keeps enough).run
    (SlotInv.new numPages clock swaPool slidingWindowSize) run fun _ event _ state _ _ => by
      cases event with
      | drain => exact fun _ _ => trivial
      | _ => trivial
  obtain ⟨cache, kind, inv, slots⟩ := holds.pinned
  refine ⟨cache, names, kind, nodup, fun name => by simp [who], ?_, fun name mem => ?_,
    inv.checkIntegrity, fun idle => eq_nil_iff_forall_not_mem.mpr fun name mem => ?_⟩
  · unfold Scheduler.atRest at slots
    rwa [flatMap_map] at slots
  · exact holds.equipped _ (mem_map_of_mem (f := fun name => (Stage.resting, s.reqs name)) mem)
  · exact (Scheduler.attended_run run).unseated control phase idle name
      (by simpa using (who name).mp mem)

/-- One request and five slots: a prompt arrives and is launched. -/
theorem hybrid_slots_conserved_one : ∃ (cfg : SchedulerConfig) (s : Scheduler),
    Scheduler.Run cfg (Scheduler.new (newHybrid 8 4 5 ⟨fun _ => 0, 0⟩ none 0) 1)
      [.recv (.user ⟨0, [1, 2, 3], ⟨true, 4, []⟩, false⟩), .launch fun _ => 7] s ∧
    ∃ cache names, SlotsConserved 5 s cache names := by
  refine ⟨⟨64, 32, [], none, fun _ => [], 8⟩, ?_⟩
  obtain ⟨s, run⟩ : ∃ s, Scheduler.Run ⟨64, 32, [], none, fun _ => [], 8⟩
      (Scheduler.new (newHybrid 8 4 5 ⟨fun _ => 0, 0⟩ none 0) 1)
      [.recv (.user ⟨0, [1, 2, 3], ⟨true, 4, []⟩, false⟩), .launch fun _ => 7] s :=
    ⟨_, .snoc (.snoc .nil rfl rfl) rfl rfl⟩
  exact ⟨s, run, hybrid_slots_conserved (by decide) run⟩

end FreeToken
