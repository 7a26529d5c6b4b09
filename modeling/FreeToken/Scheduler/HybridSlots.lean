/-
**Recurrent-state slots over a run of the hybrid manager.**
-/

import FreeToken.Scheduler.Seating
import FreeToken.Scheduler.TenancyRun
import FreeToken.KVCache.HybridEvict

namespace FreeToken

open PageTree List Option

/-! ### Counting snapshots -/

variable (nodes : List RadixTreeNode)

section Counting

variable {ps : Nat} {locks : List (List Token)} {cache : HybridRadixCache}

theorem snapshots_length :
    ((snapshots nodes).length : Int) = total spareState nodes + total keptState nodes := by
  induction nodes with
  | nil => rfl
  | cons node rest ih =>
    have head : ((node.data.mambaValue.toList).length : Int) = spareState node + keptState node := by
      unfold spareState keptState
      cases node.data.mambaValue with
      | none => simp
      | some slot => by_cases free : node.data.mambaRefCount = 0 <;> simp [free]
    have split : snapshots (node :: rest) = node.data.mambaValue.toList ++ snapshots rest := rfl
    rw [split, length_append, Nat.cast_add, head, ih, total_cons, total_cons]
    ring

def keptNodes : List RadixTreeNode :=
  nodes.filter fun node => node.data.mambaValue.isSome ∧ node.data.mambaRefCount ≠ 0

theorem keptNodes_nodup {nodes : List RadixTreeNode} (wf : WF ps nodes) :
    ((keptNodes nodes).map Seg.path).Nodup :=
  wf.paths_nodup.sublist (filter_sublist.map _)

theorem total_keptState : total keptState nodes = ((keptNodes nodes).length : Int) := by
  unfold keptNodes
  induction nodes with
  | nil => rfl
  | cons node rest ih =>
    rw [total_cons, ih, filter_cons]
    unfold keptState
    split
    · next holds =>
      rw [if_pos (decide_eq_true holds), length_cons]
      push_cast
      ring
    · next holds =>
      rw [if_neg (by simpa using holds)]
      ring

theorem HybridInv.protected_le (inv : HybridInv ps locks cache) :
    cache.mambaProtected ≤ locks.length := by
  have lt : (keptNodes cache.tier.nodes).map Seg.path ⊆ locks := by
    intro word mem
    obtain ⟨node, inFilter, rfl⟩ := List.mem_map.mp mem
    obtain ⟨inTree, holds⟩ := mem_filter.mp inFilter
    exact (inv.core.mem_holds_iff inTree).mpr (of_decide_eq_true holds).2
  have bound := (subperm_of_subset (keptNodes_nodup inv.wf) lt).length_le
  rw [length_map] at bound
  rw [inv.core.protect, total_keptState]
  exact_mod_cast bound

theorem through_filter (locks : List (List Token)) {word : List Token} (nonempty : word ≠ []) :
    through (locks.filter (· ≠ [])) word = through locks word := by
  unfold through
  rw [countP_filter]
  refine congrArg Nat.cast (countP_congr fun lock _ => ?_)
  simp only [ne_eq, decide_not, Bool.and_eq_true, decide_eq_true_eq, Bool.not_eq_true',
    decide_eq_false_iff_not, and_iff_left_iff_imp]
  rintro below rfl
  exact nonempty (prefix_nil.mp below)

theorem HybridInv.congr_locks (inv : HybridInv ps locks cache) {other : List (List Token)}
    (same : ∀ word, word ≠ [] → other.count word = locks.count word) :
    HybridInv ps other cache := by
  have core := inv.core.congr_holds same
  refine ⟨inv.pageSize, ⟨⟨inv.wf, fun lock mem => ?_, ?_⟩, core.mambaRef, core.held,
    core.evictable, core.protect⟩, inv.carried⟩
  · by_cases root : lock = []
    · exact .inl root
    · refine inv.core.tier.stored lock (count_pos_iff.mp ?_)
      rw [← same lock root]
      exact count_pos_iff.mpr mem
  · refine inv.core.tier.counts.congr fun node mem => ?_
    have nonempty := inv.wf.path_ne_nil mem
    rw [← through_filter locks nonempty, ← through_filter other nonempty]
    refine through_perm (perm_iff_count.mpr fun word => ?_) node.path
    by_cases root : word = []
    · rw [root, count_eq_zero.mpr (by simp), count_eq_zero.mpr (by simp)]
    · rw [count_filter (by simpa using root), count_filter (by simpa using root), same word root]

theorem HybridInv.perm (inv : HybridInv ps locks cache) {other : List (List Token)}
    (same : locks.Perm other) : HybridInv ps other cache :=
  inv.congr_locks fun word _ => (same.count_eq word).symm

end Counting

/-! ### The slots and the locks of the manager -/

/-- The requests hold the locks `locks` on the tree and the slots `held`, and the slots of the pool,
of the tree and of the requests are all slots but the padding one. -/
def Pinned (ps numSlots : Nat) (locks : List (List Token)) (held : List Nat)
    (cm : CacheManager) : Prop :=
  ∃ cache, cm.prefixCache = .hybrid cache ∧ HybridInv ps locks cache ∧
    (cm.linearStatePool.freeSlots ++ (snapshots cache.tier.nodes ++ held)).Perm
      (List.range' 1 (numSlots - 1))

def Target (word : List Token) (cm : CacheManager) : Prop :=
  ∃ cache, cm.prefixCache = .hybrid cache ∧
    (word = [] ∨ ∃ cur ∈ cache.tier.nodes, cur.path = word ∧ cur.data.mambaValue.isSome = true)

def SlotsExhausted (err : Err) : Prop :=
  ∃ need free : Nat, err = .runtime s!"LinearStatePool exhausted: need {need}, have {free}"

theorem NotRuntime.not_exhausted {err : Err} (other : NotRuntime err) : ¬SlotsExhausted err :=
  fun ⟨_, _, same⟩ => other _ same

variable {handle : CacheHandle}

namespace Pinned

variable {ps numSlots : Nat} {locks : List (List Token)} {held : List Nat} {cm next : CacheManager}
  {Q : CacheManager → Prop} {E : Err → Prop}

theorem perm (pinned : Pinned ps numSlots locks held cm) {otherLocks : List (List Token)}
    {otherHeld : List Nat} (sameLocks : locks.Perm otherLocks) (sameHeld : held.Perm otherHeld) :
    Pinned ps numSlots otherLocks otherHeld cm := by
  obtain ⟨cache, kind, inv, slots⟩ := pinned
  exact ⟨cache, kind, inv.perm sameLocks,
    (((sameHeld.append_left _).append_left _).symm).trans slots⟩

theorem frame (pinned : Pinned ps numSlots locks held cm) (tree : next.prefixCache = cm.prefixCache)
    (pool : next.linearStatePool.freeSlots = cm.linearStatePool.freeSlots) :
    Pinned ps numSlots locks held next := by
  obtain ⟨cache, kind, inv, slots⟩ := pinned
  exact ⟨cache, tree.trans kind, inv, by rwa [pool]⟩

theorem nodup (pinned : Pinned ps numSlots locks held cm) : held.Nodup := by
  obtain ⟨cache, -, -, all⟩ := pinned
  have distinct := all.nodup_iff.mpr nodup_range'
  exact (nodup_append.mp (nodup_append.mp distinct).2.1).2.1

theorem hybrid (pinned : Pinned ps numSlots locks held cm) : cm.isHybrid = true := by
  obtain ⟨cache, kind, -, -⟩ := pinned
  unfold CacheManager.isHybrid
  rw [kind]

theorem retree (pinned : Pinned ps numSlots locks held cm) {cache after : HybridRadixCache}
    {others : List (List Token)} (kind : cm.prefixCache = .hybrid cache)
    (inv : HybridInv ps others after)
    (slots : (snapshots after.tier.nodes).Perm (snapshots cache.tier.nodes)) :
    Pinned ps numSlots others held { cm with prefixCache := .hybrid after } := by
  obtain ⟨was, same, -, all⟩ := pinned
  obtain rfl := PrefixCache.hybrid.inj (kind.symm.trans same)
  exact ⟨after, rfl, inv, ((slots.append_right _).append_left _).trans all⟩

theorem give {slots rest : List Nat} (pinned : Pinned ps numSlots locks held cm)
    (split : held.Perm (slots ++ rest)) :
    Pinned ps numSlots locks rest
      { cm with linearStatePool := cm.linearStatePool.free slots } := by
  obtain ⟨cache, kind, inv, all⟩ := pinned
  refine ⟨cache, kind, inv, Perm.trans ?_ all⟩
  change (cm.linearStatePool.freeSlots ++ slots ++ (snapshots cache.tier.nodes ++ rest)).Perm _
  rw [append_assoc]
  refine Perm.append_left _ ?_
  refine Perm.trans ?_ (split.symm.append_left _)
  rw [← append_assoc, ← append_assoc]
  exact perm_append_comm.append_right _

theorem take (pinned : Pinned ps numSlots locks held cm) {n : Nat}
    (enough : n ≤ cm.linearStatePool.numFreeSlots) :
    ∃ pool slots, cm.linearStatePool.alloc n = .ok (pool, slots) ∧ slots.length = n ∧
      pool.numFreeSlots = cm.linearStatePool.numFreeSlots - n ∧
      Pinned ps numSlots locks (slots ++ held) { cm with linearStatePool := pool } := by
  obtain ⟨cache, kind, inv, all⟩ := pinned
  unfold LinearStatePool.numFreeSlots at enough
  refine ⟨_, _, if_neg (not_lt.mpr enough), ?_, ?_, cache, kind, inv, Perm.trans ?_ all⟩
  · rw [length_reverse, length_drop]
    omega
  · unfold LinearStatePool.numFreeSlots
    rw [length_take]
    omega
  · generalize cm.linearStatePool.freeSlots = free
    have cut := take_append_drop (free.length - n) free
    generalize free.take (free.length - n) = front at cut ⊢
    generalize free.drop (free.length - n) = back at cut ⊢
    subst cut
    rw [append_assoc]
    refine Perm.append_left _ ?_
    refine Perm.trans ?_ (perm_append_comm_assoc _ _ _)
    exact ((reverse_perm back).append_right held).append_left _

/-- **The bound**: what the requests hold and what they lock leaves a slot to be had. -/
theorem room (pinned : Pinned ps numSlots locks held cm)
    (bound : held.length + locks.length < numSlots - 1) :
    ∃ cache, cm.prefixCache = .hybrid cache ∧
      0 < (cm.linearStatePool.numFreeSlots : Int) + cache.mambaEvictable := by
  obtain ⟨cache, kind, inv, all⟩ := pinned
  refine ⟨cache, kind, ?_⟩
  have size := all.length_eq
  rw [length_append, length_append, length_range'] at size
  have counted := snapshots_length cache.tier.nodes
  have kept := inv.protected_le
  rw [← inv.core.evictable, ← inv.core.protect] at counted
  unfold LinearStatePool.numFreeSlots
  omega

/-! ### The calls of the manager -/

theorem matchPrefix_nil {cache : HybridRadixCache} (inv : HybridInv ps locks cache) :
    (cache.matchPrefix []).2.node = [] := by
  obtain ⟨-, -, -, onIds, -⟩ := inv.walk []
  have root := prefix_nil.mp onIds
  generalize cache.walk [] = walked at root
  obtain ⟨after, node⟩ := walked
  subst root
  rfl

theorem matchReq (pinned : Pinned ps numSlots locks held cm) (req : PendingReq)
    (errors : ∀ err, NotRuntime err → E err) :
    Outcome (cm.matchReq req) (fun res => Pinned ps numSlots locks held res.1 ∧
        Target res.2.cudaHandle.node res.1 ∧
        (req.mmEmbeds = true → res.2.cudaHandle.node = [])) E := by
  obtain ⟨cache, kind, inv, -⟩ := id pinned
  refine Outcome.bind (Q := fun _ => True) ?_ fun _ _ => ?_
  · unfold ensure
    split
    · trivial
    · exact errors _ fun _ => by simp
  · rw [kind]
    generalize ids : (if req.mmEmbeds = true then [] else req.inputIds.take (req.inputLen - 1)) = word
    obtain ⟨invNext, walked, valid⟩ := inv.matchPrefix word
    refine Outcome.pure ⟨pinned.retree kind invNext walked.slots, ⟨_, rfl, ?_⟩, fun multimodal => ?_⟩
    · exact valid.2.imp_right fun ⟨cur, mem, path, _, has⟩ => ⟨cur, mem, path, has⟩
    · rw [if_pos multimodal] at ids
      subst ids
      exact matchPrefix_nil inv

theorem lock (pinned : Pinned ps numSlots locks held cm) (target : Target handle.node cm) :
    Pinned ps numSlots (handle.node :: locks) held (cm.lock handle).1 ∧
      (cm.lock handle).2 = handle := by
  obtain ⟨cache, kind, inv, -⟩ := id pinned
  obtain ⟨same, kindToo, word⟩ := target
  obtain rfl := PrefixCache.hybrid.inj (kind.symm.trans kindToo)
  obtain ⟨invNext, held⟩ := inv.incLock word
  unfold CacheManager.lock
  rw [kind]
  exact ⟨pinned.retree kind invNext (Perm.of_eq held.slots), rfl⟩

theorem unlock (pinned : Pinned ps numSlots locks held cm) (locked : handle.node ∈ locks) :
    Outcome (cm.unlock handle) (Pinned ps numSlots (locks.erase handle.node) held) E := by
  obtain ⟨cache, kind, inv, -⟩ := id pinned
  obtain ⟨after, given, invNext, same⟩ := inv.decLock locked
  unfold CacheManager.unlock
  rw [kind]
  dsimp only
  rw [given]
  exact pinned.retree kind invNext (Perm.of_eq same.slots)

theorem free (pinned : Pinned ps numSlots locks held cm) (indices : List Nat) :
    Pinned ps numSlots locks held (cm.free indices) := by
  unfold CacheManager.free
  split <;> exact pinned.frame rfl rfl

theorem evictMamba (pinned : Pinned ps numSlots locks held cm) {cache : HybridRadixCache}
    (kind : cm.prefixCache = .hybrid cache) (num : Nat) :
    Pinned ps numSlots locks held ({ cm with
      prefixCache := .hybrid (cache.evictMamba num).1
      linearStatePool := cm.linearStatePool.free (cache.evictMamba num).2.mambaSlots }.free
        (cache.evictMamba num).2.kvIndices) := by
  obtain ⟨was, same, inv, all⟩ := pinned
  obtain rfl := PrefixCache.hybrid.inj (kind.symm.trans same)
  obtain ⟨invNext, slots, -⟩ := inv.evictMamba num
  refine free ⟨_, rfl, invNext, Perm.trans ?_ all⟩ _
  change (cm.linearStatePool.freeSlots ++ (cache.evictMamba num).2.mambaSlots ++ _).Perm _
  rw [append_assoc, ← append_assoc _ _ held]
  exact ((perm_append_comm.trans slots).append_right held).append_left _

/-- **Evictions of snapshots**: afterwards there are as many free slots as asked for, or no snapshot
is left to evict. -/
theorem ensureMambaSlotsFrom (n : Nat) : ∀ (fuel : Nat) {cm : CacheManager},
    Pinned ps numSlots locks held cm →
    Pinned ps numSlots locks held (CacheManager.ensureMambaSlotsFrom n fuel cm) ∧
      ((n ≤ cm.linearStatePool.numFreeSlots ∨ 0 < fuel ∨
          ∃ cache, cm.prefixCache = .hybrid cache ∧ cache.mambaEvictable = 0) →
        n ≤ (CacheManager.ensureMambaSlotsFrom n fuel cm).linearStatePool.numFreeSlots ∨
          ∃ cache, (CacheManager.ensureMambaSlotsFrom n fuel cm).prefixCache = .hybrid cache ∧
            cache.mambaEvictable = 0) := by
  intro fuel
  induction fuel with
  | zero =>
    intro cm pinned
    refine ⟨pinned, ?_⟩
    rintro (enough | absurd | spent)
    · exact .inl enough
    · cases absurd
    · exact .inr spent
  | succ fuel ih =>
    intro cm pinned
    obtain ⟨cache, kind, inv, -⟩ := id pinned
    unfold CacheManager.ensureMambaSlotsFrom
    rw [kind]
    dsimp only
    split
    · next enough => exact ⟨pinned, fun _ => .inl enough⟩
    · next short =>
      have round := pinned.evictMamba kind (n - cm.linearStatePool.numFreeSlots)
      obtain ⟨invNext, slots, -, spare, bound, enough⟩ :=
        inv.evictMamba (n - cm.linearStatePool.numFreeSlots)
      generalize cache.evictMamba (n - cm.linearStatePool.numFreeSlots) = evicted at *
      obtain ⟨after, freed⟩ := evicted
      split
      · next nothing =>
        rw [nothing] at slots enough
        rw [append_nil] at slots
        refine ⟨pinned.retree kind invNext slots, fun _ => .inr ⟨after, rfl, ?_⟩⟩
        refine enough.resolve_left fun same => ?_
        rw [length_nil] at same
        omega
      · refine ⟨(ih round).1, fun _ => (ih round).2 ?_⟩
        rcases enough with exact_ | spent
        · refine .inl ?_
          have size : ({ cm with
              prefixCache := .hybrid after
              linearStatePool := cm.linearStatePool.free freed.mambaSlots }.free
                freed.kvIndices).linearStatePool.numFreeSlots =
              cm.linearStatePool.numFreeSlots + freed.mambaSlots.length := by
            unfold CacheManager.free
            split <;> exact length_append
          rw [size, exact_]
          omega
        · refine .inr (.inr ⟨after, ?_, spent⟩)
          unfold CacheManager.free
          split <;> rfl

theorem ensureMambaSlots (pinned : Pinned ps numSlots locks held cm) (n : Nat) :
    Pinned ps numSlots locks held (cm.ensureMambaSlots n) ∧
      (n ≤ (cm.ensureMambaSlots n).linearStatePool.numFreeSlots ∨
        ∃ cache, (cm.ensureMambaSlots n).prefixCache = .hybrid cache ∧
          cache.mambaEvictable = 0) := by
  obtain ⟨cache, kind, -, -⟩ := id pinned
  unfold CacheManager.ensureMambaSlots
  rw [kind]
  obtain ⟨kept, reached⟩ := ensureMambaSlotsFrom n (cache.tier.nodes.length + 1) pinned
  exact ⟨kept, reached (.inr (.inl (Nat.succ_pos _)))⟩

theorem ensure_one (pinned : Pinned ps numSlots locks held cm)
    (bound : held.length + locks.length < numSlots - 1) :
    1 ≤ (cm.ensureMambaSlots 1).linearStatePool.numFreeSlots := by
  obtain ⟨kept, reached⟩ := pinned.ensureMambaSlots 1
  refine reached.elim id fun ⟨cache, kind, spent⟩ => ?_
  obtain ⟨same, kindToo, pos⟩ := kept.room bound
  obtain rfl := PrefixCache.hybrid.inj (kind.symm.trans kindToo)
  rw [spent] at pos
  omega

theorem hybridInsert (pinned : Pinned ps numSlots locks held cm) (inputIds : List Token)
    (kvIndices : List Nat) {slot : Nat} {rest : List Nat} (owned : held.Perm (slot :: rest)) :
    ((cm.hybridInsert inputIds kvIndices slot).2.2 = true →
      Pinned ps numSlots locks held (cm.hybridInsert inputIds kvIndices slot).1) ∧
    ((cm.hybridInsert inputIds kvIndices slot).2.2 = false →
      Pinned ps numSlots locks rest (cm.hybridInsert inputIds kvIndices slot).1) := by
  obtain ⟨cache, kind, inv, all⟩ := id pinned
  unfold CacheManager.hybridInsert
  rw [kind]
  have inserted := inv.insert inputIds kvIndices slot
  have slots := inserted.slots
  refine ⟨fun present => ?_, fun absent => ?_⟩
  · rw [if_pos present] at slots
    exact pinned.retree kind inserted.inv slots
  · rw [absent] at slots
    refine ⟨_, rfl, inserted.inv, Perm.trans ?_ all⟩
    refine Perm.append_left _ ?_
    refine (slots.append_right rest).trans ?_
    refine Perm.trans ?_ (owned.symm.append_left _)
    exact perm_middle.symm

theorem hybridRelock (pinned : Pinned ps numSlots locks held cm) (req : Req)
    (inputIds : List Token) (from_ upto : Nat) :
    ∃ handle : CacheHandle, (cm.hybridRelock req inputIds from_ upto).2 =
        { req with cacheHandle := handle } ∧
      Pinned ps numSlots (handle.node :: locks) held
        (cm.hybridRelock req inputIds from_ upto).1 := by
  obtain ⟨cache, kind, inv, -⟩ := id pinned
  unfold CacheManager.hybridRelock
  rw [kind]
  dsimp only
  obtain ⟨invNext, walked, valid⟩ := inv.matchPrefix inputIds
  have target : (cache.matchPrefix inputIds).2.node = [] ∨
      ∃ cur ∈ (cache.matchPrefix inputIds).1.tier.nodes,
        cur.path = (cache.matchPrefix inputIds).2.node ∧ cur.data.mambaValue.isSome = true :=
    valid.2.imp_right fun ⟨cur, mem, path, _, has⟩ => ⟨cur, mem, path, has⟩
  clear valid
  generalize cache.matchPrefix inputIds = matched at invNext walked target ⊢
  obtain ⟨after, found⟩ := matched
  have start : Pinned ps numSlots locks held { cm with prefixCache := .hybrid after } :=
    pinned.retree kind invNext walked.slots
  have written : Pinned ps numSlots locks held (if from_ < upto then
      ({ cm with prefixCache := .hybrid after } : CacheManager).writeRow (req.tableIdx.getD 0) from_
        (slice found.kvIndices from_ upto) else { cm with prefixCache := .hybrid after }) ∧
      Target found.node (if from_ < upto then
      ({ cm with prefixCache := .hybrid after } : CacheManager).writeRow (req.tableIdx.getD 0) from_
        (slice found.kvIndices from_ upto) else { cm with prefixCache := .hybrid after }) := by
    split
    · exact ⟨start.frame rfl rfl, after, rfl, target⟩
    · exact ⟨start, after, rfl, target⟩
  generalize (if from_ < upto then
    ({ cm with prefixCache := .hybrid after } : CacheManager).writeRow (req.tableIdx.getD 0) from_
      (slice found.kvIndices from_ upto) else { cm with prefixCache := .hybrid after }) = mid
    at written ⊢
  let handle : CacheHandle :=
    { cachedLen := found.cachedLen, node := found.node, kvIndices := found.kvIndices }
  obtain ⟨locked, same⟩ := written.1.lock (show Target handle.node mid from written.2)
  exact ⟨handle, congrArg (fun other => { req with cacheHandle := other }) same, locked⟩

theorem allocate (pinned : Pinned ps numSlots locks held cm) (neededPages : Nat)
    (errors : ∀ err, NotRuntime err → E err) :
    Outcome (cm.allocate neededPages) (fun res => Pinned ps numSlots locks held res.1) E := by
  have filled : Outcome (cm.refill neededPages) (Pinned ps numSlots locks held) E := by
    unfold CacheManager.refill
    split
    · obtain ⟨cache, kind, inv, all⟩ := pinned
      unfold CacheManager.evictPages
      rw [kind]
      generalize (neededPages - cm.freeSlots.length) * cm.pageSize = numTokens
      obtain ⟨invNext, slots, -⟩ := inv.evictFull numTokens
      refine Outcome.bind (Q := fun res => Pinned ps numSlots locks held res.1) ?_ ?_
      · refine ⟨_, rfl, invNext, Perm.trans ?_ all⟩
        change (cm.linearStatePool.freeSlots ++ (cache.evictFull numTokens).2.mambaSlots ++ _).Perm _
        rw [append_assoc, ← append_assoc _ _ held]
        exact ((perm_append_comm.trans slots).append_right held).append_left _
      · intro res kept
        refine Outcome.bind (Q := fun _ => True) ?_ fun _ _ => Outcome.pure (kept.frame rfl rfl)
        unfold ensure
        split
        · trivial
        · exact errors _ fun _ => by simp
    · exact Outcome.pure pinned
  exact filled.bind fun res kept => Outcome.pure (kept.frame rfl rfl)

end Pinned

theorem window_error (need have_ : Nat) :
    ¬SlotsExhausted (.runtime s!"SWA pool exhausted: need {need}, have {have_}") := by
  rintro ⟨other, free, same⟩
  have heads := congrArg (fun msg : String => msg.toList.head?) (Err.runtime.inj same)
  simp [toString, String.toList_append] at heads

/-! ### The assertion over a run -/

def lockOf (tenant : Tenant) : List Token := tenant.2.cacheHandle.node

def slotsOf (req : Req) : List Nat :=
  req.linearSlotIdx.toList ++ req.mambaPingPong.elim [] fun pair => [pair.1, pair.2]

/-- A request has its three slots, and one with images locks the root. -/
structure Equipped (req : Req) : Prop where
  live : req.linearSlotIdx.isSome
  pair : req.mambaPingPong.isSome
  multimodal : req.mmEmbeds = true → req.cacheHandle.node = []

/-- **The slots over a run**: the requests hold three slots and a lock each, and no more of them hold
any than there are rows. -/
structure SlotInv (ps numSlots maxRunningReqs : Nat) (draining : Bool) (cm : CacheManager)
    (tm : TableManager) (ts : List Tenant) : Prop where
  pinned : Pinned ps numSlots (ts.map lockOf) (ts.flatMap fun tenant => slotsOf tenant.2) cm
  rows : tm.freeSlots.length + ts.length = maxRunningReqs
  equipped : ∀ tenant ∈ ts, Equipped tenant.2

namespace SlotInv

variable {ps numSlots maxRunningReqs : Nat} {draining : Bool} {cm next : CacheManager}
  {tm : TableManager} {ts : List Tenant} {req : Req} {stage : Stage}

theorem slots_length (equipped : ∀ tenant ∈ ts, Equipped tenant.2) :
    (ts.flatMap fun tenant => slotsOf tenant.2).length = 3 * ts.length := by
  induction ts with
  | nil => rfl
  | cons tenant rest ih =>
    obtain ⟨live, pair, -⟩ := equipped tenant mem_cons_self
    obtain ⟨slot, hasLive⟩ := isSome_iff_exists.mp live
    obtain ⟨slots, hasPair⟩ := isSome_iff_exists.mp pair
    rw [flatMap_cons, length_append, ih fun other mem => equipped other (mem_cons_of_mem _ mem)]
    unfold slotsOf
    rw [hasLive, hasPair, length_cons]
    simp only [toList_some, elim_some, length_append, length_cons, length_nil]
    omega

theorem perm {first second : List Tenant} (same : first.Perm second)
    (holds : SlotInv ps numSlots maxRunningReqs draining cm tm first) :
    SlotInv ps numSlots maxRunningReqs draining cm tm second where
  pinned := holds.pinned.perm (same.map _) (same.flatMap_right _)
  rows := by
    rw [← same.length_eq]
    exact holds.rows
  equipped := fun tenant mem => holds.equipped tenant (same.mem_iff.mpr mem)

theorem change {after : Req} {stageAfter : Stage} {drainingAfter : Bool} {tmAfter : TableManager}
    (holds : SlotInv ps numSlots maxRunningReqs draining cm tm ((stage, req) :: ts))
    (tree : next.prefixCache = cm.prefixCache)
    (pool : next.linearStatePool.freeSlots = cm.linearStatePool.freeSlots)
    (rows : tmAfter.freeSlots = tm.freeSlots) (handle : after.cacheHandle = req.cacheHandle)
    (live : after.linearSlotIdx = req.linearSlotIdx)
    (pair : after.mambaPingPong = req.mambaPingPong) (images : after.mmEmbeds = req.mmEmbeds) :
    SlotInv ps numSlots maxRunningReqs drainingAfter next tmAfter ((stageAfter, after) :: ts) where
  pinned := by
    have same : slotsOf after = slotsOf req := by
      unfold slotsOf
      rw [live, pair]
    rw [map_cons, flatMap_cons]
    unfold lockOf
    rw [same, handle]
    exact holds.pinned.frame tree pool
  rows := by
    rw [rows]
    exact holds.rows
  equipped := by
    intro tenant mem
    rcases mem_cons.mp mem with rfl | mem
    · obtain ⟨hasLive, hasPair, root⟩ := holds.equipped _ mem_cons_self
      exact ⟨live ▸ hasLive, pair ▸ hasPair, fun multimodal => by
        rw [handle]
        exact root (images ▸ multimodal)⟩
    · exact holds.equipped tenant (mem_cons_of_mem _ mem)

theorem spare (enough : 4 * maxRunningReqs + 1 ≤ numSlots)
    (holds : SlotInv ps numSlots maxRunningReqs draining cm tm ((stage, req) :: ts)) :
    (ts.flatMap fun tenant => slotsOf tenant.2).length + ts.length + 4 ≤ numSlots - 1 := by
  have rows := holds.rows
  rw [slots_length fun tenant mem => holds.equipped tenant (mem_cons_of_mem _ mem)]
  rw [length_cons] at rows
  omega

end SlotInv

/-! ### Commits -/

/-- The commit of an unfinished request up to the replacement of its slot: the manager and the
request where the tree took the slot. -/
def donation (cm : CacheManager) (req : Req) : Except Err (Option (CacheManager × Req)) :=
  match req.mambaLastTrackSeqlen with
  | none => pure none
  | some boundary =>
      if alignDown boundary cm.pageSize ≠ boundary then pure none
      else do
        let pageIndices := cm.row (req.tableIdx.getD 0) 0 req.cachedLen
        let oldHandle := req.cacheHandle
        let pingPong := req.mambaPingPong.getD (0, 0)
        let (cm, prefixLen, mambaExist) := cm.hybridInsert (req.inputIds.take boundary)
          (pageIndices.take boundary) (pingPong.get (!req.mambaNextTrackIdx))
        let cm ← cm.unlock oldHandle
        let cm := cm.free (slice pageIndices oldHandle.cachedLen prefixLen)
        let (cm, req) := cm.hybridRelock req (req.inputIds.take boundary) oldHandle.cachedLen
          prefixLen
        pure (if mambaExist then none else some (cm, req))

section Commits

variable {ps numSlots maxRunningReqs : Nat} {cm : CacheManager} {tm : TableManager}
  {ts : List Tenant} {req : Req} {stage : Stage} {draining : Bool} {E : Err → Prop}
  {locks : List (List Token)} {held rest : List Nat}

theorem Pinned.stem (pinned : Pinned ps numSlots (req.cacheHandle.node :: locks) held cm)
    (inputIds : List Token) (kvIndices : List Nat) {slot : Nat} (owned : held.Perm (slot :: rest)) :
    Outcome ((cm.hybridInsert inputIds kvIndices slot).1.unlock req.cacheHandle)
      (fun mid => ∀ (indices : List Nat) (words : List Token) (from_ upto : Nat),
        ∃ handle : CacheHandle, ((mid.free indices).hybridRelock req words from_ upto).2 =
            { req with cacheHandle := handle } ∧
          ((cm.hybridInsert inputIds kvIndices slot).2.2 = true →
            Pinned ps numSlots (handle.node :: locks) held
              ((mid.free indices).hybridRelock req words from_ upto).1) ∧
          ((cm.hybridInsert inputIds kvIndices slot).2.2 = false →
            Pinned ps numSlots (handle.node :: locks) rest
              ((mid.free indices).hybridRelock req words from_ upto).1)) E := by
  obtain ⟨present, absent⟩ := pinned.hybridInsert inputIds kvIndices owned
  have goesOn : ∀ {slots : List Nat}, Pinned ps numSlots (req.cacheHandle.node :: locks) slots
        (cm.hybridInsert inputIds kvIndices slot).1 →
      Outcome ((cm.hybridInsert inputIds kvIndices slot).1.unlock req.cacheHandle)
        (fun mid => ∀ (indices : List Nat) (words : List Token) (from_ upto : Nat),
          ∃ handle : CacheHandle, ((mid.free indices).hybridRelock req words from_ upto).2 =
              { req with cacheHandle := handle } ∧
            Pinned ps numSlots (handle.node :: locks) slots
              ((mid.free indices).hybridRelock req words from_ upto).1) E := by
    intro slots inserted
    refine (inserted.unlock mem_cons_self).imp fun mid unlocked indices words from_ upto => ?_
    rw [erase_cons_head] at unlocked
    exact (unlocked.free indices).hybridRelock req words from_ upto
  cases exists_ : (cm.hybridInsert inputIds kvIndices slot).2.2 with
  | true =>
    refine (goesOn (present exists_)).imp fun mid after indices words from_ upto => ?_
    obtain ⟨handle, same, last⟩ := after indices words from_ upto
    exact ⟨handle, same, fun _ => last, fun absurd => nomatch absurd⟩
  | false =>
    refine (goesOn (absent exists_)).imp fun mid after indices words from_ upto => ?_
    obtain ⟨handle, same, last⟩ := after indices words from_ upto
    exact ⟨handle, same, fun absurd => (nomatch absurd), fun _ => last⟩

theorem slotsOf_perm {live : Nat} {pair : PingPong} (hasLive : req.linearSlotIdx = some live)
    (hasPair : req.mambaPingPong = some pair) (idx : Bool) :
    (slotsOf req).Perm (pair.get idx :: [live, pair.get (!idx)]) := by
  unfold slotsOf PingPong.get
  rw [hasLive, hasPair]
  cases idx with
  | false => exact Perm.swap _ _ _
  | true => exact @perm_append_comm _ [live, pair.1] [pair.2]

theorem slotsOf_set {live : Nat} {pair : PingPong} {given : Req} (hasLive : req.linearSlotIdx = some live)
    (sameLive : given.linearSlotIdx = req.linearSlotIdx) (idx : Bool) (slot : Nat)
    (hasPair : given.mambaPingPong = some (pair.set idx slot)) :
    ([slot] ++ [live, pair.get (!idx)]).Perm (slotsOf given) := by
  unfold slotsOf PingPong.get PingPong.set at *
  rw [sameLive, hasLive, hasPair]
  cases idx with
  | false => exact Perm.swap _ _ _
  | true => exact @perm_append_comm _ [slot] [live, pair.1]

theorem SlotInv.donation (holds : SlotInv ps numSlots maxRunningReqs draining cm tm
      ((stage, req) :: ts)) :
    Outcome (FreeToken.donation cm req)
      (fun res => ∀ mid given, res = some (mid, given) → ∃ handle : CacheHandle,
        given = { req with cacheHandle := handle } ∧ ∃ live pair,
          req.linearSlotIdx = some live ∧ req.mambaPingPong = some pair ∧
          Pinned ps numSlots (handle.node :: ts.map lockOf)
            ([live, pair.get req.mambaNextTrackIdx] ++
              ts.flatMap fun tenant => slotsOf tenant.2) mid) E := by
  obtain ⟨hasLive, hasPair, -⟩ := holds.equipped _ mem_cons_self
  obtain ⟨live, isLive⟩ := isSome_iff_exists.mp hasLive
  obtain ⟨pair, isPair⟩ := isSome_iff_exists.mp hasPair
  unfold FreeToken.donation
  split
  · exact Outcome.pure fun _ _ absurd => nomatch absurd
  · split
    · exact Outcome.pure fun _ _ absurd => nomatch absurd
    · next boundary _ _ =>
      have isGiven : req.mambaPingPong.getD (0, 0) = pair := by
        rw [isPair]
        rfl
      rw [isGiven]
      dsimp only
      have owned := (slotsOf_perm isLive isPair (!req.mambaNextTrackIdx)).append_right
        (ts.flatMap fun tenant => slotsOf tenant.2)
      rw [Bool.not_not, cons_append] at owned
      refine (holds.pinned.stem (E := E) (req.inputIds.take boundary)
        ((cm.row (req.tableIdx.getD 0) 0 req.cachedLen).take boundary) owned).bind
        fun unlocked after => Outcome.pure ?_
      intro mid given same
      obtain ⟨handle, sameReq, -, absent⟩ := after _ _ _ _
      split at same
      · cases same
      · next notPresent =>
        obtain ⟨rfl, rfl⟩ := Prod.mk.inj (some.inj same)
        exact ⟨handle, sameReq, live, pair, isLive, isPair, absent (Bool.not_eq_true _ ▸ notPresent)⟩

/-- **The commit of an unfinished request never lacks a slot.** -/
theorem SlotInv.commit (enough : 4 * maxRunningReqs + 1 ≤ numSlots)
    (holds : SlotInv ps numSlots maxRunningReqs draining cm tm ((stage, req) :: ts)) :
    Outcome (cm.cacheReq req false)
      (fun res => SlotInv ps numSlots maxRunningReqs draining res.1 tm
        ((stage, res.2) :: ts)) E := by
  obtain ⟨cache, kind, -, -⟩ := id holds.pinned
  obtain ⟨hasLive, hasPair, root⟩ := holds.equipped _ mem_cons_self
  obtain ⟨live, isLive⟩ := isSome_iff_exists.mp hasLive
  obtain ⟨pair, isPair⟩ := isSome_iff_exists.mp hasPair
  have others : ∀ tenant ∈ ts, Equipped tenant.2 := fun tenant mem =>
    holds.equipped tenant (mem_cons_of_mem _ mem)
  unfold CacheManager.cacheReq
  rw [kind]
  dsimp only
  unfold CacheManager.cacheReqHybrid
  split
  · next images =>
    -- a request with images locks the root only, which no node sees
    refine (holds.pinned.unlock mem_cons_self).bind fun next unlocked => Outcome.pure ?_
    refine ⟨?_, holds.rows, holds.equipped⟩
    obtain ⟨after, kindAfter, invAfter, all⟩ := unlocked
    refine ⟨after, kindAfter, invAfter.congr_locks fun word nonempty => ?_, all⟩
    have isRoot : req.cacheHandle.node = [] := root images
    rw [map_cons]
    unfold lockOf
    rw [erase_cons_head, isRoot]
    exact count_cons_of_ne (fun same => nonempty same.symm)
  · next plain =>
    simp only [Bool.false_eq_true, if_false]
    have multimodal : ∀ given : Req, given.mmEmbeds = req.mmEmbeds → given.mmEmbeds = true →
        given.cacheHandle.node = [] := fun given same images => absurd (same ▸ images) plain
    unfold CacheManager.commitHybrid
    split
    · exact Outcome.pure holds
    · next boundary _ =>
      split
      · exact Outcome.pure (holds.change rfl rfl rfl rfl rfl rfl rfl)
      · have isGiven : req.mambaPingPong.getD (0, 0) = pair := by
          rw [isPair]
          rfl
        rw [isGiven]
        dsimp only
        have owned := (slotsOf_perm isLive isPair (!req.mambaNextTrackIdx)).append_right
          (ts.flatMap fun tenant => slotsOf tenant.2)
        rw [Bool.not_not, cons_append] at owned
        refine (holds.pinned.stem (E := E) (req.inputIds.take boundary)
          ((cm.row (req.tableIdx.getD 0) 0 req.cachedLen).take boundary) owned).bind
          fun unlocked after => ?_
        obtain ⟨handle, sameReq, present, absent⟩ := after
          (slice (cm.row (req.tableIdx.getD 0) 0 req.cachedLen) req.cacheHandle.cachedLen
            (cm.hybridInsert (req.inputIds.take boundary)
              ((cm.row (req.tableIdx.getD 0) 0 req.cachedLen).take boundary)
              (pair.get (!req.mambaNextTrackIdx))).2.1)
          (req.inputIds.take boundary) req.cacheHandle.cachedLen
          (cm.hybridInsert (req.inputIds.take boundary)
            ((cm.row (req.tableIdx.getD 0) 0 req.cachedLen).take boundary)
            (pair.get (!req.mambaNextTrackIdx))).2.1
        rw [sameReq]
        split
        · next isPresent =>
          refine Outcome.pure ⟨present isPresent, holds.rows, fun tenant mem => ?_⟩
          rcases mem_cons.mp mem with rfl | mem
          · exact ⟨hasLive, hasPair, multimodal _ rfl⟩
          · exact others tenant mem
        · next isAbsent =>
          have pinned := absent (Bool.not_eq_true _ ▸ isAbsent)
          have spare := holds.spare enough
          have one := pinned.ensure_one (by
            simp only [length_append, length_cons, length_nil, length_map]
            omega)
          obtain ⟨pool, slots, given, size, -, last⟩ := (pinned.ensureMambaSlots 1).1.take one
          rw [given]
          obtain ⟨slot, rfl⟩ := length_eq_one_iff.mp size
          refine Outcome.pure ⟨?_, holds.rows, fun tenant mem => ?_⟩
          · refine last.perm (Perm.refl _) ?_
            rw [flatMap_cons, ← append_assoc]
            refine Perm.append_right _ ?_
            have moved := @slotsOf_set req live pair { req with
              cacheHandle := handle
              mambaPingPong := some (pair.set (!req.mambaNextTrackIdx) slot)
              mambaLastTrackSeqlen := none } isLive rfl (!req.mambaNextTrackIdx) slot rfl
            rw [Bool.not_not] at moved
            exact moved
          · rcases mem_cons.mp mem with rfl | mem
            · exact ⟨hasLive, rfl, multimodal _ rfl⟩
            · exact others tenant mem

theorem Pinned.consumeFreeze {live : Nat} {pair : PingPong}
    (hasLive : req.linearSlotIdx = some live) (hasPair : req.mambaPingPong = some pair)
    (pinned : Pinned ps numSlots locks (slotsOf req ++ rest) cm) (pageIndices : List Nat) :
    Pinned ps numSlots locks (slotsOf (cm.consumeFreeze req pageIndices).2.1 ++ rest)
        (cm.consumeFreeze req pageIndices).1 ∧
      (cm.consumeFreeze req pageIndices).2.1.linearSlotIdx = req.linearSlotIdx ∧
      (cm.consumeFreeze req pageIndices).2.1.cacheHandle = req.cacheHandle := by
  unfold CacheManager.consumeFreeze
  rw [hasPair]
  split
  · next boundary other _ same =>
    cases same
    split
    · refine ⟨?_, rfl, rfl⟩
      have owned := (slotsOf_perm hasLive hasPair (!req.mambaNextTrackIdx)).append_right rest
      rw [Bool.not_not, cons_append] at owned
      obtain ⟨present, absent⟩ := pinned.hybridInsert (req.inputIds.take boundary)
        (pageIndices.take boundary) owned
      have emptied : slotsOf { req with mambaPingPong := none } = [live] := by
        rw [hasLive]
        rfl
      have apart : pair.1 ≠ pair.2 := by
        have distinct := pinned.nodup
        unfold slotsOf at distinct
        rw [hasLive, hasPair] at distinct
        rintro same
        simp [same] at distinct
      rw [emptied]
      refine Pinned.free ?_ _
      cases exists_ : (cm.hybridInsert (req.inputIds.take boundary) (pageIndices.take boundary)
          (pair.get (!req.mambaNextTrackIdx))).2.2 with
      | true =>
        refine (present exists_).give (owned.trans ?_)
        have both : ([pair.1, pair.2].filter fun slot => decide (true = true ∨
            slot ≠ pair.get (!req.mambaNextTrackIdx))) = [pair.1, pair.2] := by simp
        rw [both]
        cases req.mambaNextTrackIdx with
        | false =>
          refine (@perm_append_comm _ [pair.2, live] [pair.1]).append_right
            rest |>.trans ?_
          exact Perm.refl _
        | true => exact ((Perm.swap pair.2 live []).cons pair.1).append_right rest
      | false =>
        refine (absent exists_).give ?_
        have other : ([pair.1, pair.2].filter fun slot => decide (false = true ∨
            slot ≠ pair.get (!req.mambaNextTrackIdx))) = [pair.get req.mambaNextTrackIdx] := by
          unfold PingPong.get
          cases req.mambaNextTrackIdx with
          | false => simp [apart]
          | true => simp [apart.symm]
        rw [other]
        exact (Perm.swap (pair.get req.mambaNextTrackIdx) live []).append_right rest
    · exact ⟨pinned, rfl, rfl⟩
  · exact ⟨pinned, rfl, rfl⟩

theorem Pinned.freeReqSlots (keepLive : Bool) (pinned : Pinned ps numSlots locks
      ((if keepLive then [] else req.linearSlotIdx.toList) ++
        (req.mambaPingPong.elim [] fun pair => [pair.1, pair.2]) ++ rest) cm) :
    Pinned ps numSlots locks rest (cm.freeReqSlots req keepLive).1 := by
  refine pinned.give ?_
  exact perm_append_comm.append_right rest

/-- **A finished request gives all it holds back.** -/
theorem SlotInv.finish {tableIdx : Nat}
    (holds : SlotInv ps numSlots maxRunningReqs draining cm tm ((stage, req) :: ts)) :
    Outcome (cm.cacheReq req true)
      (fun res => SlotInv ps numSlots maxRunningReqs draining res.1 (tm.free tableIdx) ts)
      E := by
  obtain ⟨cache, kind, -, -⟩ := id holds.pinned
  obtain ⟨hasLive, hasPair, -⟩ := holds.equipped _ mem_cons_self
  obtain ⟨live, isLive⟩ := isSome_iff_exists.mp hasLive
  obtain ⟨pair, isPair⟩ := isSome_iff_exists.mp hasPair
  have after : ∀ {next : CacheManager},
      Pinned ps numSlots (ts.map lockOf) (ts.flatMap fun tenant => slotsOf tenant.2) next →
      SlotInv ps numSlots maxRunningReqs draining next (tm.free tableIdx) ts := by
    intro next pinned
    refine ⟨pinned, ?_, fun tenant mem => holds.equipped tenant (mem_cons_of_mem _ mem)⟩
    have rows := holds.rows
    change (tm.freeSlots ++ [tableIdx]).length + ts.length = _
    rw [length_append, length_singleton]
    rw [length_cons] at rows
    omega
  unfold CacheManager.cacheReq
  rw [kind]
  dsimp only
  unfold CacheManager.cacheReqHybrid
  split
  · refine (holds.pinned.unlock mem_cons_self).bind fun next unlocked => ?_
    rw [map_cons, flatMap_cons] at unlocked
    unfold lockOf at unlocked
    rw [erase_cons_head] at unlocked
    exact Outcome.pure (after (Pinned.freeReqSlots false (unlocked.free _)))
  · simp only [if_true]
    unfold CacheManager.finishHybrid
    dsimp only
    obtain ⟨consumed, sameLive, sameHandle⟩ := Pinned.consumeFreeze isLive isPair
      (holds.pinned) (cm.row (req.tableIdx.getD 0) 0 req.cachedLen)
    generalize cm.consumeFreeze req (cm.row (req.tableIdx.getD 0) 0 req.cachedLen) = res
      at consumed sameLive sameHandle ⊢
    obtain ⟨mid, given, freeUpto⟩ := res
    have lockHead : (((stage, req) :: ts).map lockOf) = req.cacheHandle.node :: ts.map lockOf := rfl
    rw [lockHead] at consumed
    split
    · have owned : (slotsOf given ++ ts.flatMap fun tenant => slotsOf tenant.2).Perm
          (given.linearSlotIdx.getD 0 ::
            ((given.mambaPingPong.elim [] fun pair => [pair.1, pair.2]) ++
              ts.flatMap fun tenant => slotsOf tenant.2)) := by
        unfold slotsOf
        rw [sameLive, isLive]
        exact Perm.refl _
      obtain ⟨present, absent⟩ := consumed.hybridInsert
        (given.inputIds.take (alignDown given.cachedLen mid.pageSize))
        ((cm.row (req.tableIdx.getD 0) 0 req.cachedLen).take (alignDown given.cachedLen mid.pageSize))
        owned
      cases exists_ : (mid.hybridInsert
          (given.inputIds.take (alignDown given.cachedLen mid.pageSize))
          ((cm.row (req.tableIdx.getD 0) 0 req.cachedLen).take
            (alignDown given.cachedLen mid.pageSize)) (given.linearSlotIdx.getD 0)).2.2 with
      | true =>
        refine ((present exists_).unlock (mem_cons_self : req.cacheHandle.node ∈ _)).bind
          fun next unlocked => ?_
        rw [erase_cons_head] at unlocked
        exact Outcome.pure (after (Pinned.freeReqSlots false (unlocked.free _)))
      | false =>
        refine ((absent exists_).unlock (mem_cons_self : req.cacheHandle.node ∈ _)).bind
          fun next unlocked => ?_
        rw [erase_cons_head] at unlocked
        exact Outcome.pure (after (Pinned.freeReqSlots true (unlocked.free _)))
    · refine (consumed.unlock (mem_cons_self : req.cacheHandle.node ∈ _)).bind
        fun next unlocked => ?_
      rw [erase_cons_head] at unlocked
      exact Outcome.pure (after (Pinned.freeReqSlots false (unlocked.free _)))

end Commits

/-! ### Admission and allocation -/

section Admission

variable {ps numSlots maxRunningReqs : Nat} {cm : CacheManager} {tm : TableManager}
  {ts : List Tenant} {adder : PrefillAdder} {pending : PendingReq}

def Seated (ps numSlots maxRunningReqs : Nat) (pending : PendingReq) (ts : List Tenant)
    (adder : PrefillAdder) (resource : Resource) : Prop :=
  ∀ (req : Req), req.cacheHandle = resource.cacheHandle →
    req.linearSlotIdx = resource.linearSlotIdx → req.mambaPingPong = resource.pingPong →
    req.mmEmbeds = pending.mmEmbeds →
    SlotInv ps numSlots maxRunningReqs false adder.cacheManager adder.tableManager
      ((.resting, req) :: ts)

theorem seat_slots {mambaValue : Option Nat}
    (pinned : Pinned ps numSlots (handle.node :: ts.map lockOf)
      (ts.flatMap fun tenant => slotsOf tenant.2) adder.cacheManager)
    (rows : adder.tableManager.freeSlots.length + ts.length = maxRunningReqs)
    (equipped : ∀ tenant ∈ ts, Equipped tenant.2)
    (root : pending.mmEmbeds = true → handle.node = [])
    (row : adder.tableManager.freeSlots ≠ [])
    (enough : 3 ≤ adder.cacheManager.linearStatePool.numFreeSlots) :
    Outcome (adder.seat pending handle mambaValue) (fun res => ∃ resource, res.2 = some resource ∧
        Seated ps numSlots maxRunningReqs pending ts res.1 resource)
      fun err => ¬SlotsExhausted err := by
  have hybrid := pinned.hybrid
  unfold PrefillAdder.seat TableManager.allocate
  obtain ⟨tableIdx, last⟩ := isSome_iff_exists.mp
    (getLast?_isSome.mpr row)
  rw [last]
  dsimp only
  have written : ∃ (next : CacheManager) (tm : TableManager), (if 0 < handle.cachedLen then
        (adder.cacheManager.writeRow tableIdx
          (handle.cachedLen - (adder.cacheManager.getMatchedIndices handle).length)
          (adder.cacheManager.getMatchedIndices handle),
          ({ adder.tableManager with freeSlots := adder.tableManager.freeSlots.dropLast } :
            TableManager).writeTokens tableIdx 0 (pending.inputIds.take handle.cachedLen))
      else (adder.cacheManager,
        { adder.tableManager with freeSlots := adder.tableManager.freeSlots.dropLast })) =
        (next, tm) ∧ next.prefixCache = adder.cacheManager.prefixCache ∧
      next.linearStatePool = adder.cacheManager.linearStatePool ∧
      tm.freeSlots = adder.tableManager.freeSlots.dropLast := by
    split
    · exact ⟨_, _, rfl, rfl, rfl, rfl⟩
    · exact ⟨_, _, rfl, rfl, rfl, rfl⟩
  obtain ⟨next, tmNext, same, tree, pool, free⟩ := written
  have kept : Pinned ps numSlots (handle.node :: ts.map lockOf)
      (ts.flatMap fun tenant => slotsOf tenant.2) next := pinned.frame tree (by rw [pool])
  rw [← pool] at enough
  refine Outcome.bind (Q := fun res => res = (TableManager.mk
    adder.tableManager.freeSlots.dropLast adder.tableManager.tokenPool, tableIdx))
    (show _ = _ from rfl) ?_
  rintro res rfl
  rw [same]
  rw [if_pos kept.hybrid]
  obtain ⟨first, live, gaveLive, oneSlot, left, afterLive⟩ := kept.take (n := 1) (by omega)
  rw [gaveLive]
  have twoLeft : 2 ≤ ({ next with linearStatePool := first } :
      CacheManager).linearStatePool.numFreeSlots := by
    change 2 ≤ first.numFreeSlots
    omega
  obtain ⟨second, pair, gavePair, twoSlots, -, afterPair⟩ := afterLive.take twoLeft
  obtain ⟨slot, rfl⟩ := length_eq_one_iff.mp oneSlot
  obtain ⟨fst, snd, rfl⟩ := length_eq_two.mp twoSlots
  refine Outcome.bind (Q := fun res => res = (first, [slot])) (show _ = _ from rfl) ?_
  rintro res rfl
  refine Outcome.bind (Q := fun res => res = (second, [fst, snd])) ?_ ?_
  · exact Outcome.of_ok gavePair rfl
  rintro res rfl
  refine Outcome.pure ⟨_, rfl, fun req sameHandle sameLive samePair images => ?_⟩
  refine ⟨?_, ?_, ?_⟩
  · rw [map_cons, flatMap_cons]
    unfold lockOf slotsOf
    rw [sameHandle, sameLive, samePair]
    refine (afterPair.frame rfl rfl).perm (Perm.refl _) ?_
    rw [← append_assoc]
    exact (@perm_append_comm _ [fst, snd] [slot]).append_right _
  · rw [free, length_dropLast, length_cons]
    have := length_pos_iff.mpr row
    omega
  · intro tenant mem
    rcases mem_cons.mp mem with rfl | mem
    · refine ⟨?_, ?_, fun multimodal => ?_⟩
      · rw [sameLive]
        rfl
      · rw [samePair]
        rfl
      · rw [sameHandle]
        exact root (images ▸ multimodal)
    · exact equipped tenant mem

theorem undo_slots {resource : Resource}
    (seated : Seated ps numSlots maxRunningReqs pending ts adder resource) :
    Outcome (adder.undo resource)
      (fun next => SlotInv ps numSlots maxRunningReqs false next.cacheManager next.tableManager ts)
      fun err => ¬SlotsExhausted err := by
  have holds := seated { Req.unused with
    cacheHandle := resource.cacheHandle
    linearSlotIdx := resource.linearSlotIdx
    mambaPingPong := resource.pingPong
    mmEmbeds := pending.mmEmbeds } rfl rfl rfl rfl
  obtain ⟨hasLive, hasPair, -⟩ := holds.equipped _ mem_cons_self
  obtain ⟨live, isLive⟩ := isSome_iff_exists.mp hasLive
  obtain ⟨pair, isPair⟩ := isSome_iff_exists.mp hasPair
  have isLive : resource.linearSlotIdx = some live := isLive
  have isPair : resource.pingPong = some pair := isPair
  refine (holds.pinned.unlock (mem_cons_self : resource.cacheHandle.node ∈ _)).bind
    fun unlocked given => Outcome.pure ?_
  rw [map_cons, flatMap_cons] at given
  unfold lockOf slotsOf at given
  rw [erase_cons_head] at given
  rw [isLive, isPair] at given ⊢
  refine ⟨given.give (Perm.refl _), ?_, fun tenant mem =>
    holds.equipped tenant (mem_cons_of_mem _ mem)⟩
  have rows := holds.rows
  change (adder.tableManager.freeSlots ++ [resource.tableIdx]).length + _ = _
  rw [length_append, length_singleton]
  rw [length_cons] at rows
  omega

theorem admit_slots
    (holds : SlotInv ps numSlots maxRunningReqs false adder.cacheManager adder.tableManager ts) :
    Outcome (adder.tryAddOne pending none)
      (Scheduler.Placed (SlotInv ps numSlots maxRunningReqs) [] ts)
      fun err => ¬SlotsExhausted err := by
  refine PrefillAdder.tryAddOne_fresh (Seated ps numSlots maxRunningReqs pending ts)
    (fun err => NotRuntime.not_exhausted) ?_ holds undo_slots ?_
  · refine (PrefillAdder.tryAllocateOne_rule
      (fun cm => SlotInv ps numSlots maxRunningReqs false cm adder.tableManager ts)
      (fun cm handle _ =>
        SlotInv ps numSlots maxRunningReqs false cm adder.tableManager ts ∧
          Target handle.node cm ∧ (pending.mmEmbeds = true → handle.node = []))
      (fun cm handle _ => Pinned ps numSlots (handle.node :: ts.map lockOf)
        (ts.flatMap fun tenant => slotsOf tenant.2) cm ∧
          (pending.mmEmbeds = true → handle.node = []))
      (Seated ps numSlots maxRunningReqs pending ts) holds ?_ And.left ?_ ?_ ?_ ?_).imp ?_
    · refine (holds.pinned.matchReq pending fun err => NotRuntime.not_exhausted).imp
        fun res found => ?_
      exact ⟨⟨found.1, holds.rows, holds.equipped⟩, found.2⟩
    · rintro cm handle - ⟨found, target, root⟩
      obtain ⟨locked, same⟩ := found.pinned.lock target
      rw [same]
      exact ⟨locked, root⟩
    · exact fun locked => ⟨(locked.1.ensureMambaSlots 3).1, locked.2⟩
    · rintro cm handle - ⟨locked, -⟩
      refine (locked.unlock mem_cons_self).imp fun next unlocked => ?_
      rw [erase_cons_head] at unlocked
      exact ⟨unlocked, holds.rows, holds.equipped⟩
    · intro cm handle mamba locked row enough
      exact seat_slots locked.1 holds.rows holds.equipped locked.2 row (enough locked.1.hybrid)
    · rintro ⟨next, resource⟩ found
      cases resource with
      | some resource => exact found
      | none =>
        obtain ⟨kept, same⟩ := found
        rw [same]
        exact kept
  · intro next resource size res seated added
    unfold Scheduler.Placed
    rw [added.req, added.cacheManager, added.tableManager]
    exact (seated (chunkReq pending resource resource.cacheHandle.cachedLen size false 0) rfl rfl
      rfl rfl).change rfl rfl rfl rfl rfl rfl rfl

theorem allocate_slots {reqs : List Req} {tenants : List Tenant}
    (holds : SlotInv ps numSlots maxRunningReqs false cm tm tenants) :
    Outcome (cm.allocatePaged reqs)
      (fun next => SlotInv ps numSlots maxRunningReqs false next tm tenants)
      fun err => ¬SlotsExhausted err := by
  unfold CacheManager.allocatePaged
  dsimp only
  split
  · refine (holds.pinned.allocate _ fun err => NotRuntime.not_exhausted).bind
      fun res given => ?_
    obtain ⟨mid, pages⟩ := res
    refine Outcome.bind (Q := Pinned ps numSlots (tenants.map lockOf)
      (tenants.flatMap fun tenant => slotsOf tenant.2)) ?_ ?_
    · unfold CacheManager.allocSwa
      split
      · have unchanged : mid.ensureSwaSlots (pageToToken mid.pageSize pages).length = mid := by
          obtain ⟨cache, kind, -, -⟩ := given
          unfold CacheManager.ensureSwaSlots
          rw [kind]
        dsimp only
        rw [unchanged]
        split
        · exact Outcome.pure given
        · unfold HybridSWAPool.allocSwa
          split
          · exact window_error _ _
          · exact Outcome.pure (given.frame rfl rfl)
      · exact Outcome.pure given
    · intro next kept
      refine Outcome.pure ⟨?_, holds.rows, holds.equipped⟩
      have written : ∀ (info : List (Nat × Nat × Nat)) (allocated : List Nat) (next : CacheManager),
          Pinned ps numSlots (tenants.map lockOf)
            (tenants.flatMap fun tenant => slotsOf tenant.2) next →
          Pinned ps numSlots (tenants.map lockOf)
            (tenants.flatMap fun tenant => slotsOf tenant.2) (next.writePageTable allocated info) := by
        intro info
        induction info with
        | nil => exact fun _ _ kept => kept
        | cons entry rest ih => exact fun _ _ kept => ih _ _ (kept.frame rfl rfl)
      exact written _ _ _ kept
  · exact Outcome.pure holds

end Admission

/-! ### The whole run -/

section Run

open Scheduler

variable {ps numSlots maxRunningReqs : Nat} {cfg : SchedulerConfig}

theorem releaseSwa_frame (cm : CacheManager) (req : Req) (newEvicted : Int) :
    (cm.releaseSwa req newEvicted).1.prefixCache = cm.prefixCache ∧
      (cm.releaseSwa req newEvicted).1.linearStatePool = cm.linearStatePool ∧
      ∃ evicted, (cm.releaseSwa req newEvicted).2 = { req with swaEvictedSeqlen := evicted } := by
  unfold CacheManager.releaseSwa
  dsimp only
  split
  · exact ⟨rfl, rfl, _, rfl⟩
  · exact ⟨rfl, rfl, req.swaEvictedSeqlen, rfl⟩

theorem SlotInv.release {cm : CacheManager} {tm : TableManager} {ts : List Tenant} {req : Req}
    (newEvicted : Int)
    (holds : SlotInv ps numSlots maxRunningReqs false cm tm ((.resting, req) :: ts)) :
    SlotInv ps numSlots maxRunningReqs false (cm.releaseSwa req newEvicted).1 tm
      ((.resting, (cm.releaseSwa req newEvicted).2) :: ts) := by
  obtain ⟨tree, pool, evicted, same⟩ := releaseSwa_frame cm req newEvicted
  rw [same]
  exact holds.change tree (by rw [pool]) rfl rfl rfl rfl rfl

theorem forwardState_frame (isPrefill : Bool) (tm : TableManager) (cm : CacheManager) (req : Req) :
    (forwardState isPrefill tm cm req).1.prefixCache = cm.prefixCache ∧
      (forwardState isPrefill tm cm req).1.linearStatePool.freeSlots =
        cm.linearStatePool.freeSlots ∧
      (forwardState isPrefill tm cm req).2.cacheHandle = req.cacheHandle ∧
      (forwardState isPrefill tm cm req).2.linearSlotIdx = req.linearSlotIdx ∧
      (forwardState isPrefill tm cm req).2.mambaPingPong = req.mambaPingPong ∧
      (forwardState isPrefill tm cm req).2.mmEmbeds = req.mmEmbeds := by
  unfold forwardState
  split
  · unfold extendState noteTrack
    dsimp only
    split <;> exact ⟨rfl, rfl, rfl, rfl, rfl, rfl⟩
  · exact ⟨rfl, rfl, rfl, rfl, rfl, rfl⟩

theorem SlotInv.restage {draining : Bool} {cm : CacheManager} {tm : TableManager}
    {first second : List Tenant}
    (holds : SlotInv ps numSlots maxRunningReqs draining cm tm first)
    (same : first.map Prod.snd = second.map Prod.snd) :
    SlotInv ps numSlots maxRunningReqs draining cm tm second where
  pinned := by
    have locks : second.map lockOf = first.map lockOf := by
      have := congrArg (map fun req : Req => req.cacheHandle.node) same
      rw [List.map_map, List.map_map] at this
      exact this.symm
    have slots : (second.flatMap fun tenant => slotsOf tenant.2) =
        first.flatMap fun tenant => slotsOf tenant.2 := by
      have := congrArg (flatMap slotsOf) same
      rw [flatMap_map, flatMap_map] at this
      exact this.symm
    rw [locks, slots]
    exact holds.pinned
  rows := by
    have := congrArg length same
    rw [length_map, length_map] at this
    rw [← this]
    exact holds.rows
  equipped := by
    intro tenant mem
    have lt : tenant.2 ∈ first.map Prod.snd := by
      rw [same]
      exact List.mem_map_of_mem mem
    obtain ⟨other, inFirst, equal⟩ := List.mem_map.mp lt
    rw [← equal]
    exact holds.equipped other inFirst

theorem slotInv_keeps (enough : 4 * maxRunningReqs + 1 ≤ numSlots) :
    Keeps cfg (fun _ _ => True) (SlotInv ps numSlots maxRunningReqs)
      (fun err => ¬SlotsExhausted err) where
  perm := SlotInv.perm
  admission := fun _ holds => admit_slots holds
  extend := by
    intro adder ts pending chunk of holds
    refine PrefillAdder.tryAddOne_continued (fun err => NotRuntime.not_exhausted) holds ?_
    intro size res added
    unfold Placed
    rw [added.req, added.cacheManager, added.tableManager]
    exact holds.change rfl rfl rfl rfl rfl rfl of.mmEmbeds.symm
  slideExtend := fun holds => holds.release _
  slideDecode := by
    intro cm tm req ts _ holds
    unfold CacheManager.freeSwaOfDecode
    split
    · exact holds
    · exact SlotInv.release _ (holds.change rfl rfl rfl rfl rfl rfl rfl)
  count := fun holds => holds.change rfl rfl rfl rfl rfl rfl rfl
  allocate := by
    intro cm tm reqs ts _ holds
    refine (allocate_slots holds).imp fun next kept => ?_
    refine kept.restage ?_
    rw [map_append, map_append, List.map_map, List.map_map]
    rfl
  restore := by
    intro cm tm req ts holds
    unfold restoreLinearState
    split <;> exact holds.change rfl rfl rfl rfl rfl rfl rfl
  freeze := by
    intro cm tm req ts holds
    unfold CacheManager.snapshotAnchor
    split
    · split <;> exact holds.change rfl rfl rfl rfl rfl rfl rfl
    · exact holds.change rfl rfl rfl rfl rfl rfl rfl
  pass := fun holds => holds.change rfl rfl rfl rfl rfl rfl rfl
  feed := by
    intro cm tm req ts isPrefill _ holds
    obtain ⟨tree, pool, handle, live, pair, images⟩ := forwardState_frame isPrefill tm cm req
    exact holds.change tree pool rfl handle live pair images
  sample := fun _ holds => holds.change rfl rfl rfl rfl rfl rfl rfl
  complete := fun holds => holds.change rfl rfl rfl rfl rfl rfl rfl
  openRegion := fun holds => ⟨holds.pinned.frame rfl rfl, holds.rows, holds.equipped⟩
  closeRegion := fun holds => ⟨holds.pinned.frame rfl rfl, holds.rows, holds.equipped⟩
  append := by
    intro cm tm req ts token finished _ holds
    refine Outcome.of_eq (fun given done => ?_) fun err failed => ?_
    · obtain ⟨-, -, rfl⟩ := appendHost_ok done
      unfold noteAnchor
      split <;> exact holds.change rfl rfl rfl rfl rfl rfl rfl
    · refine NotRuntime.not_exhausted fun msg same => ?_
      unfold Req.appendHost ensure at failed
      split at failed
      · rw [← Except.error.inj failed] at same
        cases same
      · split at failed
        · cases failed
        · rw [← Except.error.inj failed] at same
          cases same
  commit := fun _ _ _ holds => holds.commit enough
  finish := fun _ _ holds => holds.finish
  mark := fun holds => holds.change rfl rfl rfl rfl rfl rfl rfl

def newHybrid (numPages ps numSlots : Nat) (clock : Clock) (swaPool : Option HybridSWAPool)
    (slidingWindowSize : Nat) : CacheManager :=
  CacheManager.new numPages ps (.hybrid (HybridRadixCache.new ps clock))
    (LinearStatePool.new numSlots) swaPool slidingWindowSize

theorem SlotInv.new (numPages : Nat) (clock : Clock) (swaPool : Option HybridSWAPool)
    (slidingWindowSize : Nat) : SlotInv ps numSlots maxRunningReqs false
      (newHybrid numPages ps numSlots clock swaPool slidingWindowSize)
      (TableManager.new maxRunningReqs) [] where
  pinned := ⟨HybridRadixCache.new ps clock, rfl, HybridInv.new ps clock, Perm.of_eq
    (append_nil _)⟩
  rows := length_range
  equipped := fun _ absurd => nomatch absurd

theorem committing_slots {s : Scheduler} (control : Control s)
    (housed : Housed (SlotInv ps numSlots maxRunningReqs) s) {req : Req}
    (commits : s.committing cfg = some req) : ∃ ts,
    SlotInv ps numSlots maxRunningReqs true s.cacheManager s.tableManager ((.resting, req) :: ts) := by
  unfold committing at commits
  split at commits
  · next name rest data todo last =>
    dsimp only at commits
    split at commits
    · cases commits
    · next open_ =>
      split at commits
      · cases commits
      · next goesOn =>
        push Not at open_ goesOn
        have queued : name ∈ s.queue := by
          unfold queue
          rw [todo]
          exact mem_cons_self
        have seated : (s.reqs name).tableIdx.isSome := isSome_iff_ne_none.mpr goesOn.2
        have held : s.Houses name :=
          ⟨control.queued name queued, seated, .inl (by simpa using open_.1)⟩
        obtain ⟨names, -, who, holds⟩ := housed
        have mem := (who name).mpr (.inl held)
        have front := SlotInv.perm (atRest_perm (perm_cons_erase mem)) holds
        refine ⟨atRest s.reqs (names.erase name), ?_⟩
        cases commits
        unfold noteAnchor
        split <;> exact front.change rfl rfl rfl rfl rfl rfl rfl
  · cases commits

/-- **Four slots for each request and the padding one suffice**: whatever snapshots the tree holds or
has locked, no step of a run fails for want of a slot, and a commit whose slot the tree took finds
another one. -/
theorem hybrid_slots_suffice {numPages slidingWindowSize : Nat} {clock : Clock}
    {swaPool : Option HybridSWAPool} (enough : 4 * maxRunningReqs + 1 ≤ numSlots)
    {events : List Event} {s : Scheduler}
    (run : Run cfg (Scheduler.new
      (newHybrid numPages ps numSlots clock swaPool slidingWindowSize) maxRunningReqs) events s) :
    (∀ event err, s.enabled event = true → s.step cfg event = .error err → ¬SlotsExhausted err) ∧
      ∀ req, s.committing cfg = some req → ∀ mid given,
        donation s.cacheManager req = .ok (some (mid, given)) →
          1 ≤ (mid.ensureMambaSlots 1).linearStatePool.numFreeSlots := by
  have keeps := @slotInv_keeps ps numSlots maxRunningReqs cfg enough
  obtain ⟨control, phase⟩ := control_run run
  have unconditional : ∀ (state : Scheduler) (event : Event),
      Commits cfg (fun _ _ => True) state event := fun _ event => by
    cases event with
    | drain => exact fun _ _ => trivial
    | _ => trivial
  have housed := keeps.run (SlotInv.new numPages clock swaPool slidingWindowSize) run
    fun _ event _ state _ _ => unconditional state event
  refine ⟨fun event err enabled failed => ?_, fun req commits mid given donated => ?_⟩
  · exact (keeps.step control phase housed enabled (unconditional s event)).error failed
  · obtain ⟨ts, holds⟩ := committing_slots control housed commits
    obtain ⟨handle, -, live, pair, -, -, pinned⟩ :=
      (holds.donation (E := fun _ => True)).ok donated mid given rfl
    have spare := holds.spare enough
    refine pinned.ensure_one ?_
    simp only [length_append, length_cons, length_nil, length_map]
    omega

/-- One request and five slots: a prompt arrives and is launched. -/
theorem hybrid_slots_suffice_one : ∃ (cfg : SchedulerConfig) (s : Scheduler),
    Run cfg (Scheduler.new (newHybrid 8 4 5 ⟨fun _ => 0, 0⟩ none 0) 1)
      [.recv (.user ⟨0, [1, 2, 3], ⟨true, 4, []⟩, false⟩), .launch fun _ => 7] s ∧
    (∀ event err, s.enabled event = true → s.step cfg event = .error err → ¬SlotsExhausted err) ∧
      ∀ req, s.committing cfg = some req → ∀ mid given,
        donation s.cacheManager req = .ok (some (mid, given)) →
          1 ≤ (mid.ensureMambaSlots 1).linearStatePool.numFreeSlots := by
  refine ⟨⟨64, 32, [], none, fun _ => [], 8⟩, ?_⟩
  obtain ⟨s, run⟩ : ∃ s, Run ⟨64, 32, [], none, fun _ => [], 8⟩
      (Scheduler.new (newHybrid 8 4 5 ⟨fun _ => 0, 0⟩ none 0) 1)
      [.recv (.user ⟨0, [1, 2, 3], ⟨true, 4, []⟩, false⟩), .launch fun _ => 7] s :=
    ⟨_, Run.snoc (Run.snoc Run.nil rfl rfl) rfl rfl⟩
  exact ⟨s, run, hybrid_slots_suffice (by decide) run⟩

end Run

end FreeToken
