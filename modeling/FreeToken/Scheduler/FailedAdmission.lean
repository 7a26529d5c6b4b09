/-
**A request that is not added leaves nothing behind.**
-/

import FreeToken.KVCache.HybridRun
import FreeToken.KVCache.SWAMatch
import FreeToken.Scheduler.HybridSlots

namespace FreeToken

open PageTree List

/-! ### What the locks tell -/

section Told

variable {ps : Nat} {locks : List (List Token)} {tier : FullTier} {node : RadixTreeNode}
  {word : List Token}

/-- A lock count is told by the locks and by any word of its node. -/
theorem refCount_at (inv : FullTier.Inv ps locks tier) (mem : node ∈ tier.nodes)
    (covers : Covers ps node word) : node.data.refCount = through locks word := by
  rw [inv.counts.refCount node mem]
  refine congrArg Nat.cast (countP_congr fun lock lockMem => ?_)
  rw [decide_eq_true_eq, decide_eq_true_eq]
  exact (covers_prefix_iff inv.wf mem covers (inv.stored lock lockMem)).symm

theorem covered_of_through (inv : FullTier.Inv ps locks tier) (locked : through locks word ≠ 0)
    (aligned : ps ∣ word.length) (nonempty : word ≠ []) :
    ∃ node ∈ tier.nodes, Covers ps node word := by
  obtain ⟨lock, lockMem, onLock⟩ : ∃ lock ∈ locks, word <+: lock := by
    by_contra none
    push Not at none
    exact locked (through_eq_zero none)
  rcases inv.stored lock lockMem with root | ⟨last, lastMem, path⟩
  · exact absurd (prefix_nil.mp (root ▸ onLock)) nonempty
  · exact inv.wf.covered_of_prefix _ lastMem le_rfl (path ▸ onLock) nonempty aligned

theorem protectedSize_eq {other : FullTier} (pos : 0 < ps) (inv : FullTier.Inv ps locks tier)
    (invOther : FullTier.Inv ps locks other) : tier.protectedSize = other.protectedSize := by
  have swap : pinned = fun node : RadixTreeNode =>
      if ¬node.data.refCount = 0 then (node.length : Int) else 0 :=
    funext fun _ => (ite_not _ _ _).symm
  have moves : ∀ {one two : FullTier}, FullTier.Inv ps locks one → FullTier.Inv ps locks two →
      ∀ word, (∃ node ∈ one.nodes, ¬node.data.refCount = 0 ∧ Covers ps node word) →
        ∃ node ∈ two.nodes, ¬node.data.refCount = 0 ∧ Covers ps node word := by
    rintro one two invOne invTwo word ⟨node, mem, locked, covers⟩
    rw [refCount_at invOne mem covers] at locked
    obtain ⟨copy, copyMem, copyCovers⟩ := covered_of_through invTwo locked covers.1
      (ne_nil_of_length_pos (Nat.zero_lt_of_lt covers.2.1))
    refine ⟨copy, copyMem, ?_, copyCovers⟩
    rwa [refCount_at invTwo copyMem copyCovers]
  rw [inv.counts.protect, invOther.counts.protect, swap]
  exact total_of_store pos inv.wf invOther.wf fun word =>
    ⟨moves inv invOther word, moves invOther inv word⟩

theorem evictableSize_eq (counts : FullTier.Counts (through locks) tier) :
    tier.evictableSize + tier.protectedSize =
      total (fun node => (node.length : Int)) tier.nodes := by
  rw [counts.evictable, counts.protect]
  unfold total idle pinned
  rw [← sum_map_add]
  refine congrArg List.sum (map_congr_left fun node _ => ?_)
  split <;> simp

theorem evictable_moved {other : FullTier} (pos : 0 < ps) (inv : FullTier.Inv ps locks tier)
    (invOther : FullTier.Inv ps locks other) :
    other.evictableSize + total (fun node => (node.length : Int)) tier.nodes =
      tier.evictableSize + total (fun node => (node.length : Int)) other.nodes := by
  rw [← evictableSize_eq inv.counts, ← evictableSize_eq invOther.counts,
    protectedSize_eq pos inv invOther]
  ring

theorem locked_stays {other : FullTier} (inv : FullTier.Inv ps locks tier)
    (invOther : FullTier.Inv ps locks other) (mem : node ∈ tier.nodes)
    (locked : node.data.refCount ≠ 0) (word : List Token) (covers : Covers ps node word) :
    ∃ node ∈ other.nodes, Covers ps node word := by
  rw [refCount_at inv mem covers] at locked
  exact covered_of_through invOther locked covers.1
    (ne_nil_of_length_pos (Nat.zero_lt_of_lt covers.2.1))

theorem mambaProtected_eq {cache other : HybridRadixCache} (inv : HybridInv ps locks cache)
    (invOther : HybridInv ps locks other) : cache.mambaProtected = other.mambaProtected := by
  have paths : ∀ {one : HybridRadixCache}, HybridInv ps locks one → ∀ word,
      word ∈ (keptNodes one.tier.nodes).map Seg.path ↔ word ∈ locks ∧ word ≠ [] := by
    intro one invOne word
    rw [mem_map]
    constructor
    · rintro ⟨node, kept, rfl⟩
      obtain ⟨mem, holds⟩ := mem_filter.mp kept
      exact ⟨(invOne.core.mem_holds_iff mem).mpr (of_decide_eq_true holds).2,
        invOne.wf.path_ne_nil mem⟩
    · rintro ⟨locked, nonempty⟩
      obtain ⟨node, mem, rfl⟩ := (invOne.core.tier.stored word locked).resolve_left nonempty
      exact ⟨node, mem_filter.mpr ⟨mem, decide_eq_true
        ⟨invOne.core.held node mem locked, (invOne.core.mem_holds_iff mem).mp locked⟩⟩, rfl⟩
  have same : ((keptNodes cache.tier.nodes).map Seg.path).Perm
      ((keptNodes other.tier.nodes).map Seg.path) :=
    (perm_ext_iff_of_nodup (keptNodes_nodup inv.wf) (keptNodes_nodup invOther.wf)).mpr fun word =>
      (paths inv word).trans (paths invOther word).symm
  have size := same.length_eq
  rw [length_map, length_map] at size
  rw [inv.core.protect, invOther.core.protect, total_keptState, total_keptState, size]

theorem swaRefCount_at {locks : List SWALock} {cache : SWARadixCache}
    (inv : SWARadixCache.Inv locks cache) (mem : node ∈ cache.tier.nodes)
    (covers : Covers cache.pageSize node word) :
    node.data.swaRefCount = if node.data.swaTombstone then 0 else windowThrough locks word := by
  rw [inv.counts.swaRef node mem]
  refine ite_congr rfl (fun _ => rfl) fun _ => ?_
  refine congrArg Nat.cast (countP_congr fun lock lockMem => ?_)
  have below := covers_prefix_iff inv.wf mem covers (inv.stored lockMem)
  rw [decide_eq_true_eq, decide_eq_true_eq, ← below]
  refine and_congr_right fun onLock => ?_
  have bounds := inv.windows.not_inside inv.wf mem lockMem (below.mp onLock)
  have longer := covers.2.1
  have shorter := covers.2.2.length_le
  omega

section Windows

open SWARadixCache

variable {locks : List SWALock} {pre now : SWARadixCache}
  (inv : Inv locks pre) (invNow : Inv locks now) (full : FullNodes pre.tier.nodes)
  (same : SameAnswers pre now)

include inv invNow full same

theorem window_same {old : RadixTreeNode} (oldMem : old ∈ pre.tier.nodes)
    (mem : node ∈ now.tier.nodes) (coversOld : Covers pre.pageSize old word)
    (covers : Covers pre.pageSize node word) :
    node.data.swaTombstone = old.data.swaTombstone ∧
      node.data.swaRefCount = old.data.swaRefCount := by
  have page := congrFun same.dead word
  rw [same.wf.pageAt_eq mem covers, inv.wf.pageAt_eq oldMem coversOld,
    pageIn_tombs same.wf same.full mem covers, pageIn_tombs inv.wf full oldMem coversOld]
    at page
  have tomb := (replicate_right_inj inv.pagePositive.ne').mp (Option.some.inj page)
  refine ⟨tomb, ?_⟩
  rw [swaRefCount_at invNow mem (same.pageSize.symm ▸ covers),
    swaRefCount_at inv oldMem coversOld, tomb]

/-- **The window sizes are told by the locks, the words and their tombstones.** -/
theorem swaSizes_same :
    (now.swaEvictable, now.swaProtected) = (pre.swaEvictable, pre.swaProtected) := by
  have stored : ∀ word, (∃ node ∈ now.tier.nodes, Covers pre.pageSize node word) ↔
      ∃ node ∈ pre.tier.nodes, Covers pre.pageSize node word := fun word => by
    rw [← same.wf.pageAt_isSome_iff, ← inv.wf.pageAt_isSome_iff]
    exact iff_of_eq (congrArg (fun pages => (pages word).isSome = true) same.pages)
  have totals : ∀ kind : Int → Prop, [DecidablePred kind] →
      total (fun node => if node.data.swaTombstone = false ∧ kind node.data.swaRefCount then
        (node.length : Int) else 0) now.tier.nodes =
      total (fun node => if node.data.swaTombstone = false ∧ kind node.data.swaRefCount then
        (node.length : Int) else 0) pre.tier.nodes := by
    intro kind _
    refine total_of_store inv.pagePositive same.wf inv.wf fun word => ?_
    constructor
    · rintro ⟨node, mem, isKind, covers⟩
      obtain ⟨old, oldMem, coversOld⟩ := (stored word).mp ⟨node, mem, covers⟩
      obtain ⟨tomb, count⟩ := window_same inv invNow full same oldMem mem coversOld covers
      exact ⟨old, oldMem, tomb ▸ count ▸ isKind, coversOld⟩
    · rintro ⟨old, oldMem, isKind, coversOld⟩
      obtain ⟨node, mem, covers⟩ := (stored word).mpr ⟨old, oldMem, coversOld⟩
      obtain ⟨tomb, count⟩ := window_same inv invNow full same oldMem mem coversOld covers
      exact ⟨node, mem, tomb.symm ▸ count.symm ▸ isKind, covers⟩
  have idle : liveIdle = fun node : RadixTreeNode =>
      if node.data.swaTombstone = false ∧ node.data.swaRefCount = 0 then (node.length : Int)
      else 0 := by
    funext node
    unfold liveIdle
    cases node.data.swaTombstone <;> simp
  have locked : liveLocked = fun node : RadixTreeNode =>
      if node.data.swaTombstone = false ∧ node.data.swaRefCount ≠ 0 then (node.length : Int)
      else 0 := by
    funext node
    unfold liveLocked
    cases node.data.swaTombstone <;> simp
  rw [invNow.counts.evictable, invNow.counts.protect, inv.counts.evictable, inv.counts.protect,
    idle, locked, totals (· = 0), totals (· ≠ 0)]

end Windows

end Told

/-! ### The books -/

namespace PrefixCache

/-- A cache that runs from a new one reach. The manager locks a match before anything is evicted, so
its snapshot is still there. -/
def Reached : PrefixCache → Prop
  | .naive => True
  | .radix cache => ∃ ps, 0 < ps ∧ ∃ clock ops run results,
      (RadixRun.new ps clock).exec ops = some (run, results) ∧ run.cache = cache
  | .hybrid cache => ∃ ps, 0 < ps ∧ ∃ clock ops run, (HybridRun.new ps clock).timely ops = true ∧
      (HybridRun.new ps clock).exec ops = some run ∧ run.cache = cache
  | .swa cache => ∃ ps window, 0 < ps ∧ 0 < window ∧ ∃ locks,
      SWARadixCache.Filled ps window ⟨cache, locks⟩

def pageSize : PrefixCache → Nat
  | .naive => 1
  | .radix cache => cache.pageSize
  | .hybrid cache => cache.pageSize
  | .swa cache => cache.pageSize

def nodes : PrefixCache → List RadixTreeNode
  | .naive => []
  | .radix cache => cache.tier.nodes
  | .hybrid cache => cache.tier.nodes
  | .swa cache => cache.tier.nodes

def protectedSize : PrefixCache → Int
  | .naive => 0
  | .radix cache => cache.tier.protectedSize
  | .hybrid cache => cache.tier.protectedSize
  | .swa cache => cache.tier.protectedSize

/-- `swa_evictable_size` and `swa_protected_size` -/
def swaSizes : PrefixCache → Int × Int
  | .swa cache => (cache.swaEvictable, cache.swaProtected)
  | _ => (0, 0)

/-- `mamba_evictable` and `mamba_protected` -/
def mambaSizes : PrefixCache → Int × Int
  | .hybrid cache => (cache.mambaEvictable, cache.mambaProtected)
  | _ => (0, 0)

def states : PrefixCache → List Nat
  | .hybrid cache => snapshots cache.tier.nodes
  | _ => []

end PrefixCache

/-- **The same books**: every count of locks at every word, the sizes of both tiers and the slots,
but for what was evicted. -/
structure SameBooks (pre after : CacheManager) : Prop where
  refCount : ∀ old ∈ pre.prefixCache.nodes, ∀ node ∈ after.prefixCache.nodes, ∀ word,
    Covers pre.prefixCache.pageSize old word → Covers pre.prefixCache.pageSize node word →
    node.data.refCount = old.data.refCount
  swaRefCount : pre.isSwa = true → ∀ old ∈ pre.prefixCache.nodes,
    ∀ node ∈ after.prefixCache.nodes, ∀ word, Covers pre.prefixCache.pageSize old word →
    Covers pre.prefixCache.pageSize node word → node.data.swaRefCount = old.data.swaRefCount
  mambaRefCount : pre.isHybrid = true → ∀ old ∈ pre.prefixCache.nodes,
    ∀ node ∈ after.prefixCache.nodes, node.path = old.path →
    node.data.mambaRefCount = old.data.mambaRefCount
  locked : ∀ old ∈ pre.prefixCache.nodes, old.data.refCount ≠ 0 → ∀ word,
    Covers pre.prefixCache.pageSize old word →
    ∃ node ∈ after.prefixCache.nodes, Covers pre.prefixCache.pageSize node word
  protectedSize : after.prefixCache.protectedSize = pre.prefixCache.protectedSize
  evictableSize : after.evictableSize +
      total (fun node => (node.length : Int)) pre.prefixCache.nodes =
    pre.evictableSize + total (fun node => (node.length : Int)) after.prefixCache.nodes
  nothingEvicted : pre.isHybrid = false → after.evictableSize = pre.evictableSize
  swaSizes : after.prefixCache.swaSizes = pre.prefixCache.swaSizes
  swaPool : after.swaPool = pre.swaPool
  slots : ∃ evicted, after.linearStatePool.freeSlots.Perm
      (pre.linearStatePool.freeSlots ++ evicted) ∧
    (after.prefixCache.states ++ evicted).Perm pre.prefixCache.states ∧
    after.prefixCache.mambaSizes.1 + evicted.length = pre.prefixCache.mambaSizes.1 ∧
    after.prefixCache.mambaSizes.2 = pre.prefixCache.mambaSizes.2

/-- **What a failed admission leaves**: the budgets of the pass, the rows of the table and the books
of the manager as they were. -/
structure Restored (pre after : PrefillAdder) : Prop where
  tokenBudget : after.tokenBudget = pre.tokenBudget
  reservedSize : after.reservedSize = pre.reservedSize
  reservedSwa : after.reservedSwa = pre.reservedSwa
  rows : after.tableManager.freeSlots = pre.tableManager.freeSlots
  books : SameBooks pre.cacheManager after.cacheManager

/-! ### Between the lock and the undo -/

def heldWords (held : Option CacheHandle) : List (List Token) := held.toList.map CacheHandle.node

/-- **Where an admission stands**: the cache before it, the lock it has taken, the slots it has
evicted, and the cache now, which counts one lock more if any. -/
inductive Standing : PrefixCache → Option CacheHandle → List Nat → PrefixCache → Prop where
  | naive {held : Option CacheHandle} : Standing .naive held [] .naive
  | radix {pre now : RadixPrefixCache} {locks : List (List Token)} {held : Option CacheHandle}
      (pos : 0 < pre.pageSize) (pageSize : now.pageSize = pre.pageSize)
      (inv : FullTier.Inv pre.pageSize locks pre.tier)
      (invNow : FullTier.Inv pre.pageSize (heldWords held ++ locks) now.tier)
      (full : FullNodes now.tier.nodes)
      (pages : storedPages pre.pageSize now.tier.nodes = storedPages pre.pageSize pre.tier.nodes) :
      Standing (.radix pre) held [] (.radix now)
  | hybrid {pre now : HybridRadixCache} {locks : List (List Token)} {held : Option CacheHandle}
      {slots : List Nat} (pos : 0 < pre.pageSize)
      (inv : HybridInv pre.pageSize locks pre)
      (invNow : HybridInv pre.pageSize (heldWords held ++ locks) now)
      (moved : (snapshots now.tier.nodes ++ slots).Perm (snapshots pre.tier.nodes)) :
      Standing (.hybrid pre) held slots (.hybrid now)
  | swa {pre now : SWARadixCache} {locks own : List SWALock} {held : Option CacheHandle}
      (inv : SWARadixCache.Inv locks pre) (invNow : SWARadixCache.Inv (own ++ locks) now)
      (mine : own.map (fun lock => (lock.node, lock.uuid)) =
        held.toList.map fun handle => (handle.node, handle.swaUuid))
      (full : FullNodes pre.tier.nodes) (same : SWARadixCache.SameAnswers pre now) :
      Standing (.swa pre) held [] (.swa now)

def PrefixCache.Lockable (handle : CacheHandle) : PrefixCache → Prop
  | .naive => True
  | .radix cache => Stored cache.tier.nodes handle.node
  | .hybrid cache => handle.node = [] ∨ ∃ cur ∈ cache.tier.nodes, cur.path = handle.node ∧
      cur.data.mambaValue.isSome = true
  | .swa cache => Stored cache.tier.nodes handle.node

namespace Standing

variable {pre : PrefixCache} {slots : List Nat} {cm : CacheManager} {handle : CacheHandle}

theorem start (reached : pre.Reached) : Standing pre none [] pre := by
  cases pre with
  | naive => exact .naive
  | radix cache =>
    obtain ⟨ps, pos, clock, ops, run, results, ran, rfl⟩ := reached
    obtain ⟨rfl, pos, inv, full, -⟩ := (RadixRun.exec_refines (RadixRun.inv_new pos clock) ran).1
    exact .radix pos rfl inv inv full rfl
  | hybrid cache =>
    obtain ⟨ps, pos, clock, ops, run, intime, ran, rfl⟩ := reached
    have inv := HybridRun.exec_inv (HybridInv.new ps clock) intime ran
    obtain rfl := inv.pageSize
    exact .hybrid pos inv inv (by rw [append_nil])
  | swa cache =>
    obtain ⟨ps, window, pos, windowPos, locks, filled⟩ := reached
    have inv := filled.reachable.inv pos windowPos
    have full := filled.full pos windowPos
    exact @Standing.swa cache cache locks [] none inv inv rfl full (.refl inv.wf full)

theorem matchReq (standing : Standing pre none slots cm.prefixCache) (pending : PendingReq) :
    Outcome (cm.matchReq pending) (fun res => Standing pre none slots res.1.prefixCache ∧
        res.1.prefixCache.Lockable res.2.cudaHandle ∧
        res.1.linearStatePool = cm.linearStatePool ∧ res.1.swaPool = cm.swaPool)
      fun _ => True := by
  unfold CacheManager.matchReq ensure
  split
  · refine Outcome.bind (Q := fun _ => True) trivial fun _ _ => ?_
    generalize (if pending.mmEmbeds then [] else pending.inputIds.take (pending.inputLen - 1)) = ids
    generalize kind : cm.prefixCache = now at standing
    cases standing with
    | naive => exact Outcome.pure ⟨by rw [kind]; exact .naive, by rw [kind]; trivial, rfl, rfl⟩
    | @radix _ now _ _ pos pageSize inv invNow full pages =>
      obtain ⟨same, stored, -, -⟩ := walk_keeps pos invNow full now.clock.now ids
      rw [← pageSize] at stored
      refine Outcome.pure ⟨.radix pos pageSize inv ?_ ?_ ?_, stored, rfl, rfl⟩
      · exact pageSize ▸ same.inv
      · exact pageSize ▸ same.full
      · rw [← pages, ← same.pages, pageSize]
    | @hybrid _ now _ _ _ pos inv invNow moved =>
      obtain ⟨invNext, walked, valid⟩ := invNow.matchPrefix ids
      refine Outcome.pure ⟨.hybrid pos inv invNext ((walked.slots.append_right _).trans moved),
        valid.2.imp_right ?_, rfl, rfl⟩
      exact fun ⟨cur, mem, path, same, has⟩ => ⟨cur, mem, path, has⟩
    | @swa _ now locks own _ inv invNow mine full same =>
      obtain ⟨invNext, stored⟩ := invNow.matchPrefix ids
      exact Outcome.pure ⟨.swa inv invNext mine full
        (same.matchPrefix inv.pagePositive inv.windowPositive ids), stored, rfl, rfl⟩
  · trivial

theorem lock (standing : Standing pre none slots cm.prefixCache)
    (lockable : cm.prefixCache.Lockable handle) :
    Standing pre (some (cm.lock handle).2) slots (cm.lock handle).1.prefixCache := by
  unfold CacheManager.lock
  generalize kind : cm.prefixCache = now at standing lockable
  cases standing with
  | naive =>
    rw [kind]
    exact .naive
  | @radix _ now _ _ pos pageSize inv invNow full pages =>
    obtain ⟨invLock, frame⟩ := invNow.pin lockable
    obtain ⟨samePages, fullKept⟩ := @RadixRun.unref_same _ _ _ frame
    exact .radix pos pageSize inv invLock (fullKept full) (samePages.trans pages)
  | hybrid pos inv invNow moved =>
    obtain ⟨invLock, held⟩ := invNow.incLock lockable
    exact .hybrid pos inv invLock (held.slots ▸ moved)
  | @swa _ now locks own _ inv invNow mine full same =>
    obtain ⟨invLock, kept, sizes⟩ := invNow.incLock lockable
    obtain rfl : own = [] := map_eq_nil_iff.mp mine
    exact @Standing.swa _ _ locks [_] _ inv invLock rfl full (same.kept invLock kept sizes)

theorem unlock (standing : Standing pre (some handle) slots cm.prefixCache) :
    Outcome (cm.unlock handle) (fun next => Standing pre none slots next.prefixCache ∧
        next.linearStatePool = cm.linearStatePool ∧ next.swaPool = cm.swaPool)
      fun _ => True := by
  unfold CacheManager.unlock
  generalize kind : cm.prefixCache = now at standing
  cases standing with
  | naive =>
    exact ⟨by rw [kind]; exact .naive, rfl, rfl⟩
  | @radix _ now locks _ pos pageSize inv invNow full pages =>
    obtain ⟨tier, given, invNext, frame⟩ := invNow.unpin
      (mem_cons_self : handle.node ∈ handle.node :: locks)
    obtain ⟨samePages, fullKept⟩ := @RadixRun.unref_same _ _ _ frame
    unfold RadixPrefixCache.unlockHandle
    dsimp only
    rw [given]
    refine Outcome.pure ⟨.radix pos pageSize inv ?_ (fullKept full) (samePages.trans pages),
      rfl, rfl⟩
    rwa [heldWords, Option.toList, map_cons, map_nil, singleton_append, erase_cons_head] at invNext
  | @hybrid _ now locks _ _ pos inv invNow moved =>
    obtain ⟨next, given, invNext, held⟩ := invNow.decLock
      (mem_cons_self : handle.node ∈ handle.node :: locks)
    dsimp only
    rw [given]
    refine Outcome.pure ⟨.hybrid pos inv ?_ (held.slots ▸ moved), rfl, rfl⟩
    rwa [heldWords, Option.toList, map_cons, map_nil, singleton_append, erase_cons_head] at invNext
  | @swa _ now locks own _ inv invNow mine full same =>
    obtain ⟨lock, rfl, is⟩ := map_eq_singleton_iff.mp mine
    obtain ⟨isNode, isUuid⟩ := Prod.mk.inj is
    obtain ⟨next, given, invNext, kept, sizes⟩ := invNow.decLock (Perm.refl (lock :: locks))
    dsimp only
    rw [← isNode, ← isUuid, given]
    exact Outcome.pure ⟨@Standing.swa _ _ locks [] none inv invNext rfl full
      (same.kept invNext kept sizes), rfl, rfl⟩

/-- **Evictions of snapshots** put their slots on the free list. -/
theorem ensureMambaSlotsFrom (n : Nat) {held : Option CacheHandle} : ∀ (fuel : Nat)
    {slots : List Nat} {cm : CacheManager}, Standing pre held slots cm.prefixCache →
    ∃ more, Standing pre held (slots ++ more)
        (CacheManager.ensureMambaSlotsFrom n fuel cm).prefixCache ∧
      (CacheManager.ensureMambaSlotsFrom n fuel cm).linearStatePool.freeSlots =
        cm.linearStatePool.freeSlots ++ more ∧
      (CacheManager.ensureMambaSlotsFrom n fuel cm).swaPool = cm.swaPool := by
  intro fuel
  induction fuel with
  | zero => exact fun {slots cm} standing => ⟨[], by rwa [append_nil], (append_nil _).symm, rfl⟩
  | succ fuel ih =>
    intro slots cm standing
    have idle : ∃ more, Standing pre held (slots ++ more) cm.prefixCache ∧
        cm.linearStatePool.freeSlots = cm.linearStatePool.freeSlots ++ more ∧
        cm.swaPool = cm.swaPool := ⟨[], by rwa [append_nil], (append_nil _).symm, rfl⟩
    unfold CacheManager.ensureMambaSlotsFrom
    split
    · next cache kind =>
      split
      · exact idle
      · rw [kind] at standing
        cases standing with
        | @hybrid start _ _ _ _ pos inv invNow moved =>
          obtain ⟨invNext, freed, -⟩ := invNow.evictMamba (n - cm.linearStatePool.numFreeSlots)
          generalize cache.evictMamba (n - cm.linearStatePool.numFreeSlots) = evicted at *
          obtain ⟨next, res⟩ := evicted
          dsimp only at *
          have onward : Standing (.hybrid start) held (slots ++ res.mambaSlots)
              (.hybrid next) := by
            refine .hybrid pos inv invNext
              ((perm_append_comm.append_left _).trans (Perm.trans ?_ moved))
            rw [← append_assoc]
            exact freed.append_right slots
          split
          · next none =>
            rw [none, append_nil] at onward
            exact ⟨[], by rwa [append_nil], (append_nil _).symm, rfl⟩
          · have kinds : ∀ next : CacheManager, ∀ pages, (next.free pages).prefixCache =
                next.prefixCache ∧ (next.free pages).linearStatePool = next.linearStatePool ∧
                (next.free pages).swaPool = next.swaPool := by
              intro next pages
              unfold CacheManager.free
              split <;> exact ⟨rfl, rfl, rfl⟩
            obtain ⟨sameKind, samePool, sameSwa⟩ := kinds { cm with
              prefixCache := .hybrid next
              linearStatePool := cm.linearStatePool.free res.mambaSlots } res.kvIndices
            obtain ⟨more, stands, pool, swa⟩ := ih (by rw [sameKind]; exact onward)
            refine ⟨res.mambaSlots ++ more, ?_, ?_, swa.trans sameSwa⟩
            · rwa [append_assoc] at stands
            · rw [pool, samePool]
              exact append_assoc _ _ _
    · exact idle

theorem ensureMambaSlots {held : Option CacheHandle}
    (standing : Standing pre held slots cm.prefixCache) (n : Nat) :
    ∃ more, Standing pre held (slots ++ more) (cm.ensureMambaSlots n).prefixCache ∧
      (cm.ensureMambaSlots n).linearStatePool.freeSlots = cm.linearStatePool.freeSlots ++ more ∧
      (cm.ensureMambaSlots n).swaPool = cm.swaPool := by
  unfold CacheManager.ensureMambaSlots
  split
  · exact ensureMambaSlotsFrom n _ standing
  · exact ⟨[], by rwa [append_nil], (append_nil _).symm, rfl⟩

/-- **With the lock given back the books are the same.** -/
theorem sameBooks {cm0 : CacheManager} (standing : Standing cm0.prefixCache none slots cm.prefixCache)
    (pool : cm.linearStatePool.freeSlots.Perm (cm0.linearStatePool.freeSlots ++ slots))
    (swaPool : cm.swaPool = cm0.swaPool) : SameBooks cm0 cm := by
  cases cm0
  cases cm
  cases standing with
  | naive =>
    exact ⟨fun _ absurd => (not_mem_nil absurd).elim, fun absurd => (Bool.false_ne_true absurd).elim,
      fun absurd => (Bool.false_ne_true absurd).elim, fun _ absurd => (not_mem_nil absurd).elim,
      rfl, rfl, fun _ => rfl, rfl, swaPool, [], pool, .refl _, rfl, rfl⟩
  | @radix pre now _ _ pos pageSize inv invNow full pages =>
    exact {
      refCount := fun old oldMem node mem word coversOld covers =>
        (refCount_at invNow mem covers).trans (refCount_at inv oldMem coversOld).symm
      swaRefCount := fun absurd => by cases absurd
      mambaRefCount := fun absurd => by cases absurd
      locked := fun old mem => locked_stays inv invNow mem
      protectedSize := protectedSize_eq pos invNow inv
      evictableSize := evictable_moved pos inv invNow
      nothingEvicted := fun _ => (sizes_of_store pos invNow inv pages).1
      swaSizes := rfl
      swaPool := swaPool
      slots := ⟨[], pool, .refl _, rfl, rfl⟩ }
  | @hybrid pre now _ _ _ pos inv invNow moved =>
    exact {
      refCount := fun old oldMem node mem word coversOld covers =>
        (refCount_at invNow.core.tier mem covers).trans
          (refCount_at inv.core.tier oldMem coversOld).symm
      swaRefCount := fun absurd => by cases absurd
      mambaRefCount := fun _ old oldMem node mem path => by
        rw [invNow.core.mambaRef node mem, inv.core.mambaRef old oldMem, path]
        rfl
      locked := fun old mem => locked_stays inv.core.tier invNow.core.tier mem
      protectedSize := protectedSize_eq pos invNow.core.tier inv.core.tier
      evictableSize := evictable_moved pos inv.core.tier invNow.core.tier
      nothingEvicted := fun absurd => by cases absurd
      swaSizes := rfl
      swaPool := swaPool
      slots := by
        have kept := mambaProtected_eq invNow inv
        refine ⟨slots, pool, moved, ?_, kept⟩
        have size := moved.length_eq
        have sizeNow := snapshots_length now.tier.nodes
        have sizeBefore := snapshots_length pre.tier.nodes
        rw [← inv.core.evictable, ← inv.core.protect] at sizeBefore
        rw [← invNow.core.evictable, ← invNow.core.protect] at sizeNow
        rw [length_append] at size
        show now.mambaEvictable + _ = pre.mambaEvictable
        omega }
  | @swa pre now locks own _ inv invNow mine full same =>
    obtain rfl : own = [] := map_eq_nil_iff.mp mine
    have pos := inv.pagePositive
    have invFull : FullTier.Inv pre.pageSize (locks.map SWALock.node) now.tier :=
      same.pageSize ▸ invNow.full
    exact {
      refCount := fun old oldMem node mem word coversOld covers =>
        (refCount_at invFull mem covers).trans (refCount_at inv.full oldMem coversOld).symm
      swaRefCount := fun _ old oldMem node mem word coversOld covers =>
        (window_same inv invNow full same oldMem mem coversOld covers).2
      mambaRefCount := fun absurd => by cases absurd
      locked := fun old mem => locked_stays inv.full invFull mem
      protectedSize := protectedSize_eq pos invFull inv.full
      evictableSize := evictable_moved pos inv.full invFull
      nothingEvicted := fun _ => (sizes_of_store pos invFull inv.full same.pages).1
      swaSizes := swaSizes_same inv invNow full same
      swaPool := swaPool
      slots := ⟨[], pool, .refl _, rfl, rfl⟩ }

end Standing

namespace PrefillAdder

variable {adder : PrefillAdder} {pending : PendingReq}

def Stands (start : CacheManager) (held : Option CacheHandle) (given : List Nat)
    (cm : CacheManager) : Prop :=
  ∃ slots, Standing start.prefixCache held slots cm.prefixCache ∧
    (cm.linearStatePool.freeSlots ++ given).Perm (start.linearStatePool.freeSlots ++ slots) ∧
    cm.swaPool = start.swaPool

def givenSlots (resource : Resource) : List Nat :=
  match resource.linearSlotIdx, resource.pingPong with
  | some live, some pair => [live, pair.1, pair.2]
  | _, _ => []

/-- What an admission has taken: a lock, a row and, of a hybrid manager, three slots. -/
structure Taken (start : PrefillAdder) (adder : PrefillAdder) (resource : Resource) : Prop where
  tokenBudget : adder.tokenBudget = start.tokenBudget
  reservedSize : adder.reservedSize = start.reservedSize
  reservedSwa : adder.reservedSwa = start.reservedSwa
  rows : adder.tableManager.freeSlots ++ [resource.tableIdx] = start.tableManager.freeSlots
  stands : Stands start.cacheManager (some resource.cacheHandle) (givenSlots resource)
    adder.cacheManager

theorem undo_restores {start : PrefillAdder} {resource : Resource} (taken : Taken start adder resource) :
    Outcome (adder.undo resource) (Restored start) fun _ => True := by
  obtain ⟨tokenBudget, reservedSize, reservedSwa, rows, slots, standing, pool, swaPool⟩ := taken
  refine standing.unlock.bind fun next given => Outcome.pure ?_
  obtain ⟨stands, samePool, sameSwa⟩ := given
  refine ⟨tokenBudget, reservedSize, reservedSwa, rows, ?_⟩
  unfold givenSlots at pool
  generalize resource.linearSlotIdx = live at pool ⊢
  generalize resource.pingPong = pair at pool ⊢
  have plain : (adder.cacheManager.linearStatePool.freeSlots ++ []).Perm
      (start.cacheManager.linearStatePool.freeSlots ++ slots) →
      SameBooks start.cacheManager next := fun pool => by
    rw [append_nil, ← samePool] at pool
    exact stands.sameBooks pool (sameSwa.trans swaPool)
  cases live with
  | none => exact plain pool
  | some live =>
    cases pair with
    | none => exact plain pool
    | some pair =>
      refine Standing.sameBooks stands ?_ (sameSwa.trans swaPool)
      rw [samePool]
      exact pool

theorem seat_taken {start : PrefillAdder} {handle : CacheHandle} {mambaValue : Option Nat}
    {cm : CacheManager} (stands : Stands start.cacheManager (some handle) [] cm)
    (row : start.tableManager.freeSlots ≠ []) :
    Outcome (({ start with cacheManager := cm } : PrefillAdder).seat pending handle mambaValue)
      (fun res => ∃ resource, res.2 = some resource ∧ Taken start res.1 resource)
      fun _ => True := by
  obtain ⟨slots, standing, pool, swaPool⟩ := stands
  unfold seat TableManager.allocate
  obtain ⟨tableIdx, last⟩ := Option.isSome_iff_exists.mp (getLast?_isSome.mpr row)
  have rows : start.tableManager.freeSlots.dropLast ++ [tableIdx] =
      start.tableManager.freeSlots := dropLast_append_getLast? _ last
  rw [last]
  refine Outcome.bind (Q := fun res => res = (TableManager.mk
    start.tableManager.freeSlots.dropLast start.tableManager.tokenPool, tableIdx)) rfl ?_
  rintro res rfl
  dsimp only
  generalize written : (if 0 < handle.cachedLen then _ else _ : CacheManager × TableManager) = pair
  have same : pair.1.prefixCache = cm.prefixCache ∧ pair.1.linearStatePool = cm.linearStatePool ∧
      pair.1.swaPool = cm.swaPool ∧
      pair.2.freeSlots = start.tableManager.freeSlots.dropLast := by
    rw [← written]
    split <;> exact ⟨rfl, rfl, rfl, rfl⟩
  obtain ⟨kind, samePool, sameSwa, free⟩ := same
  rw [← kind] at standing
  rw [← samePool] at pool
  rw [← sameSwa] at swaPool
  rw [← free] at rows
  split
  · refine Outcome.bind_eq (Q := fun _ => True) (.of_eq (fun _ _ => trivial) fun _ _ => trivial) ?_
    rintro ⟨first, live⟩ gave -
    refine Outcome.bind_eq (Q := fun _ => True) (.of_eq (fun _ _ => trivial) fun _ _ => trivial) ?_
    rintro ⟨second, two⟩ gaveTwo -
    obtain ⟨one, split⟩ := LinearStatePool.alloc_perm gave
    obtain ⟨both, splitTwo⟩ := LinearStatePool.alloc_perm gaveTwo
    obtain ⟨slot, rfl⟩ := length_eq_one_iff.mp one
    obtain ⟨fst, snd, rfl⟩ := length_eq_two.mp both
    refine Outcome.pure ⟨_, rfl, rfl, rfl, rfl, rows, slots, standing, ?_, swaPool⟩
    rw [append_nil] at pool
    refine Perm.trans ?_ (split.trans pool)
    refine Perm.trans ?_ (splitTwo.append_right _)
    rw [append_assoc]
    exact (@perm_append_comm _ [slot] [fst, snd]).append_left _
  · exact Outcome.pure ⟨_, rfl, rfl, rfl, rfl, rows, slots, standing, pool, swaPool⟩

/-- **A request that is not added leaves nothing behind**, whatever the kind of the manager and
whichever gate refuses it. -/
theorem tryAddOne_none_restores {start after : PrefillAdder} {chunkedReq : Option Req}
    (reached : start.cacheManager.prefixCache.Reached)
    (ran : start.tryAddOne pending chunkedReq = .ok (after, none)) : Restored start after := by
  have standing := Standing.start reached
  have same : Restored start start := ⟨rfl, rfl, rfl, rfl,
    standing.sameBooks (by rw [append_nil]) rfl⟩
  have errors : ∀ err, NotRuntime err → True := fun _ _ => trivial
  refine Outcome.ok (E := fun _ => True) (Q := fun res : PrefillAdder × Option Req =>
    res.2 = none → Restored start res.1) ?_ ran rfl
  cases chunkedReq with
  | some chunk =>
    refine tryAddOne_continued errors (fun _ => same) fun {size res} added none => ?_
    cases none.symm.trans added.req
  | none =>
    refine tryAddOne_fresh (Taken start) errors ?_ (fun _ => same)
      (fun {next resource} taken => (undo_restores taken).imp fun _ restored _ => restored)
      fun {next resource size res} _ added none => ?_
    · refine (tryAllocateOne_rule (Stands start.cacheManager none [])
        (fun cm handle _ => Stands start.cacheManager none [] cm ∧ cm.prefixCache.Lockable handle)
        (fun cm handle _ => Stands start.cacheManager (some handle) [] cm) (Taken start)
        ⟨[], standing, by simp, rfl⟩ ?_ And.left ?_ ?_ ?_ ?_).imp ?_
      · refine (standing.matchReq pending).imp fun res found => ?_
        obtain ⟨stands, lockable, pool, swaPool⟩ := found
        exact ⟨⟨[], stands, by rw [pool], swaPool⟩, lockable⟩
      · rintro cm handle - ⟨⟨slots, stands, pool, swaPool⟩, lockable⟩
        refine ⟨slots, stands.lock lockable, ?_⟩
        unfold CacheManager.lock
        split <;> exact ⟨pool, swaPool⟩
      · rintro cm handle - ⟨slots, stands, pool, swaPool⟩
        obtain ⟨more, standsOn, poolOn, swaOn⟩ := stands.ensureMambaSlots 3
        refine ⟨slots ++ more, standsOn, ?_, swaOn.trans swaPool⟩
        rw [append_nil] at pool ⊢
        rw [poolOn, ← append_assoc]
        exact pool.append_right _
      · rintro cm handle - ⟨slots, stands, pool, swaPool⟩
        refine stands.unlock.imp fun next given => ?_
        exact ⟨slots, given.1, by rw [given.2.1]; exact pool, given.2.2.trans swaPool⟩
      · exact fun {cm handle mamba} stands rows _ => seat_taken stands rows
      · rintro ⟨next, resource⟩ found
        cases resource with
        | some resource => exact found
        | none =>
          obtain ⟨⟨slots, stands, pool, swaPool⟩, same⟩ := found
          intro _
          rw [append_nil] at pool
          rw [same]
          exact ⟨rfl, rfl, rfl, rfl, stands.sameBooks pool swaPool⟩
    · cases none.symm.trans added.req

/-- Four cached tokens and no free page: the match makes the request fit, and its own lock takes
that room away. -/
def lockedOut : PrefillAdder where
  tokenBudget := 8
  reservedSize := 0
  reservedSwa := 0
  cacheManager := { CacheManager.new 4 1 (.radix (((RadixRun.new 1 RadixRun.stillClock).exec
    [.insertPrefix [1, 2, 3, 4] [0, 1, 2, 3]]).elim (RadixPrefixCache.new 1 RadixRun.stillClock)
      fun done => done.1.cache)) (.new 0) none 0 with freeSlots := [] }
  tableManager := .new 1

theorem tryAddOne_none_restores_locked : ∃ after,
    lockedOut.tryAddOne ⟨0, [1, 2, 3, 4, 5], ⟨false, 1, []⟩, none, false⟩ none =
      .ok (after, none) ∧ Restored lockedOut after :=
  ⟨_, rfl, @tryAddOne_none_restores ⟨0, [1, 2, 3, 4, 5], ⟨false, 1, []⟩, none, false⟩ lockedOut _
    none ⟨1, one_pos, RadixRun.stillClock, [.insertPrefix [1, 2, 3, 4] [0, 1, 2, 3]], _, _, rfl,
      rfl⟩ rfl⟩

end PrefillAdder

end FreeToken
