/-
**The window tier of the sliding-window tree, change by change.**

* `WindowCounts refs`: a live node's window reference count is what `refs` says for its word, a
  tombstone has none, and the two window token counts are the sums over the live nodes;
* for each change of the tree, that it keeps both.
-/

import FreeToken.KVCache.SWARadixCache
import FreeToken.KVCache.Walk

namespace FreeToken

open PageTree List

def liveIdle (node : RadixTreeNode) : Int :=
  if node.data.swaTombstone then 0 else if node.data.swaRefCount = 0 then node.length else 0

def liveLocked (node : RadixTreeNode) : Int :=
  if node.data.swaTombstone then 0 else if node.data.swaRefCount = 0 then 0 else node.length

/-- The window tier's counts are what `refs` says. -/
structure WindowCounts (refs : List Token → Int) (nodes : List RadixTreeNode)
    (evictable protect : Int) : Prop where
  swaRef : ∀ node ∈ nodes,
    node.data.swaRefCount = if node.data.swaTombstone then 0 else refs node.path
  evictable : evictable = total liveIdle nodes
  protect : protect = total liveLocked nodes

namespace WindowCounts

variable {ps : Nat} {refs : List Token → Int} {nodes : List RadixTreeNode}
  {evictable protect : Int} {node : RadixTreeNode}

theorem congr (counts : WindowCounts refs nodes evictable protect) {other : List Token → Int}
    (same : ∀ node ∈ nodes, node.data.swaTombstone = false → refs node.path = other node.path) :
    WindowCounts other nodes evictable protect where
  swaRef := by
    intro node mem
    rw [counts.swaRef node mem]
    split
    · rfl
    · next live => exact same node mem (by simpa using live)
  evictable := counts.evictable
  protect := counts.protect

theorem sizes (counts : WindowCounts refs nodes evictable protect) (idle locked : Int)
    (sameEvictable : evictable = idle) (sameProtect : protect = locked) :
    WindowCounts refs nodes idle locked :=
  sameEvictable ▸ sameProtect ▸ counts

theorem modify_same (counts : WindowCounts refs nodes evictable protect) (word : List Token)
    (change : RadixTreeNode → NodeData)
    (sameRef : ∀ node : RadixTreeNode, (change node).swaRefCount = node.data.swaRefCount)
    (sameTomb : ∀ node : RadixTreeNode, (change node).swaTombstone = node.data.swaTombstone) :
    WindowCounts refs (modify nodes word change) evictable protect where
  swaRef := by
    intro node mem
    obtain ⟨old, oldMem, rfl⟩ := mem_modify.mp mem
    have := counts.swaRef old oldMem
    split
    · simpa only [sameRef, sameTomb, Seg.path_with_data] using this
    · exact this
  evictable := by
    rw [counts.evictable]
    exact (total_modify_same liveIdle nodes word change fun node _ => by
      simp only [liveIdle, sameRef, sameTomb, Seg.length_with_data]).symm
  protect := by
    rw [counts.protect]
    exact (total_modify_same liveLocked nodes word change fun node _ => by
      simp only [liveLocked, sameRef, sameTomb, Seg.length_with_data]).symm

theorem split (wf : WF ps nodes) (counts : WindowCounts refs nodes evictable protect)
    (mem : node ∈ nodes) {pos : Nat} (lt : pos < node.length)
    (same : refs (splitHead node pos).path = refs node.path) :
    WindowCounts refs (splitNode nodes node pos) evictable protect where
  swaRef := by
    intro new newMem
    have old := counts.swaRef node mem
    rcases (FullTier.mem_splitNode wf mem).mp newMem with rfl | rfl | ⟨kept, _⟩
    · rw [same]
      exact old
    · rw [FullTier.splitTail_path]
      exact old
    · exact counts.swaRef new kept
  evictable := by
    have moved := wf.total_splitAt liveIdle mem pos (NodeData.splitHead pos)
      (NodeData.splitTail pos)
    have shared : liveIdle (splitHead node pos) + liveIdle (splitTail node pos) = liveIdle node := by
      simp only [liveIdle, splitHead_swaTombstone, splitTail_swaTombstone, splitHead_swaRefCount,
        splitTail_swaRefCount, FullTier.splitHead_length lt, FullTier.splitTail_length]
      split
      · rfl
      · split <;> omega
    change _ = _ - _ + liveIdle (splitHead node pos) + liveIdle (splitTail node pos) at moved
    rw [counts.evictable]
    exact (moved.trans (by linarith)).symm
  protect := by
    have moved := wf.total_splitAt liveLocked mem pos (NodeData.splitHead pos)
      (NodeData.splitTail pos)
    have shared :
        liveLocked (splitHead node pos) + liveLocked (splitTail node pos) = liveLocked node := by
      simp only [liveLocked, splitHead_swaTombstone, splitTail_swaTombstone, splitHead_swaRefCount,
        splitTail_swaRefCount, FullTier.splitHead_length lt, FullTier.splitTail_length]
      split
      · rfl
      · split <;> omega
    change _ = _ - _ + liveLocked (splitHead node pos) + liveLocked (splitTail node pos) at moved
    rw [counts.protect]
    exact (moved.trans (by linarith)).symm

theorem insertLeaf (counts : WindowCounts refs nodes evictable protect) (word key : List Token)
    (data : NodeData) (unlocked : data.swaRefCount = 0) (none : refs (word ++ key) = 0) :
    WindowCounts refs (PageTree.insertLeaf nodes word key data)
      (if data.swaTombstone then evictable else evictable + key.length) protect where
  swaRef := by
    intro node mem
    rcases mem_append.mp mem with old | new
    · exact counts.swaRef node old
    · rw [mem_singleton.mp new]
      have : refs (⟨word, key, data⟩ : RadixTreeNode).path = 0 := none
      rw [this, unlocked]
      split <;> rfl
  evictable := by
    rw [counts.evictable, total_insertLeaf]
    simp only [liveIdle, unlocked, if_true, Seg.length]
    split <;> simp
  protect := by
    rw [counts.protect, total_insertLeaf]
    simp only [liveLocked, unlocked, if_true]
    split <;> simp

theorem remove (wf : WF ps nodes) (counts : WindowCounts refs nodes evictable protect)
    (mem : node ∈ nodes) (unlocked : node.data.swaRefCount = 0) :
    WindowCounts refs (PageTree.remove nodes node.path)
      (if node.data.swaTombstone then evictable else evictable - node.length) protect where
  swaRef := fun other otherMem => counts.swaRef other (mem_remove.mp otherMem).1
  evictable := by
    rw [counts.evictable, wf.total_remove liveIdle mem]
    simp only [liveIdle, unlocked, if_true]
    split <;> simp
  protect := by
    rw [counts.protect, wf.total_remove liveLocked mem]
    simp only [liveLocked, unlocked, if_true]
    split <;> simp

theorem modify_node (wf : WF ps nodes) (counts : WindowCounts refs nodes evictable protect)
    (mem : node ∈ nodes) (change : RadixTreeNode → NodeData) (other : List Token → Int)
    (here : (change node).swaRefCount = if (change node).swaTombstone then 0 else other node.path)
    (elsewhere : ∀ word, word ≠ node.path → other word = refs word) :
    WindowCounts other (modify nodes node.path change)
      (evictable - liveIdle node + liveIdle { node with data := change node })
      (protect - liveLocked node + liveLocked { node with data := change node }) where
  swaRef := by
    intro new newMem
    obtain ⟨old, oldMem, rfl⟩ := mem_modify.mp newMem
    by_cases same : old.path = node.path
    · rw [if_pos same]
      have := wf.eq_of_path oldMem mem same
      subst this
      exact here
    · rw [if_neg same, elsewhere old.path same]
      exact counts.swaRef old oldMem
  evictable := by rw [counts.evictable, wf.total_modify liveIdle mem]
  protect := by rw [counts.protect, wf.total_modify liveLocked mem]

end WindowCounts

/-! ### Outstanding locks -/

/-- An outstanding lock: the node and the boundary `inc_lock` returned, where the locked window
starts, and the window references it took at each position of the word. -/
structure SWALock where
  node : List Token
  uuid : Option Nat
  lo : Nat
  taken : Nat → Int

def windowThrough (locks : List SWALock) (word : List Token) : Int :=
  (locks.countP fun lock => decide (word <+: lock.node ∧ lock.lo < word.length) : Nat)

theorem windowThrough_nonneg (locks : List SWALock) (word : List Token) :
    0 ≤ windowThrough locks word := Int.natCast_nonneg _

theorem windowThrough_le (locks : List SWALock) (word : List Token) :
    windowThrough locks word ≤ through (locks.map SWALock.node) word := by
  unfold windowThrough through
  rw [countP_map]
  refine Int.ofNat_le.mpr (countP_mono_left fun lock _ both => ?_)
  simp only [decide_eq_true_eq, Function.comp_apply] at both ⊢
  exact both.1

theorem windowThrough_cons (lock : SWALock) (locks : List SWALock) (word : List Token) :
    windowThrough (lock :: locks) word =
      windowThrough locks word + if word <+: lock.node ∧ lock.lo < word.length then 1 else 0 := by
  unfold windowThrough
  rw [countP_cons]
  split <;> simp_all

theorem windowThrough_pos {locks : List SWALock} {lock : SWALock} {word : List Token}
    (mem : lock ∈ locks) (below : word <+: lock.node) (lt : lock.lo < word.length) :
    0 < windowThrough locks word := by
  have : 0 < locks.countP fun lock => decide (word <+: lock.node ∧ lock.lo < word.length) :=
    countP_pos_iff.mpr ⟨lock, mem, decide_eq_true ⟨below, lt⟩⟩
  exact Int.natCast_pos.mpr this

theorem windowThrough_perm {locks other : List SWALock} (same : locks.Perm other)
    (word : List Token) : windowThrough locks word = windowThrough other word := by
  unfold windowThrough
  rw [same.countP_eq]

/-- The window a lock holds: live nodes of its word that end after `lo`. -/
def SWALock.holds (lock : SWALock) (node : RadixTreeNode) : Prop :=
  node.data.swaTombstone = false ∧ lock.lo < node.path.length

instance (lock : SWALock) (node : RadixTreeNode) : Decidable (lock.holds node) :=
  inferInstanceAs (Decidable (_ ∧ _))

/-- A lock's boundary: the root, or the live node with the lock's uuid, which starts at `lo`. -/
def SWALock.Boundary (lock : SWALock) (nodes : List RadixTreeNode) : Prop :=
  (lock.uuid = none ∧ lock.lo = 0) ∨
    (lock.uuid ≠ none ∧ ∃ node ∈ nodes, node.path <+: lock.node ∧ node.data.swaUuid = lock.uuid ∧
      node.parent.length = lock.lo ∧ node.data.swaTombstone = false)

def SWALock.Accounts (lock : SWALock) (nodes : List RadixTreeNode) : Prop :=
  ∀ node ∈ nodes, node.path <+: lock.node → ∀ i, node.parent.length ≤ i → i < node.path.length →
    lock.taken i = if lock.holds node then 1 else 0

/-- Every outstanding lock can be given back: its boundary is in place and marked by no other node,
and it accounts for what it took. -/
structure Windows (locks : List SWALock) (nodes : List RadixTreeNode) (bound : Nat) : Prop where
  unique : ∀ first ∈ nodes, ∀ second ∈ nodes, first.data.swaUuid ≠ none →
    first.data.swaUuid = second.data.swaUuid → first = second
  bounded : ∀ node ∈ nodes, ∀ uuid, node.data.swaUuid = some uuid → uuid ≤ bound
  boundary : ∀ lock ∈ locks, lock.Boundary nodes
  accounts : ∀ lock ∈ locks, lock.Accounts nodes

namespace Windows

variable {ps : Nat} {locks : List SWALock} {nodes : List RadixTreeNode} {bound : Nat}
  {node : RadixTreeNode}

theorem modify (windows : Windows locks nodes bound)
    (positive : ∀ node ∈ nodes, 0 < node.length) (word : List Token)
    (change : RadixTreeNode → NodeData)
    (sameUuid : ∀ node ∈ nodes, (change node).swaUuid = node.data.swaUuid)
    (sameTomb : ∀ node ∈ nodes, node.path = word → ∀ lock ∈ locks, node.path <+: lock.node →
      lock.lo < node.path.length → (change node).swaTombstone = node.data.swaTombstone) :
    Windows locks (PageTree.modify nodes word change) bound where
  unique := by
    intro first left second right some_ same
    obtain ⟨oldFirst, oldLeft, rfl⟩ := mem_modify.mp left
    obtain ⟨oldSecond, oldRight, rfl⟩ := mem_modify.mp right
    have uuid : ∀ node ∈ nodes, (if node.path = word then { node with data := change node }
        else node : RadixTreeNode).data.swaUuid = node.data.swaUuid := by
      intro node mem
      split
      · exact sameUuid node mem
      · rfl
    rw [uuid oldFirst oldLeft] at some_ same
    rw [uuid oldSecond oldRight] at same
    rw [windows.unique oldFirst oldLeft oldSecond oldRight some_ same]
  bounded := by
    intro node mem uuid has
    obtain ⟨old, oldMem, rfl⟩ := mem_modify.mp mem
    refine windows.bounded old oldMem uuid ?_
    split at has
    · rwa [sameUuid old oldMem] at has
    · exact has
  boundary := by
    intro lock lockMem
    refine (windows.boundary lock lockMem).imp_right fun ⟨marked, last⟩ => ⟨marked, ?_⟩
    obtain ⟨old, oldMem, onPath, has, starts, live⟩ := last
    refine ⟨_, mem_modify.mpr ⟨old, oldMem, rfl⟩, ?_⟩
    by_cases same : old.path = word
    · rw [if_pos same]
      have lt : lock.lo < old.path.length := by
        have := positive old oldMem
        rw [Seg.path_length]
        omega
      exact ⟨onPath, (sameUuid old oldMem).trans has, starts,
        (sameTomb old oldMem same lock lockMem onPath lt).trans live⟩
    · rw [if_neg same]
      exact ⟨onPath, has, starts, live⟩
  accounts := by
    intro lock lockMem new newMem onPath i low high
    obtain ⟨old, oldMem, rfl⟩ := mem_modify.mp newMem
    by_cases same : old.path = word
    · rw [if_pos same] at onPath low high ⊢
      rw [windows.accounts lock lockMem old oldMem onPath i low high]
      refine if_congr ?_ rfl rfl
      refine and_congr_left fun lt => ?_
      rw [← sameTomb old oldMem same lock lockMem onPath lt]
    · rw [if_neg same] at onPath low high ⊢
      exact windows.accounts lock lockMem old oldMem onPath i low high

theorem not_inside (wf : WF ps nodes) (windows : Windows locks nodes bound) (mem : node ∈ nodes)
    {lock : SWALock} (lockMem : lock ∈ locks) (onLock : node.path <+: lock.node) :
    lock.lo ≤ node.parent.length ∨ node.path.length ≤ lock.lo := by
  rcases windows.boundary lock lockMem with
    ⟨_, root⟩ | ⟨_, last, lastMem, lastOn, _, starts, _⟩
  · exact Or.inl (by omega)
  · by_contra both
    rw [not_or, not_le, not_le] at both
    rcases wf.closed last lastMem with root | ⟨up, upMem, upPath⟩
    · rw [root, length_nil] at starts
      omega
    · have upOn : up.path <+: lock.node := upPath ▸ last.parent_isPrefix.trans lastOn
      have := (wf.path_prefix_of_longer mem upMem lock.node onLock upOn (by
        rw [upPath]
        omega)).length_le
      rw [upPath] at this
      omega

theorem split (wf : WF ps nodes) (windows : Windows locks nodes bound) (mem : node ∈ nodes)
    {pos : Nat} (positive : 0 < pos) (lt : pos < node.length) (aligned : ps ∣ pos)
    (stored : ∀ lock ∈ locks, Stored nodes lock.node) :
    Windows locks (splitNode nodes node pos) bound := by
  have headOn : ∀ lock ∈ locks, (splitHead node pos).path <+: lock.node ↔ node.path <+: lock.node :=
    fun lock lockMem => wf.head_prefix_iff mem positive aligned (stored lock lockMem)
  have headMem := (@FullTier.mem_splitNode _ _ wf _ mem pos _).mpr (Or.inl rfl)
  have headLength := FullTier.splitHead_length lt
  have notInside : ∀ lock ∈ locks, node.path <+: lock.node →
      lock.lo ≤ node.parent.length ∨ node.path.length ≤ lock.lo :=
    fun lock lockMem => windows.not_inside wf mem lockMem
  refine ⟨?_, ?_, ?_, ?_⟩
  · intro first left second right some_ same
    rcases (FullTier.mem_splitNode wf mem).mp left with rfl | rfl | ⟨oldLeft, leftApart⟩
    · rcases (FullTier.mem_splitNode wf mem).mp right with rfl | rfl | ⟨oldRight, rightApart⟩
      · rfl
      · exact absurd same some_
      · have := windows.unique node mem second oldRight some_ same
        exact absurd (congrArg Seg.path this).symm rightApart
    · exact absurd rfl some_
    · rcases (FullTier.mem_splitNode wf mem).mp right with rfl | rfl | ⟨oldRight, rightApart⟩
      · have := windows.unique first oldLeft node mem some_ same
        exact absurd (congrArg Seg.path this) leftApart
      · exact absurd same some_
      · exact windows.unique first oldLeft second oldRight some_ same
  · intro new newMem uuid has
    rcases (FullTier.mem_splitNode wf mem).mp newMem with rfl | rfl | ⟨old, _⟩
    · exact windows.bounded node mem uuid has
    · cases has
    · exact windows.bounded new old uuid has
  · intro lock lockMem
    refine (windows.boundary lock lockMem).imp_right fun ⟨marked, last⟩ => ⟨marked, ?_⟩
    obtain ⟨last, lastMem, lastOn, has, starts, live⟩ := last
    by_cases same : last.path = node.path
    · obtain rfl := wf.eq_of_path lastMem mem same
      exact ⟨splitHead last pos, headMem, (headOn lock lockMem).mpr lastOn, has, starts, live⟩
    · exact ⟨last, (FullTier.mem_splitNode wf mem).mpr (Or.inr (Or.inr ⟨lastMem, same⟩)),
        lastOn, has, starts, live⟩
  · intro lock lockMem new newMem onPath i low high
    have headPath : (splitHead node pos).path.length = node.parent.length + pos := by
      rw [Seg.path_length, headLength]
      rfl
    have nodePath := node.path_length
    rcases (FullTier.mem_splitNode wf mem).mp newMem with rfl | rfl | ⟨old, _⟩
    · have onNode := (headOn lock lockMem).mp onPath
      have apart := notInside lock lockMem onNode
      rw [windows.accounts lock lockMem node mem onNode i low (by omega)]
      refine if_congr (and_congr_right fun _ => ?_) rfl rfl
      omega
    · rw [FullTier.splitTail_path] at onPath high
      have tailParent : (splitTail node pos).parent.length = node.parent.length + pos := by
        rw [← headPath]
        rfl
      have apart := notInside lock lockMem onPath
      rw [windows.accounts lock lockMem node mem onPath i (by omega) high]
      refine if_congr (and_congr_right fun _ => ?_) rfl rfl
      rw [FullTier.splitTail_path]
    · exact windows.accounts lock lockMem new old onPath i low high

theorem insertLeaf (windows : Windows locks nodes bound) (word key : List Token) (data : NodeData)
    (unmarked : data.swaUuid = none) (none : ∀ lock ∈ locks, ¬word ++ key <+: lock.node) :
    Windows locks (PageTree.insertLeaf nodes word key data) bound where
  unique := by
    intro first left second right some_ same
    have old : ∀ node ∈ PageTree.insertLeaf nodes word key data, node.data.swaUuid ≠ Option.none →
        node ∈ nodes := by
      intro node mem marked
      rcases mem_append.mp mem with old | new
      · exact old
      · rw [mem_singleton.mp new] at marked
        exact absurd unmarked marked
    exact windows.unique first (old first left some_) second (old second right (same ▸ some_))
      some_ same
  bounded := by
    intro node mem uuid has
    rcases mem_append.mp mem with old | new
    · exact windows.bounded node old uuid has
    · rw [mem_singleton.mp new] at has
      exact absurd (unmarked.symm.trans has) (by simp)
  boundary := fun lock lockMem => (windows.boundary lock lockMem).imp_right
    fun ⟨marked, last, lastMem, rest⟩ => ⟨marked, last, mem_append_left _ lastMem, rest⟩
  accounts := by
    intro lock lockMem node mem onPath
    rcases mem_append.mp mem with old | new
    · exact windows.accounts lock lockMem node old onPath
    · rw [mem_singleton.mp new] at onPath
      exact absurd onPath (none lock lockMem)

theorem remove (windows : Windows locks nodes bound) (word : List Token)
    (none : ∀ lock ∈ locks, ¬word <+: lock.node) :
    Windows locks (PageTree.remove nodes word) bound where
  unique := fun first left second right => windows.unique first (mem_remove.mp left).1 second
    (mem_remove.mp right).1
  bounded := fun node mem => windows.bounded node (mem_remove.mp mem).1
  boundary := fun lock lockMem => (windows.boundary lock lockMem).imp_right
    fun ⟨marked, last, lastMem, onPath, rest⟩ => ⟨marked, last,
      mem_remove.mpr ⟨lastMem, fun same => none lock lockMem (same ▸ onPath)⟩, onPath, rest⟩
  accounts := fun lock lockMem node mem => windows.accounts lock lockMem node (mem_remove.mp mem).1

end Windows

/-! ### The invariant of the two-tier cache -/

namespace SWARadixCache

/-- **The invariant of the sliding-window tree** for its outstanding locks. -/
structure Inv (locks : List SWALock) (cache : SWARadixCache) : Prop where
  pagePositive : 0 < cache.pageSize
  windowPositive : 0 < cache.slidingWindowSize
  full : cache.tier.Inv cache.pageSize (locks.map SWALock.node)
  counts : WindowCounts (windowThrough locks) cache.tier.nodes cache.swaEvictable
    cache.swaProtected
  windows : Windows locks cache.tier.nodes cache.uuid

variable {locks : List SWALock} {cache : SWARadixCache} {node : RadixTreeNode}

theorem inv_new (ps window : Nat) (positive : 0 < ps) (windowPos : 0 < window) :
    Inv [] (new ps window) where
  pagePositive := positive
  windowPositive := windowPos
  full := FullTier.Inv.empty ps
  counts := ⟨by simp [new, FullTier.empty], rfl, rfl⟩
  windows := ⟨by simp [new, FullTier.empty], by simp [new, FullTier.empty], by simp, by simp⟩

theorem Inv.wf (inv : Inv locks cache) : WF cache.pageSize cache.tier.nodes := inv.full.wf

theorem Inv.stored (inv : Inv locks cache) {lock : SWALock} (mem : lock ∈ locks) :
    Stored cache.tier.nodes lock.node :=
  inv.full.stored lock.node (mem_map_of_mem mem)

theorem Inv.tick (inv : Inv locks cache) : Inv locks cache.tick :=
  ⟨inv.pagePositive, inv.windowPositive, inv.full, inv.counts, inv.windows⟩

theorem Inv.swaRef_nonneg (inv : Inv locks cache) (mem : node ∈ cache.tier.nodes) :
    0 ≤ node.data.swaRefCount := by
  rw [inv.counts.swaRef node mem]
  split
  · exact le_rfl
  · exact windowThrough_nonneg _ _

theorem Inv.swaRef_le_refCount (inv : Inv locks cache) (mem : node ∈ cache.tier.nodes) :
    node.data.swaRefCount ≤ node.data.refCount := by
  rw [inv.counts.swaRef node mem, inv.full.counts.refCount node mem]
  split
  · exact through_nonneg _ _
  · exact windowThrough_le _ _

theorem Inv.not_locked (inv : Inv locks cache) (mem : node ∈ cache.tier.nodes)
    (unlocked : node.data.refCount = 0) : ∀ lock ∈ locks, ¬node.path <+: lock.node := by
  intro lock lockMem onPath
  have count := inv.full.counts.refCount node mem
  have := through_pos (mem_map_of_mem (f := SWALock.node) lockMem) onPath
  omega

theorem Inv.not_covered (inv : Inv locks cache) (mem : node ∈ cache.tier.nodes)
    (live : node.data.swaTombstone = false) (unlocked : node.data.swaRefCount = 0) :
    ∀ lock ∈ locks, node.path <+: lock.node → ¬lock.lo < node.path.length := by
  intro lock lockMem onPath lt
  have count := inv.counts.swaRef node mem
  have := windowThrough_pos lockMem onPath lt
  rw [live, if_neg (by simp)] at count
  omega

theorem Inv.modify_same (inv : Inv locks cache) (word : List Token)
    (change : RadixTreeNode → NodeData)
    (sameRef : ∀ node : RadixTreeNode, (change node).refCount = node.data.refCount)
    (sameSwa : ∀ node : RadixTreeNode, (change node).swaRefCount = node.data.swaRefCount)
    (sameTomb : ∀ node : RadixTreeNode, (change node).swaTombstone = node.data.swaTombstone)
    (sameUuid : ∀ node : RadixTreeNode, (change node).swaUuid = node.data.swaUuid) :
    Inv locks (cache.withNodes (modify cache.tier.nodes word change)) where
  pagePositive := inv.pagePositive
  windowPositive := inv.windowPositive
  full := inv.full.modify_same word change sameRef
  counts := inv.counts.modify_same word change sameSwa sameTomb
  windows := inv.windows.modify inv.wf.positive word change (fun node _ => sameUuid node)
    fun node _ _ _ _ _ _ => sameTomb node

theorem Inv.stampNode (inv : Inv locks cache) (word : List Token) (time : Int) :
    Inv locks (cache.withNodes (stampNode cache.tier.nodes word time)) :=
  inv.modify_same word _ (fun _ => rfl) (fun _ => rfl) (fun _ => rfl) fun _ => rfl

theorem Inv.split (inv : Inv locks cache) (mem : node ∈ cache.tier.nodes) {pos : Nat}
    (positive : 0 < pos) (lt : pos < node.length) (aligned : cache.pageSize ∣ pos) :
    Inv locks (cache.withNodes (splitNode cache.tier.nodes node pos)) where
  pagePositive := inv.pagePositive
  windowPositive := inv.windowPositive
  full := inv.full.split mem positive lt aligned
  counts := by
    refine inv.counts.split inv.wf mem lt ?_
    have headLength : (splitHead node pos).path.length = node.parent.length + pos := by
      rw [Seg.path_length, FullTier.splitHead_length lt]
      rfl
    have nodeLength := node.path_length
    refine congrArg Nat.cast (countP_congr fun lock lockMem => ?_)
    simp only [decide_eq_true_eq]
    have onHead := inv.wf.head_prefix_iff mem positive aligned (inv.stored lockMem)
    rw [FullTier.splitHead_path] at headLength ⊢
    rw [onHead]
    refine and_congr_right fun onNode => ?_
    have := inv.windows.not_inside inv.wf mem lockMem onNode
    omega
  windows := inv.windows.split inv.wf mem positive lt aligned fun _ lockMem => inv.stored lockMem

theorem Inv.addChild (inv : Inv locks cache) {word ids : List Token}
    (positive : 0 < ids.length) (aligned : cache.pageSize ∣ ids.length)
    (stored : Stored cache.tier.nodes word)
    (fresh : child? cache.pageSize cache.tier.nodes word ids = none) (kv : List Nat)
    (tombstone : Bool) : Inv locks (cache.addChild word ids kv tombstone) := by
  have none : ∀ lock ∈ locks, ¬word ++ ids <+: lock.node := fun lock lockMem =>
    inv.full.not_locked_of_fresh positive aligned stored fresh lock.node
      (mem_map_of_mem lockMem)
  have uncovered : windowThrough locks (word ++ ids) = 0 := by
    have upper := windowThrough_le locks (word ++ ids)
    have lower := windowThrough_nonneg locks (word ++ ids)
    have : through (locks.map SWALock.node) (word ++ ids) = 0 :=
      through_eq_zero (inv.full.not_locked_of_fresh positive aligned stored fresh)
    omega
  let data : NodeData := { NodeData.fresh kv cache.tick.time with swaTombstone := tombstone }
  exact {
    pagePositive := inv.pagePositive
    windowPositive := inv.windowPositive
    full := inv.full.insertLeaf positive aligned stored fresh data rfl
    counts := inv.counts.insertLeaf word ids data rfl uncovered
    windows := inv.windows.insertLeaf word ids data rfl none }

theorem Inv.unlink (inv : Inv locks cache) (mem : node ∈ cache.tier.nodes)
    (leaf : isLeaf cache.tier.nodes node.path = true) (unlocked : node.data.refCount = 0) :
    Inv locks ((if node.data.swaTombstone then cache.spendFull node.length
      else (cache.spendFull node.length).spendSwa node.length).unlink node) := by
  have swaUnlocked : node.data.swaRefCount = 0 := by
    have := inv.swaRef_nonneg mem
    have := inv.swaRef_le_refCount mem
    omega
  have full := inv.full.remove mem leaf unlocked
  have counts := inv.counts.remove inv.wf mem swaUnlocked
  have windows := inv.windows.remove node.path (inv.not_locked mem unlocked)
  by_cases dead : node.data.swaTombstone = true
  · rw [if_pos dead] at counts ⊢
    exact ⟨inv.pagePositive, inv.windowPositive, full, counts, windows⟩
  · rw [if_neg dead] at counts ⊢
    exact ⟨inv.pagePositive, inv.windowPositive, full, counts, windows⟩

theorem Inv.tombstone (inv : Inv locks cache) (mem : node ∈ cache.tier.nodes)
    (live : node.data.swaTombstone = false) (unlocked : node.data.swaRefCount = 0) :
    Inv locks ((cache.spendSwa node.length).withNodes
      (modify cache.tier.nodes node.path fun old => { old.data with swaTombstone := true })) where
  pagePositive := inv.pagePositive
  windowPositive := inv.windowPositive
  full := inv.full.modify_same node.path _ fun _ => rfl
  counts := by
    have moved := inv.counts.modify_node inv.wf mem
      (fun old => { old.data with swaTombstone := true }) (windowThrough locks) unlocked
      fun _ _ => rfl
    have pre : liveIdle node = node.length := by simp [liveIdle, live, unlocked]
    have beforeLocked : liveLocked node = 0 := by simp [liveLocked, unlocked]
    rw [pre, beforeLocked] at moved
    simp only [liveIdle, liveLocked, if_true, add_zero, sub_zero] at moved
    exact moved
  windows := by
    refine inv.windows.modify inv.wf.positive node.path _ (fun _ _ => rfl) ?_
    intro other otherMem same lock lockMem onPath lt
    obtain rfl := inv.wf.eq_of_path otherMem mem same
    exact absurd lt (inv.not_covered mem live unlocked lock lockMem onPath)

theorem Inv.revive (inv : Inv locks cache) (mem : node ∈ cache.tier.nodes)
    (dead : node.data.swaTombstone = true) (unlocked : node.data.refCount = 0) (value : List Nat) :
    Inv locks (cache.revive node value) where
  pagePositive := inv.pagePositive
  windowPositive := inv.windowPositive
  full := inv.full.modify_same node.path _ fun _ => rfl
  counts := by
    have swaUnlocked : node.data.swaRefCount = 0 := by rw [inv.counts.swaRef node mem, if_pos dead]
    have uncovered : windowThrough locks node.path = 0 := by
      have upper := windowThrough_le locks node.path
      have lower := windowThrough_nonneg locks node.path
      have := inv.full.counts.refCount node mem
      omega
    have moved := inv.counts.modify_node inv.wf mem
      (fun old => { old.data with
        value := value, swaTombstone := false, timestamp := cache.tick.time })
      (windowThrough locks) (by simp [swaUnlocked, uncovered]) fun _ _ => rfl
    simp only [liveIdle, liveLocked, dead, swaUnlocked, if_true, Bool.false_eq_true, if_false,
      add_zero, sub_zero, Seg.length_with_data] at moved
    exact moved
  windows := by
    refine inv.windows.modify inv.wf.positive node.path _ (fun _ _ => rfl) ?_
    intro other otherMem same lock lockMem onPath _
    obtain rfl := inv.wf.eq_of_path otherMem mem same
    exact absurd onPath (inv.not_locked mem unlocked lock lockMem)

end SWARadixCache

end FreeToken
