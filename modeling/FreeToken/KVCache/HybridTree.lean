/-
**The two currencies of the hybrid radix cache.**

Every node's snapshot lock counts the locks taken on the node itself, every node's path lock those
that pass through it; both are read off one bag of outstanding locks.

* `walk_core`, `insert_core`, `incLock_core`, `decLock_core`: the operations other than eviction.
-/

import FreeToken.KVCache.HybridRadixCache
import FreeToken.KVCache.Walk

namespace FreeToken

open PageTree List

def spareState (node : RadixTreeNode) : Int :=
  if node.data.mambaValue.isSome ∧ node.data.mambaRefCount = 0 then 1 else 0

def keptState (node : RadixTreeNode) : Int :=
  if node.data.mambaValue.isSome ∧ node.data.mambaRefCount ≠ 0 then 1 else 0

theorem spareState_of_none {node : RadixTreeNode} (none : node.data.mambaValue = none) :
    spareState node = 0 := by
  unfold spareState
  rw [none]
  rfl

theorem keptState_of_none {node : RadixTreeNode} (none : node.data.mambaValue = none) :
    keptState node = 0 := by
  unfold keptState
  rw [none]
  rfl

/-- **The invariant of the hybrid cache**, for the locks on paths and the locks on snapshots. -/
structure HybridCore (ps : Nat) (locks holds : List (List Token)) (cache : HybridRadixCache) :
    Prop where
  tier : FullTier.Inv ps locks cache.tier
  mambaRef : ∀ node ∈ cache.tier.nodes, node.data.mambaRefCount = holds.count node.path
  held : ∀ node ∈ cache.tier.nodes, node.path ∈ holds → node.data.mambaValue.isSome = true
  evictable : cache.mambaEvictable = total spareState cache.tier.nodes
  protect : cache.mambaProtected = total keptState cache.tier.nodes

/-- Every leaf has a snapshot, except one that may end at `word`. -/
def Carried (word : List Token) (nodes : List RadixTreeNode) : Prop :=
  ∀ node ∈ nodes, isLeaf nodes node.path = true → node.path ≠ word →
    node.data.mambaValue.isSome = true

variable {ps : Nat} {locks holds : List (List Token)} {cache : HybridRadixCache}

namespace HybridCore

theorem new (ps : Nat) (clock : Clock) : HybridCore ps [] [] (HybridRadixCache.new ps clock) where
  tier := FullTier.Inv.empty ps
  mambaRef := by
    intro node mem
    cases mem
  held := by
    intro node mem
    cases mem
  evictable := rfl
  protect := rfl

theorem mem_holds_iff (core : HybridCore ps locks holds cache) {node : RadixTreeNode}
    (mem : node ∈ cache.tier.nodes) : node.path ∈ holds ↔ node.data.mambaRefCount ≠ 0 := by
  rw [core.mambaRef node mem, ← count_pos_iff]
  omega

/-- A change of a node's snapshot or snapshot lock. -/
theorem change (core : HybridCore ps locks holds cache) {cur : RadixTreeNode}
    (mem : cur ∈ cache.tier.nodes) {change : NodeData → NodeData}
    {other : List (List Token)} {evictable protect : Int}
    (ref : ∀ data, (change data).refCount = data.refCount)
    (mambaRef : (change cur.data).mambaRefCount = other.count cur.path)
    (others : ∀ word, word ≠ cur.path → other.count word = holds.count word)
    (held : cur.path ∈ other → (change cur.data).mambaValue.isSome = true)
    (spareMoved : evictable =
      cache.mambaEvictable - spareState cur + spareState { cur with data := change cur.data })
    (keptMoved : protect =
      cache.mambaProtected - keptState cur + keptState { cur with data := change cur.data }) :
    HybridCore ps locks other { cache with
      tier := { cache.tier with
        nodes := modify cache.tier.nodes cur.path fun node => change node.data }
      mambaEvictable := evictable
      mambaProtected := protect } where
  tier := core.tier.modify_same cur.path _ fun node => ref node.data
  mambaRef := by
    intro node nodeMem
    obtain ⟨old, oldMem, rfl⟩ := mem_modify.mp nodeMem
    by_cases same : old.path = cur.path
    · rw [if_pos same, core.tier.wf.eq_of_path oldMem mem same]
      exact mambaRef
    · rw [if_neg same, others old.path same]
      exact core.mambaRef old oldMem
  held := by
    intro node nodeMem
    obtain ⟨old, oldMem, rfl⟩ := mem_modify.mp nodeMem
    by_cases same : old.path = cur.path
    · rw [if_pos same, core.tier.wf.eq_of_path oldMem mem same]
      exact held
    · rw [if_neg same]
      intro lt
      refine core.held old oldMem (count_pos_iff.mp ?_)
      rw [← others old.path same]
      exact count_pos_iff.mpr lt
  evictable := by
    rw [core.tier.wf.total_modify spareState mem, ← core.evictable]
    exact spareMoved
  protect := by
    rw [core.tier.wf.total_modify keptState mem, ← core.protect]
    exact keptMoved

theorem congr (core : HybridCore ps locks holds cache) {tier : FullTier}
    {otherLocks : List (List Token)} (inv : FullTier.Inv ps otherLocks tier)
    (same : tier.nodes.map FullTier.unref = cache.tier.nodes.map FullTier.unref) :
    HybridCore ps otherLocks holds { cache with tier := tier } := by
  have stripped : ∀ (weight : RadixTreeNode → Int), (∀ node, weight (FullTier.unref node) =
      weight node) → total weight tier.nodes = total weight cache.tier.nodes := by
    intro weight blind
    have reduce : ∀ nodes : List RadixTreeNode,
        total weight nodes = total weight (nodes.map FullTier.unref) := by
      intro nodes
      unfold total
      rw [map_map]
      exact congrArg sum (map_congr_left fun node _ => (blind node).symm)
    rw [reduce, same, ← reduce]
  refine ⟨inv, ?_, ?_, ?_, ?_⟩
  · intro node mem
    obtain ⟨old, oldMem, frame⟩ := FullTier.exists_of_frame same mem
    have kept := core.mambaRef old oldMem
    rw [FullTier.path_of_unref frame] at kept
    rw [← kept]
    exact (congrArg (fun node : RadixTreeNode => node.data.mambaRefCount) frame).symm
  · intro node mem lt
    obtain ⟨old, oldMem, frame⟩ := FullTier.exists_of_frame same mem
    have kept := core.held old oldMem (by rwa [FullTier.path_of_unref frame])
    rw [← kept]
    exact (congrArg (fun node : RadixTreeNode => node.data.mambaValue.isSome) frame).symm
  · exact core.evictable.trans (stripped spareState fun _ => rfl).symm
  · exact core.protect.trans (stripped keptState fun _ => rfl).symm

end HybridCore

variable (nodes : List RadixTreeNode)

def snapshots : List Nat := gather (fun node => node.data.mambaValue.toList) nodes

def heldPages : List Nat := gather (fun node => node.data.value) nodes

/-! ### Walks -/

section Walk

variable {nodes : List RadixTreeNode} {word : List Token}

theorem isLeaf_modify (at_ : List Token) (change : RadixTreeNode → NodeData) :
    isLeaf (modify nodes at_ change) word = isLeaf nodes word := by
  unfold isLeaf PageTree.modify
  rw [all_map]
  refine all_congr rfl fun node => ?_
  simp only [Function.comp_apply]
  split <;> rfl

theorem Carried.modify (carried : Carried word nodes) (at_ : List Token)
    {change : RadixTreeNode → NodeData}
    (same : ∀ node, node.data.mambaValue.isSome = true → (change node).mambaValue.isSome = true) :
    Carried word (PageTree.modify nodes at_ change) := by
  intro node mem leaf differs
  obtain ⟨old, oldMem, rfl⟩ := mem_modify.mp mem
  rw [isLeaf_modify] at leaf
  split at leaf
  · rename_i here
    rw [if_pos here] at differs ⊢
    exact same old (carried old oldMem leaf differs)
  · rename_i there
    rw [if_neg there] at differs ⊢
    exact carried old oldMem leaf differs

theorem Carried.split (wf : WF ps nodes) (carried : Carried word nodes) {node : RadixTreeNode}
    (mem : node ∈ nodes) (pos : Nat) : Carried word (splitNode nodes node pos) := by
  have tailMem := (@FullTier.mem_splitNode _ _ wf _ mem pos _).mpr (Or.inr (Or.inl rfl))
  have headMem := (@FullTier.mem_splitNode _ _ wf _ mem pos _).mpr (Or.inl rfl)
  -- What hung from a word still does, the cut node through its prefix or its suffix.
  have leafBefore : ∀ end_, isLeaf (splitNode nodes node pos) end_ = true →
      isLeaf nodes end_ = true := by
    intro end_ leaf
    refine isLeaf_iff.mpr fun child childMem hangs => ?_
    by_cases cut : child.path = node.path
    · rw [wf.eq_of_path childMem mem cut] at hangs
      exact isLeaf_iff.mp leaf _ headMem hangs
    · exact isLeaf_iff.mp leaf child
        ((FullTier.mem_splitNode wf mem).mpr (Or.inr (Or.inr ⟨childMem, cut⟩))) hangs
  intro new newMem leaf differs
  rcases (FullTier.mem_splitNode wf mem).mp newMem with rfl | rfl | ⟨old, _⟩
  · exact absurd rfl (isLeaf_iff.mp leaf _ tailMem)
  · rw [FullTier.splitTail_path] at leaf differs
    exact carried node mem (leafBefore _ leaf) differs
  · exact carried new old (leafBefore _ leaf) differs

theorem HybridCore.modify_same (core : HybridCore ps locks holds cache) (at_ : List Token)
    {change : NodeData → NodeData} (ref : ∀ data, (change data).refCount = data.refCount)
    (value : ∀ data, (change data).mambaValue = data.mambaValue)
    (mambaRef : ∀ data, (change data).mambaRefCount = data.mambaRefCount) :
    HybridCore ps locks holds
      (cache.withNodes (modify cache.tier.nodes at_ fun node => change node.data)) where
  tier := core.tier.modify_same at_ _ fun node => ref node.data
  mambaRef := by
    intro node mem
    obtain ⟨old, oldMem, rfl⟩ := mem_modify.mp mem
    split
    · exact (mambaRef old.data).trans (core.mambaRef old oldMem)
    · exact core.mambaRef old oldMem
  held := by
    intro node mem
    obtain ⟨old, oldMem, rfl⟩ := mem_modify.mp mem
    split
    · intro lt
      rw [value]
      exact core.held old oldMem lt
    · exact core.held old oldMem
  evictable := by
    refine core.evictable.trans (total_modify_same spareState _ at_ _ fun node _ => ?_).symm
    unfold spareState
    rw [value, mambaRef]
  protect := by
    refine core.protect.trans (total_modify_same keptState _ at_ _ fun node _ => ?_).symm
    unfold keptState
    rw [value, mambaRef]

theorem not_locked_head (inv : FullTier.Inv ps locks cache.tier) {node : RadixTreeNode}
    (mem : node ∈ cache.tier.nodes) {pos : Nat} (positive : 0 < pos) (lt : pos < node.length)
    (aligned : ps ∣ pos) {lock : List Token}
    (stored : lock = [] ∨ ∃ last ∈ cache.tier.nodes, last.path = lock) :
    lock ≠ (splitHead node pos).path := by
  rintro rfl
  have whole := (inv.wf.head_prefix_iff mem positive aligned stored).mp
    (by rw [FullTier.splitHead_path])
  have size := whole.length_le
  have headSize := (splitHead node pos).path_length
  rw [FullTier.splitHead_length lt] at headSize
  rw [Seg.path_length] at size
  have parents : (splitHead node pos).parent = node.parent := rfl
  rw [parents] at headSize
  omega

/-- **A cut at a page boundary leaves the snapshot with the suffix.** -/
theorem HybridCore.split (core : HybridCore ps locks holds cache)
    (stored : ∀ hold ∈ holds, Stored cache.tier.nodes hold) {node : RadixTreeNode}
    (mem : node ∈ cache.tier.nodes) {pos : Nat} (positive : 0 < pos) (lt : pos < node.length)
    (aligned : ps ∣ pos) :
    HybridCore ps locks holds (cache.withNodes (splitNode cache.tier.nodes node pos)) where
  tier := core.tier.split mem positive lt aligned
  mambaRef := by
    intro new newMem
    rcases (FullTier.mem_splitNode core.tier.wf mem).mp newMem with rfl | rfl | ⟨old, _⟩
    · refine (Nat.cast_eq_zero.mpr (count_eq_zero_of_not_mem fun hold => ?_)).symm
      exact not_locked_head core.tier mem positive lt aligned (stored _ hold) rfl
    · rw [FullTier.splitTail_path]
      exact core.mambaRef node mem
    · exact core.mambaRef new old
  held := by
    intro new newMem hold
    rcases (FullTier.mem_splitNode core.tier.wf mem).mp newMem with rfl | rfl | ⟨old, _⟩
    · exact absurd rfl
        (not_locked_head core.tier mem positive lt aligned (stored _ hold))
    · rw [FullTier.splitTail_path] at hold
      exact core.held node mem hold
    · exact core.held new old hold
  evictable := by
    have moved := core.tier.wf.total_splitAt spareState mem pos (NodeData.splitHead pos)
      (NodeData.splitTail pos)
    have headNone : spareState ⟨node.parent, node.key.take pos, node.data.splitHead pos⟩ = 0 :=
      spareState_of_none rfl
    have tailSame : spareState ⟨node.parent ++ node.key.take pos, node.key.drop pos,
        node.data.splitTail pos⟩ = spareState node := rfl
    rw [headNone, tailSame] at moved
    exact core.evictable.trans (moved.trans (by ring)).symm
  protect := by
    have moved := core.tier.wf.total_splitAt keptState mem pos (NodeData.splitHead pos)
      (NodeData.splitTail pos)
    have headNone : keptState ⟨node.parent, node.key.take pos, node.data.splitHead pos⟩ = 0 :=
      keptState_of_none rfl
    have tailSame : keptState ⟨node.parent ++ node.key.take pos, node.key.drop pos,
        node.data.splitTail pos⟩ = keptState node := rfl
    rw [headNone, tailSame] at moved
    exact core.protect.trans (moved.trans (by ring)).symm

/-- What a walk keeps: the locks of both tiers, the snapshots of the leaves, the stored words, and
all that the nodes hold. -/
structure HybridWalk (ps : Nat) (locks : List (List Token)) (cache : HybridRadixCache)
    (nodes : List RadixTreeNode) : Prop where
  core : HybridCore ps locks locks (cache.withNodes nodes)
  carried : Carried [] nodes
  stored : ∀ word, Stored cache.tier.nodes word → Stored nodes word
  slots : (snapshots nodes).Perm (snapshots cache.tier.nodes)
  pages : (heldPages nodes).Perm (heldPages cache.tier.nodes)

theorem keptByWalk_hybrid (ps : Nat) (locks : List (List Token)) (cache : HybridRadixCache) :
    KeptByWalk ps (HybridWalk ps locks cache) where
  stamp := by
    intro nodes word time walked
    refine ⟨?_, ?_, fun other pre => (walked.stored other pre).modify _ _, ?_, ?_⟩
    · exact @HybridCore.modify_same _ _ _ _ walked.core word
        (fun data => { data with timestamp := time }) (fun _ => rfl) (fun _ => rfl) fun _ => rfl
    · exact walked.carried.modify word fun _ has => has
    · have same := @gather_modify_same _ _ _ _
        (fun node : RadixTreeNode => node.data.mambaValue.toList) nodes word
        (fun node => { node.data with timestamp := time }) fun _ => rfl
      exact (Perm.of_eq same).trans walked.slots
    · have same := @gather_modify_same _ _ _ _ (fun node : RadixTreeNode => node.data.value)
        nodes word (fun node => { node.data with timestamp := time }) fun _ => rfl
      exact (Perm.of_eq same).trans walked.pages
  split := by
    intro nodes node pos wf walked mem positive lt aligned
    have stored : ∀ hold ∈ locks, Stored nodes hold := walked.core.tier.stored
    refine ⟨walked.core.split stored mem positive lt aligned, walked.carried.split wf mem pos,
      fun other pre => (walked.stored other pre).split wf mem pos, ?_, ?_⟩
    · exact (wf.gather_split_same _ mem pos rfl).trans walked.slots
    · exact (wf.gather_split_same _ mem pos (take_append_drop _ _)).trans walked.pages

end Walk

/-- **The invariant of the hybrid cache**: both tiers count one bag of locks, and every leaf has a
snapshot. -/
structure HybridInv (ps : Nat) (locks : List (List Token)) (cache : HybridRadixCache) : Prop where
  pageSize : cache.pageSize = ps
  core : HybridCore ps locks locks cache
  carried : Carried [] cache.tier.nodes

namespace HybridInv

theorem new (ps : Nat) (clock : Clock) : HybridInv ps [] (HybridRadixCache.new ps clock) where
  pageSize := rfl
  core := HybridCore.new ps clock
  carried := by
    intro node mem
    cases mem

theorem wf (inv : HybridInv ps locks cache) : WF ps cache.tier.nodes := inv.core.tier.wf

end HybridInv

theorem HybridCore.retime (core : HybridCore ps locks holds cache) (clock : Clock) :
    HybridCore ps locks holds { cache with clock := clock } :=
  ⟨core.tier, core.mambaRef, core.held, core.evictable, core.protect⟩

theorem HybridInv.walk (inv : HybridInv ps locks cache) (inputIds : List Token) :
    HybridInv ps locks (cache.walk inputIds).1 ∧
      HybridWalk ps locks cache (cache.walk inputIds).1.tier.nodes ∧
      Stored (cache.walk inputIds).1.tier.nodes (cache.walk inputIds).2 ∧
      (cache.walk inputIds).2 <+: inputIds ∧
      ((cache.walk inputIds).2 = inputIds ∨
        child? ps (cache.walk inputIds).1.tier.nodes (cache.walk inputIds).2
          (inputIds.drop (cache.walk inputIds).2.length) = none) := by
  obtain ⟨rfl, core, carried⟩ := inv
  obtain ⟨-, walked, stored, onIds, stop⟩ := treeWalk_spec
    (keptByWalk_hybrid cache.pageSize locks cache) cache.clock.now core.tier.wf
    ⟨core, carried, fun _ pre => pre, Perm.refl _, Perm.refl _⟩ inputIds
  exact ⟨⟨rfl, walked.core.retime _, walked.carried⟩, walked, stored, onIds, stop⟩

/-! ### Matches -/

def HybridMatch.Valid (found : HybridMatch) : Prop :=
  found.cachedLen = found.node.length ∧ (found.node = [] ∨
    ∃ cur ∈ nodes, cur.path = found.node ∧ cur.data.mambaValue = found.mambaValue ∧
      cur.data.mambaValue.isSome = true)

theorem HybridInv.matchPrefix (inv : HybridInv ps locks cache) (inputIds : List Token) :
    HybridInv ps locks (cache.matchPrefix inputIds).1 ∧
      HybridWalk ps locks cache (cache.matchPrefix inputIds).1.tier.nodes ∧
      (cache.matchPrefix inputIds).2.Valid (cache.matchPrefix inputIds).1.tier.nodes := by
  obtain ⟨invWalk, walked, -, -, -⟩ := inv.walk inputIds
  unfold HybridRadixCache.matchPrefix
  dsimp only
  split
  · rename_i cur found
    have mem := FullTier.pathNodes_mem (mem_of_find?_eq_some found)
    have has := find?_some found
    exact ⟨invWalk, walked, rfl, .inr ⟨cur, mem, rfl, rfl, has⟩⟩
  · exact ⟨invWalk, walked, rfl, .inl rfl⟩

/-! ### Insertions -/

/-- What a donation leaves: the slot is in the tree or was refused, and the node has a snapshot. -/
structure Donated (ps : Nat) (locks : List (List Token)) (nodes : List RadixTreeNode)
    (word : List Token) (mambaValue : Nat) (res : HybridRadixCache × Bool) : Prop where
  inv : HybridInv ps locks res.1
  stored : ∀ other, Stored nodes other → Stored res.1.tier.nodes other
  slots : (snapshots res.1.tier.nodes).Perm
    (if res.2 then snapshots nodes else mambaValue :: snapshots nodes)
  pages : (heldPages res.1.tier.nodes).Perm (heldPages nodes)
  has : word = [] ∨ ∃ cur ∈ res.1.tier.nodes, cur.path = word ∧ cur.data.mambaValue.isSome = true

theorem HybridCore.donate (pageSize : cache.pageSize = ps)
    (core : HybridCore ps locks locks cache) {word : List Token}
    (carried : Carried word cache.tier.nodes) (stored : Stored cache.tier.nodes word)
    (mambaValue : Nat) :
    Donated ps locks cache.tier.nodes word mambaValue (cache.donate word mambaValue) := by
  have wf := core.tier.wf
  rcases stored with rfl | ⟨cur, mem, rfl⟩
  · have missing : node? cache.tier.nodes ([] : List Token) = none := by
      refine find?_eq_none.mpr fun node mem => ?_
      simpa using wf.path_ne_nil mem
    unfold HybridRadixCache.donate
    rw [missing]
    exact ⟨⟨pageSize, core, carried⟩, fun _ pre => pre, Perm.refl _, Perm.refl _, .inl rfl⟩
  · unfold HybridRadixCache.donate
    rw [wf.node?_eq mem]
    dsimp only
    by_cases has : cur.data.mambaValue.isSome = true
    · rw [if_pos has]
      refine ⟨⟨pageSize, core, ?_⟩, fun _ pre => pre, Perm.refl _, Perm.refl _,
        .inr ⟨cur, mem, rfl, has⟩⟩
      intro node nodeMem leaf _
      by_cases same : node.path = cur.path
      · rw [wf.eq_of_path nodeMem mem same]
        exact has
      · exact carried node nodeMem leaf same
    · rw [if_neg has]
      have none : cur.data.mambaValue = none := by simpa using has
      have notHeld : cur.path ∉ locks := fun hold => has (core.held cur mem hold)
      have free : cur.data.mambaRefCount = 0 := by
        rw [core.mambaRef cur mem, count_eq_zero_of_not_mem notHeld]
        rfl
      rw [if_pos free]
      have filled := @HybridCore.change _ _ _ _ core cur mem
        (fun data => { data with mambaValue := some mambaValue }) locks
        (cache.mambaEvictable + 1) cache.mambaProtected (fun _ => rfl) (core.mambaRef cur mem)
        (fun _ _ => rfl) (fun _ => rfl)
        (by
          rw [spareState_of_none none]
          unfold spareState
          rw [if_pos ⟨rfl, free⟩]
          ring)
        (by
          rw [keptState_of_none none]
          unfold keptState
          rw [if_neg fun both => both.2 free]
          ring)
      have focus := wf.gather_focus (fun node : RadixTreeNode => node.data.mambaValue.toList) mem
      rw [none] at focus
      refine ⟨⟨pageSize, filled, ?_⟩, fun _ pre => pre.modify _ _, ?_, ?_, ?_⟩
      · intro node nodeMem leaf _
        obtain ⟨old, oldMem, rfl⟩ := mem_modify.mp nodeMem
        by_cases same : old.path = cur.path
        · rw [if_pos same]
          rfl
        · rw [if_neg same] at leaf ⊢
          exact carried old oldMem ((isLeaf_modify _ _).symm.trans leaf) same
      · have moved := wf.gather_modify (fun node : RadixTreeNode => node.data.mambaValue.toList)
          mem fun node => { node.data with mambaValue := some mambaValue }
        exact moved.trans (focus.symm.cons mambaValue)
      · exact Perm.of_eq (gather_modify_same _ _ _ fun _ => rfl)
      · exact .inr ⟨_, mem_modify.mpr ⟨cur, mem, rfl⟩, by rw [if_pos rfl]; exact ⟨rfl, rfl⟩⟩

theorem HybridCore.insertLeaf (core : HybridCore ps locks locks cache)
    (carried : Carried [] cache.tier.nodes) {word key : List Token} (positive : 0 < key.length)
    (aligned : ps ∣ key.length) (stored : Stored cache.tier.nodes word)
    (fresh : child? ps cache.tier.nodes word key = none) (value : List Nat) (time : Int) :
    HybridCore ps locks locks { cache with
      tier := { cache.tier with
        nodes := PageTree.insertLeaf cache.tier.nodes word key (NodeData.fresh value time)
        evictableSize := cache.tier.evictableSize + key.length } } ∧
      Carried (word ++ key)
        (PageTree.insertLeaf cache.tier.nodes word key (NodeData.fresh value time)) := by
  have tier := core.tier.insertLeaf positive aligned stored fresh (NodeData.fresh value time) rfl
  have notHeld : word ++ key ∉ locks := fun hold =>
    core.tier.not_locked_of_fresh positive aligned stored fresh _ hold (prefix_refl _)
  constructor
  · refine ⟨tier, ?_, ?_, ?_, ?_⟩
    · intro node mem
      rcases mem_append.mp mem with old | new
      · exact core.mambaRef node old
      · rw [mem_singleton.mp new]
        exact (Nat.cast_eq_zero.mpr (count_eq_zero_of_not_mem notHeld)).symm
    · intro node mem hold
      rcases mem_append.mp mem with old | new
      · exact core.held node old hold
      · rw [mem_singleton.mp new] at hold
        exact absurd hold notHeld
    · rw [total_insertLeaf, spareState_of_none rfl, add_zero]
      exact core.evictable
    · rw [total_insertLeaf, keptState_of_none rfl, add_zero]
      exact core.protect
  · intro node mem leaf differs
    rcases mem_append.mp mem with old | new
    · refine carried node old (isLeaf_iff.mpr fun child childMem => ?_) (core.tier.wf.path_ne_nil old)
      exact isLeaf_iff.mp leaf child (mem_append_left _ childMem)
    · rw [mem_singleton.mp new] at differs
      exact absurd rfl differs

/-- What an insertion leaves: the length that was there, the slot in the tree unless it is refused,
and the new indices. -/
structure Inserted (ps : Nat) (locks : List (List Token)) (cache : HybridRadixCache)
    (inputIds : List Token) (kvIndices : List Nat) (mambaValue : Nat)
    (res : HybridRadixCache × Nat × Bool) : Prop where
  inv : HybridInv ps locks res.1
  stored : ∀ other, Stored cache.tier.nodes other → Stored res.1.tier.nodes other
  slots : (snapshots res.1.tier.nodes).Perm
    (if res.2.2 then snapshots cache.tier.nodes
      else mambaValue :: snapshots cache.tier.nodes)
  pages : (heldPages res.1.tier.nodes).Perm (heldPages cache.tier.nodes ++
    (kvIndices.take (alignDown inputIds.length ps)).drop res.2.1)
  bound : res.2.1 ≤ alignDown inputIds.length ps
  aligned : ps ∣ res.2.1
  has : inputIds.take (alignDown inputIds.length ps) = [] ∨ ∃ cur ∈ res.1.tier.nodes,
    cur.path = inputIds.take (alignDown inputIds.length ps) ∧
    cur.data.mambaValue.isSome = true

def HybridRadixCache.whole (cache : HybridRadixCache) (inputIds : List Token) : List Token :=
  inputIds.take (alignDown inputIds.length cache.pageSize)

def HybridRadixCache.addLeaf (cache : HybridRadixCache) (word key : List Token)
    (value : List Nat) : HybridRadixCache :=
  { cache with
    tier := { cache.tier with
      nodes := insertLeaf cache.tier.nodes word key (NodeData.fresh value cache.clock.now)
      evictableSize := cache.tier.evictableSize + key.length }
    clock := cache.clock.tick }

theorem insert_of_present {inputIds : List Token} (kvIndices : List Nat) (mambaValue : Nat)
    (present : (cache.walk (cache.whole inputIds)).2.length =
      alignDown inputIds.length cache.pageSize) :
    cache.insert inputIds kvIndices mambaValue =
      (((cache.walk (cache.whole inputIds)).1.donate (cache.walk (cache.whole inputIds)).2
          mambaValue).1, (cache.walk (cache.whole inputIds)).2.length,
        ((cache.walk (cache.whole inputIds)).1.donate (cache.walk (cache.whole inputIds)).2
          mambaValue).2) :=
  if_neg (not_not.mpr present)

theorem insert_of_missing {inputIds : List Token} (kvIndices : List Nat) (mambaValue : Nat)
    (missing : (cache.walk (cache.whole inputIds)).2.length ≠
      alignDown inputIds.length cache.pageSize) :
    cache.insert inputIds kvIndices mambaValue = let walked := cache.walk (cache.whole inputIds)
      let key := (cache.whole inputIds).drop walked.2.length
      let leafed := walked.1.addLeaf walked.2 key
        ((kvIndices.take (alignDown inputIds.length cache.pageSize)).drop walked.2.length)
      ((leafed.donate (walked.2 ++ key) mambaValue).1, walked.2.length,
        (leafed.donate (walked.2 ++ key) mambaValue).2) :=
  if_pos missing

/-- **An insertion keeps the invariant.** -/
theorem HybridInv.insert (inv : HybridInv ps locks cache) (inputIds : List Token)
    (kvIndices : List Nat) (mambaValue : Nat) :
    Inserted ps locks cache inputIds kvIndices mambaValue
      (cache.insert inputIds kvIndices mambaValue) := by
  obtain rfl := inv.pageSize
  obtain ⟨invWalk, walked, stored, onIds, stop⟩ := inv.walk (cache.whole inputIds)
  have length : (cache.whole inputIds).length = alignDown inputIds.length cache.pageSize := by
    unfold HybridRadixCache.whole
    rw [length_take, min_eq_left (alignDown_le _ _)]
  have bound := onIds.length_le
  rw [length] at bound
  have aligned := stored.dvd invWalk.wf
  by_cases present : (cache.walk (cache.whole inputIds)).2.length =
      alignDown inputIds.length cache.pageSize
  · rw [insert_of_present kvIndices mambaValue present]
    have donated := invWalk.core.donate invWalk.pageSize
      (fun node mem leaf _ => invWalk.carried node mem leaf (invWalk.wf.path_ne_nil mem))
      stored mambaValue
    have isWhole := onIds.eq_of_length (present.trans length.symm)
    refine ⟨donated.inv, fun other pre => donated.stored _ (walked.stored _ pre), ?_, ?_,
      bound, aligned, ?_⟩
    · refine donated.slots.trans ?_
      split
      · exact walked.slots
      · exact walked.slots.cons mambaValue
    · have nothing : (kvIndices.take (alignDown inputIds.length cache.pageSize)).drop
          (cache.walk (cache.whole inputIds)).2.length = [] := by
        rw [present]
        exact drop_eq_nil_of_le (length_take_le _ _)
      rw [nothing, append_nil]
      exact donated.pages.trans walked.pages
    · exact donated.has.imp isWhole.symm.trans fun ⟨cur, mem, path, has⟩ =>
        ⟨cur, mem, path.trans isWhole, has⟩
  · rw [insert_of_missing kvIndices mambaValue present]
    have fresh := stop.resolve_left fun done => present ((congrArg List.length done).trans length)
    generalize cache.walk (cache.whole inputIds) = walk at *
    obtain ⟨mid, word⟩ := walk
    obtain ⟨key, isKey⟩ : ∃ key, (cache.whole inputIds).drop word.length = key := ⟨_, rfl⟩
    obtain ⟨value, isValue⟩ : ∃ value,
        (kvIndices.take (alignDown inputIds.length cache.pageSize)).drop word.length = value := ⟨_, rfl⟩
    dsimp only at *
    rw [isKey] at fresh ⊢
    rw [isValue]
    have keyLength : key.length = alignDown inputIds.length cache.pageSize - word.length := by
      rw [← isKey, length_drop, length]
    have keyAligned : cache.pageSize ∣ key.length := by
      rw [keyLength]
      exact Nat.dvd_sub (dvd_alignDown _ _) aligned
    have whole : word ++ key = cache.whole inputIds := by
      conv_rhs => rw [← take_append_drop word.length (cache.whole inputIds), prefix_eq_take onIds]
      rw [isKey]
    obtain ⟨leafCore, leafCarried⟩ := invWalk.core.insertLeaf invWalk.carried (by omega) keyAligned
      stored fresh value mid.clock.now
    have leafStored : Stored (PageTree.insertLeaf mid.tier.nodes word key
        (NodeData.fresh value mid.clock.now)) (word ++ key) :=
      .inr ⟨_, mem_append_right _ (mem_singleton_self _), rfl⟩
    have donated := @HybridCore.donate _ _ (mid.addLeaf _ _ _)
      invWalk.pageSize (leafCore.retime _) _ leafCarried leafStored mambaValue
    refine ⟨donated.inv, fun other pre => donated.stored _ ?_, ?_, ?_, bound, aligned, ?_⟩
    · exact (walked.stored _ pre).imp_right fun ⟨node, mem, path⟩ =>
        ⟨node, mem_append_left _ mem, path⟩
    · refine donated.slots.trans ?_
      have slots := gather_insertLeaf (fun node : RadixTreeNode => node.data.mambaValue.toList)
        mid.tier.nodes word key (NodeData.fresh value mid.clock.now)
      have slots := (Perm.of_eq (slots.trans (append_nil _))).trans walked.slots
      split
      · exact slots
      · exact slots.cons mambaValue
    · refine donated.pages.trans ?_
      have pages := gather_insertLeaf (fun node : RadixTreeNode => node.data.value)
        mid.tier.nodes word key (NodeData.fresh value mid.clock.now)
      rw [isValue]
      exact (Perm.of_eq pages).trans (walked.pages.append_right _)
    · exact donated.has.imp whole.symm.trans fun ⟨cur, mem, path, has⟩ =>
        ⟨cur, mem, path.trans whole, has⟩

/-! ### Locks -/

/-- What taking and giving back a lock leaves: the snapshots, the pages and the words. -/
structure SameHeld (pre after : List RadixTreeNode) : Prop where
  slots : snapshots after = snapshots pre
  pages : heldPages after = heldPages pre
  stored : ∀ word, Stored pre word → Stored after word
  carried : Carried [] pre → Carried [] after

theorem SameHeld.trans {first second third : List RadixTreeNode} (left : SameHeld first second)
    (right : SameHeld second third) : SameHeld first third where
  slots := right.slots.trans left.slots
  pages := right.pages.trans left.pages
  stored := fun word pre => right.stored word (left.stored word pre)
  carried := fun pre => right.carried (left.carried pre)

theorem sameHeld_of_frame {pre after : List RadixTreeNode}
    (frame : after.map FullTier.unref = pre.map FullTier.unref) : SameHeld pre after where
  slots := by
    have strip : ∀ nodes : List RadixTreeNode,
        snapshots (nodes.map FullTier.unref) = snapshots nodes := by
      intro nodes
      unfold snapshots gather
      rw [flatMap_map]
      rfl
    rw [← strip after, frame, strip]
  pages := by
    have strip : ∀ nodes : List RadixTreeNode,
        heldPages (nodes.map FullTier.unref) = heldPages nodes := by
      intro nodes
      unfold heldPages gather
      rw [flatMap_map]
      rfl
    rw [← strip after, frame, strip]
  stored := fun _ stored => FullTier.stored_of_frame frame stored
  carried := by
    intro carried node mem leaf differs
    obtain ⟨old, oldMem, same⟩ := FullTier.exists_of_frame frame mem
    have strip : ∀ nodes : List RadixTreeNode, ∀ word,
        isLeaf (nodes.map FullTier.unref) word = isLeaf nodes word := by
      intro nodes word
      unfold isLeaf
      rw [all_map]
      rfl
    have path := FullTier.path_of_unref same
    rw [← strip, frame, strip, ← path] at leaf
    rw [← path] at differs
    have has := carried old oldMem leaf differs
    rw [← has]
    exact (congrArg (fun node : RadixTreeNode => node.data.mambaValue.isSome) same).symm

theorem sameHeld_modify (at_ : List Token) {change : RadixTreeNode → NodeData}
    (value : ∀ node, (change node).mambaValue = node.data.mambaValue)
    (pages : ∀ node, (change node).value = node.data.value) :
    SameHeld nodes (modify nodes at_ change) where
  slots := gather_modify_same _ nodes at_ fun node => congrArg Option.toList (value node)
  pages := gather_modify_same _ nodes at_ pages
  stored := fun _ stored => stored.modify _ _
  carried := fun carried => carried.modify at_ fun node has => by rwa [value node]

theorem node?_root {nodes : List RadixTreeNode} (wf : WF ps nodes) : node? nodes [] = none := by
  refine find?_eq_none.mpr fun node mem => ?_
  simpa using wf.path_ne_nil mem

theorem HybridCore.congr_holds (core : HybridCore ps locks holds cache)
    {other : List (List Token)} (same : ∀ word, word ≠ [] → other.count word = holds.count word) :
    HybridCore ps locks other cache where
  tier := core.tier
  mambaRef := by
    intro node mem
    rw [same _ (core.tier.wf.path_ne_nil mem)]
    exact core.mambaRef node mem
  held := by
    intro node mem lt
    refine core.held node mem (count_pos_iff.mp ?_)
    rw [← same _ (core.tier.wf.path_ne_nil mem)]
    exact count_pos_iff.mpr lt
  evictable := core.evictable
  protect := core.protect

/-- **The snapshot part of a lock.** -/
theorem HybridCore.pinMamba (core : HybridCore ps locks holds cache) {word : List Token}
    (target : word = [] ∨ ∃ cur ∈ cache.tier.nodes, cur.path = word ∧
      cur.data.mambaValue.isSome = true) :
    HybridCore ps locks (word :: holds) (cache.pinMamba word) ∧
      SameHeld cache.tier.nodes (cache.pinMamba word).tier.nodes ∧
      (cache.pinMamba word).pageSize = cache.pageSize := by
  rcases target with rfl | ⟨cur, mem, rfl, has⟩
  · unfold HybridRadixCache.pinMamba
    rw [node?_root core.tier.wf]
    refine ⟨core.congr_holds fun word nonempty => ?_, sameHeld_of_frame rfl, rfl⟩
    exact count_cons_of_ne nonempty.symm
  · unfold HybridRadixCache.pinMamba
    rw [core.tier.wf.node?_eq mem]
    dsimp only
    rw [if_pos has]
    have ref := core.mambaRef cur mem
    have counted : ∀ word, word ≠ cur.path →
        (cur.path :: holds).count word = holds.count word := fun word differs =>
      count_cons_of_ne differs.symm
    have more : ((cur.path :: holds).count cur.path : Int) = cur.data.mambaRefCount + 1 := by
      rw [count_cons_self, ref]
      push_cast
      ring
    have same := @sameHeld_modify cache.tier.nodes cur.path
      (fun old => { old.data with mambaRefCount := old.data.mambaRefCount + 1 })
      (fun _ => rfl) fun _ => rfl
    have positive : cur.data.mambaRefCount + 1 ≠ 0 := by
      rw [ref]
      omega
    by_cases free : cur.data.mambaRefCount = 0
    · rw [if_pos free]
      refine ⟨?_, same, rfl⟩
      refine @HybridCore.change _ _ _ _ core cur mem
        (fun data => { data with mambaRefCount := data.mambaRefCount + 1 }) _ _ _
        (fun _ => rfl) more.symm counted (fun _ => has) ?_ ?_
      · unfold spareState
        rw [if_pos ⟨has, free⟩, if_neg fun both => positive both.2]
        ring
      · unfold keptState
        rw [if_neg fun both => both.2 free, if_pos ⟨has, positive⟩]
        ring
    · rw [if_neg free]
      refine ⟨?_, same, rfl⟩
      refine @HybridCore.change _ _ _ _ core cur mem
        (fun data => { data with mambaRefCount := data.mambaRefCount + 1 }) _ _ _
        (fun _ => rfl) more.symm counted (fun _ => has) ?_ ?_
      · unfold spareState
        rw [if_neg fun both => free both.2, if_neg fun both => positive both.2]
        ring
      · unfold keptState
        rw [if_pos ⟨has, free⟩, if_pos ⟨has, positive⟩]
        ring

theorem HybridInv.incLock (inv : HybridInv ps locks cache) {word : List Token}
    (target : word = [] ∨ ∃ cur ∈ cache.tier.nodes, cur.path = word ∧
      cur.data.mambaValue.isSome = true) :
    HybridInv ps (word :: locks) (cache.incLock word) ∧
      SameHeld cache.tier.nodes (cache.incLock word).tier.nodes := by
  obtain ⟨core, same, size⟩ := inv.core.pinMamba target
  have stored : Stored cache.tier.nodes word :=
    target.imp_right fun ⟨cur, mem, path, _⟩ => ⟨cur, mem, path⟩
  obtain ⟨tier, frame⟩ := core.tier.pin (same.stored word stored)
  have whole := same.trans (sameHeld_of_frame frame)
  exact ⟨⟨size.trans inv.pageSize, core.congr tier frame, whole.carried inv.carried⟩, whole⟩

/-- **The snapshot part of a lock, given back.** -/
theorem HybridCore.unpinMamba (core : HybridCore ps locks holds cache) {word : List Token}
    (stored : Stored cache.tier.nodes word) (hold : word ∈ holds) :
    HybridCore ps locks (holds.erase word) (cache.unpinMamba word) ∧
      SameHeld cache.tier.nodes (cache.unpinMamba word).tier.nodes ∧
      (cache.unpinMamba word).pageSize = cache.pageSize := by
  rcases stored with rfl | ⟨cur, mem, rfl⟩
  · unfold HybridRadixCache.unpinMamba
    rw [node?_root core.tier.wf]
    refine ⟨core.congr_holds fun word nonempty => ?_, sameHeld_of_frame rfl, rfl⟩
    exact count_erase_of_ne nonempty
  · have has := core.held cur mem hold
    have ref := core.mambaRef cur mem
    have least := count_pos_iff.mpr hold
    have positive : 0 < cur.data.mambaRefCount := by
      rw [ref]
      omega
    unfold HybridRadixCache.unpinMamba
    rw [core.tier.wf.node?_eq mem]
    dsimp only
    rw [if_pos ⟨has, positive⟩]
    have counted : ∀ word, word ≠ cur.path →
        (holds.erase cur.path).count word = holds.count word := fun word differs =>
      count_erase_of_ne differs
    have less : ((holds.erase cur.path).count cur.path : Int) = cur.data.mambaRefCount - 1 := by
      rw [count_erase_self, ref]
      omega
    have same := @sameHeld_modify cache.tier.nodes cur.path
      (fun old => { old.data with mambaRefCount := old.data.mambaRefCount - 1 })
      (fun _ => rfl) fun _ => rfl
    have locked : cur.data.mambaRefCount ≠ 0 := positive.ne'
    by_cases last : cur.data.mambaRefCount - 1 = 0
    · rw [if_pos last]
      refine ⟨?_, same, rfl⟩
      refine @HybridCore.change _ _ _ _ core cur mem
        (fun data => { data with mambaRefCount := data.mambaRefCount - 1 }) _ _ _
        (fun _ => rfl) less.symm counted (fun _ => has) ?_ ?_
      · unfold spareState
        rw [if_neg fun both => locked both.2, if_pos ⟨has, last⟩]
        ring
      · unfold keptState
        rw [if_pos ⟨has, locked⟩, if_neg fun both => both.2 last]
        ring
    · rw [if_neg last]
      refine ⟨?_, same, rfl⟩
      refine @HybridCore.change _ _ _ _ core cur mem
        (fun data => { data with mambaRefCount := data.mambaRefCount - 1 }) _ _ _
        (fun _ => rfl) less.symm counted (fun _ => has) ?_ ?_
      · unfold spareState
        rw [if_neg fun both => locked both.2, if_neg fun both => last both.2]
        ring
      · unfold keptState
        rw [if_pos ⟨has, locked⟩, if_pos ⟨has, last⟩]
        ring

theorem HybridInv.decLock (inv : HybridInv ps locks cache) {word : List Token}
    (locked : word ∈ locks) :
    ∃ next, cache.decLock word = .ok next ∧ HybridInv ps (locks.erase word) next ∧
      SameHeld cache.tier.nodes next.tier.nodes := by
  obtain ⟨core, same, size⟩ := inv.core.unpinMamba (inv.core.tier.stored word locked) locked
  obtain ⟨tier, ran, invTier, frame⟩ := core.tier.unpin locked
  have whole := same.trans (sameHeld_of_frame frame)
  refine ⟨{ cache.unpinMamba word with tier := tier }, ?_,
    ⟨size.trans inv.pageSize, core.congr invTier frame, whole.carried inv.carried⟩, whole⟩
  unfold HybridRadixCache.decLock
  dsimp only
  rw [ran]
  rfl

end FreeToken
