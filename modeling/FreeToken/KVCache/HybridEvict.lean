/-
**Eviction from the hybrid cache.**

Both loops only drop unlocked leaves and clear unlocked snapshots.

* `EvictState.drop`: a leaf goes, with its pages and its snapshot; `Shed`: what any number of drops
  and cleared snapshots leaves;
* `evictFull_spec`, `evictMamba_spec`: **both evictions keep the invariant, and free what they are
  asked for as long as there is that much to free**.
-/

import FreeToken.KVCache.HybridTree
import FreeToken.KVCache.RadixEvict

namespace FreeToken

open PageTree HybridRadixCache List

variable {ps : Nat} {locks : List (List Token)} {st : EvictState}

def HybridRadixCache.EvictState.nodes (st : EvictState) : List RadixTreeNode := st.cache.tier.nodes

def HybridRadixCache.EvictState.drop (st : EvictState) (node : RadixTreeNode) : EvictState :=
  (st.freeNodeMamba node).unlink node

/-- **What drops and cleared snapshots leave**: the locks, and every page and slot in the tree or
among the freed ones. -/
structure Shed (ps : Nat) (locks : List (List Token)) (pre after : EvictState) : Prop where
  core : HybridCore ps locks locks after.cache
  pageSize : after.cache.pageSize = pre.cache.pageSize
  slots : (snapshots after.nodes ++ after.mamba).Perm (snapshots pre.nodes ++ pre.mamba)
  pages : (heldPages after.nodes ++ after.kv).Perm (heldPages pre.nodes ++ pre.kv)
  spare : after.cache.mambaEvictable + after.mamba.length =
    pre.cache.mambaEvictable + pre.mamba.length

theorem Shed.refl (core : HybridCore ps locks locks st.cache) : Shed ps locks st st :=
  ⟨core, rfl, Perm.refl _, Perm.refl _, rfl⟩

theorem Shed.trans {first second third : EvictState} (left : Shed ps locks first second)
    (right : Shed ps locks second third) : Shed ps locks first third where
  core := right.core
  pageSize := right.pageSize.trans left.pageSize
  slots := right.slots.trans left.slots
  pages := right.pages.trans left.pages
  spare := right.spare.trans left.spare

/-! ### One node -/

variable {node : RadixTreeNode}

theorem HybridCore.mambaRef_zero {cache : HybridRadixCache} (core : HybridCore ps locks locks cache)
    (mem : node ∈ cache.tier.nodes) (unlocked : node.data.refCount = 0) :
    node.data.mambaRefCount = 0 := by
  rw [core.mambaRef node mem, count_eq_zero_of_not_mem, Nat.cast_zero]
  intro hold
  have pos := through_pos hold (prefix_refl node.path)
  rw [← core.tier.counts.refCount node mem, unlocked] at pos
  exact lt_irrefl _ pos

/-- A locked leaf is locked itself, so its snapshot is held. -/
theorem HybridCore.locked_leaf_held {cache : HybridRadixCache}
    (core : HybridCore ps locks locks cache)
    (mem : node ∈ cache.tier.nodes) (leaf : isLeaf cache.tier.nodes node.path = true)
    (locked : node.data.refCount ≠ 0) : node.path ∈ locks := by
  by_contra hold
  rw [core.tier.counts.refCount node mem] at locked
  refine absurd (through_eq_zero fun lock lockMem below => ?_) locked
  rcases core.tier.stored lock lockMem with rfl | ⟨last, lastMem, rfl⟩
  · exact core.tier.wf.path_ne_nil mem (prefix_nil.mp below)
  · have shorter : node.path.length < last.path.length := by
      refine lt_of_le_of_ne below.length_le fun same => hold ?_
      rwa [below.eq_of_length same]
    obtain ⟨child, childMem, hangs, _⟩ := core.tier.wf.child_toward (.inr ⟨node, mem, rfl⟩)
      _ last lastMem le_rfl below shorter
    exact isLeaf_iff.mp leaf child childMem hangs

theorem remove_modify (nodes : List RadixTreeNode) (word : List Token)
    (change : RadixTreeNode → NodeData) :
    remove (modify nodes word change) word = remove nodes word := by
  unfold remove PageTree.modify
  rw [filter_map]
  have same : ((fun node : RadixTreeNode => decide (node.path ≠ word)) ∘ fun node =>
      if node.path = word then { node with data := change node } else node) =
      fun node => decide (node.path ≠ word) := by
    funext node
    simp only [Function.comp_apply]
    split <;> rfl
  rw [same]
  refine (map_congr_left fun node mem => ?_).trans (map_id _)
  have differs : node.path ≠ word := by simpa using (mem_filter.mp mem).2
  exact if_neg differs

theorem drop_eq (node : RadixTreeNode) (free : node.data.mambaRefCount = 0) : st.drop node =
      { cache := { st.cache with
          tier := { st.cache.tier with
            nodes := remove st.nodes node.path
            evictableSize := st.cache.tier.evictableSize - node.length }
          mambaEvictable := st.cache.mambaEvictable - spareState node }
        kv := st.kv ++ node.data.value
        mamba := st.mamba ++ node.data.mambaValue.toList
        freed := st.freed } := by
  unfold EvictState.drop EvictState.freeNodeMamba EvictState.unlink EvictState.nodes spareState
  cases has : node.data.mambaValue with
  | none =>
    rw [if_neg fun both => Bool.noConfusion both.1, sub_zero, Option.toList_none, append_nil]
  | some slot =>
    dsimp only
    rw [if_pos free, if_pos ⟨rfl, free⟩]
    unfold HybridRadixCache.withNodes
    rw [remove_modify]
    rfl

theorem drop_nodes (free : node.data.mambaRefCount = 0) :
    (st.drop node).nodes = remove st.nodes node.path := by
  rw [drop_eq node free]
  rfl

theorem perm_moved {left all given : List Nat} (focus : all.Perm (given ++ left))
    (freed : List Nat) : (left ++ (freed ++ given)).Perm (all ++ freed) := by
  have turned := @perm_append_comm _ left (freed ++ given)
  rw [append_assoc] at turned
  exact turned.trans ((focus.symm.append_left freed).trans perm_append_comm)

theorem spareState_eq (free : node.data.mambaRefCount = 0) :
    spareState node = node.data.mambaValue.toList.length := by
  unfold spareState
  cases node.data.mambaValue with
  | none => rfl
  | some slot => exact if_pos ⟨rfl, free⟩

theorem drop_shed (core : HybridCore ps locks locks st.cache)
    (mem : node ∈ st.nodes) (leaf : isLeaf st.nodes node.path = true)
    (unlocked : node.data.refCount = 0) : Shed ps locks st (st.drop node) := by
  have free := core.mambaRef_zero mem unlocked
  have wf := core.tier.wf
  have notKept : keptState node = 0 := by
    unfold keptState
    rw [if_neg fun both => both.2 free]
  rw [drop_eq node free]
  refine ⟨⟨core.tier.remove mem leaf unlocked, ?_, ?_, ?_, ?_⟩, rfl, ?_, ?_, ?_⟩
  · exact fun other lt => core.mambaRef other (mem_remove.mp lt).1
  · exact fun other lt => core.held other (mem_remove.mp lt).1
  · rw [core.evictable]
    exact (wf.total_remove spareState mem).symm
  · rw [core.protect]
    refine (wf.total_remove keptState mem).symm ▸ ?_
    rw [notKept, sub_zero]
  · exact perm_moved (wf.gather_focus _ mem) st.mamba
  · exact perm_moved (wf.gather_focus _ mem) st.kv
  · rw [length_append, spareState_eq free]
    push_cast
    ring

theorem clear_shed (core : HybridCore ps locks locks st.cache)
    (mem : node ∈ st.nodes) (has : node.data.mambaValue.isSome = true)
    (free : node.data.mambaRefCount = 0) :
    Shed ps locks st (st.freeNodeMamba node) ∧
      (st.freeNodeMamba node).nodes = modify st.nodes node.path (fun old =>
        { old.data with mambaValue := none }) ∧
      (st.freeNodeMamba node).mamba = st.mamba ++ node.data.mambaValue.toList ∧
      (st.freeNodeMamba node).freed = st.freed := by
  obtain ⟨slot, isSlot⟩ := Option.isSome_iff_exists.mp has
  have notHeld : node.path ∉ locks := by
    intro hold
    exact (core.mem_holds_iff mem).mp hold free
  unfold EvictState.freeNodeMamba
  rw [isSlot]
  dsimp only
  rw [if_pos free]
  refine ⟨⟨?_, rfl, ?_, ?_, ?_⟩, rfl, rfl, rfl⟩
  · refine @HybridCore.change _ _ _ _ core node mem
      (fun data => { data with mambaValue := none }) locks _ _ (fun _ => rfl)
      (core.mambaRef node mem) (fun _ _ => rfl) (fun hold => absurd hold notHeld) ?_ ?_
    · rw [spareState_eq free, isSlot, spareState_of_none rfl]
      simp
    · have cleared : keptState { node with data := { node.data with mambaValue := none } } = 0 :=
        keptState_of_none rfl
      have pre : keptState node = 0 := if_neg fun both => both.2 free
      rw [cleared, pre, sub_zero, add_zero]
      rfl
  · have cleared := @WF.gather_cleared _ _ _ _ _ _
      (fun node : RadixTreeNode => node.data.mambaValue.toList) core.tier.wf _ mem
      (fun old => { old.data with mambaValue := none }) rfl
    rw [isSlot] at cleared
    exact perm_moved cleared st.mamba
  · have same := @gather_modify_same _ _ _ _ (fun node : RadixTreeNode => node.data.value) st.nodes
      node.path (fun old => { old.data with mambaValue := none }) fun _ => rfl
    exact (Perm.of_eq same).append_right st.kv
  · rw [length_append, length_singleton]
    push_cast
    ring

/-! ### The cascade -/

section Cascade

variable {nodes : List RadixTreeNode} {word : List Token}

theorem leaf_after_remove (wf : WF ps nodes) (mem : node ∈ nodes)
    {other : RadixTreeNode} (leaf : isLeaf (remove nodes node.path) other.path = true) :
    isLeaf nodes other.path = true ∨ other.path = node.parent := by
  by_cases pre : isLeaf nodes other.path = true
  · exact .inl pre
  · rw [isLeaf_iff] at pre
    push Not at pre
    obtain ⟨child, childMem, hangs⟩ := pre
    by_cases same : child.path = node.path
    · exact .inr (hangs.symm.trans (by rw [wf.eq_of_path childMem mem same]))
    · exact absurd hangs (isLeaf_iff.mp leaf child (mem_remove.mpr ⟨childMem, same⟩))

theorem Carried.drop (wf : WF ps nodes) (mem : node ∈ nodes)
    (carried : Carried node.path nodes) : Carried node.parent (remove nodes node.path) := by
  intro other lt leaf differs
  obtain ⟨old, apart⟩ := mem_remove.mp lt
  exact carried other old ((leaf_after_remove wf mem leaf).resolve_right differs) apart

/-- The heap holds the unlocked leaves, except one that may end at `word`. -/
structure LeafHeapBut (word : List Token) (nodes heap : List RadixTreeNode) : Prop where
  members : ∀ node, node ∈ heap ↔ node ∈ nodes ∧ isLeaf nodes node.path = true ∧
    node.data.refCount = 0 ∧ node.path ≠ word
  distinct : heap.Nodup

theorem LeafHeapBut.drop (wf : WF ps nodes) {heap : List RadixTreeNode}
    (mem : node ∈ nodes) (leaves : LeafHeapBut node.path nodes heap) :
    LeafHeapBut node.parent (remove nodes node.path) heap := by
  refine ⟨fun other => ?_, leaves.distinct⟩
  rw [leaves.members]
  constructor
  · rintro ⟨lt, leaf, unlocked, differs⟩
    exact ⟨mem_remove.mpr ⟨lt, differs⟩, isLeaf_remove _ leaf, unlocked,
      fun same => isLeaf_iff.mp leaf node mem same.symm⟩
  · rintro ⟨lt, leaf, unlocked, differs⟩
    obtain ⟨old, apart⟩ := mem_remove.mp lt
    exact ⟨old, (leaf_after_remove wf mem leaf).resolve_right differs, unlocked, apart⟩

theorem LeafHeap.popped (wf : WF ps nodes) {rest : List RadixTreeNode}
    (leaves : LeafHeap nodes (node :: rest)) : LeafHeapBut node.path nodes rest := by
  obtain ⟨fresh, nodup⟩ := nodup_cons.mp leaves.distinct
  refine ⟨fun other => ?_, nodup⟩
  constructor
  · intro lt
    obtain ⟨mem, leaf, unlocked⟩ := (leaves.members other).mp (mem_cons_of_mem _ lt)
    refine ⟨mem, leaf, unlocked, fun same => fresh ?_⟩
    rw [← wf.eq_of_path mem ((leaves.members node).mp mem_cons_self).1 same]
    exact lt
  · rintro ⟨mem, leaf, unlocked, differs⟩
    rcases mem_cons.mp ((leaves.members other).mpr ⟨mem, leaf, unlocked⟩) with same | lt
    · exact absurd (congrArg Seg.path same) differs
    · exact lt

theorem LeafHeapBut.expose (wf : WF ps nodes) {heap : List RadixTreeNode}
    (leaves : LeafHeapBut word nodes heap) :
    LeafHeap nodes (match node? nodes word with
      | some up => if isLeaf nodes word ∧ up.data.refCount = 0 then up :: heap else heap
      | none => heap) := by
  have plain : (∀ up, node? nodes word = some up →
      ¬(isLeaf nodes word = true ∧ up.data.refCount = 0)) → LeafHeap nodes heap := by
    intro closed
    refine ⟨fun other => ?_, leaves.distinct⟩
    rw [leaves.members]
    refine ⟨fun ⟨lt, leaf, unlocked, _⟩ => ⟨lt, leaf, unlocked⟩,
      fun ⟨lt, leaf, unlocked⟩ => ⟨lt, leaf, unlocked, fun same => ?_⟩⟩
    exact closed other (wf.node?_eq_of_path lt same) ⟨same ▸ leaf, unlocked⟩
  split
  · rename_i up found
    have upMem := node?_mem found
    have upPath := node?_path found
    split
    · rename_i opens
      refine ⟨fun other => ?_, nodup_cons.mpr ⟨fun again => ?_, leaves.distinct⟩⟩
      · rw [mem_cons, leaves.members]
        constructor
        · rintro (rfl | ⟨lt, leaf, unlocked, _⟩)
          · exact ⟨upMem, upPath ▸ opens.1, opens.2⟩
          · exact ⟨lt, leaf, unlocked⟩
        · rintro ⟨lt, leaf, unlocked⟩
          by_cases same : other.path = word
          · exact .inl (wf.eq_of_path lt upMem (same.trans upPath.symm))
          · exact .inr ⟨lt, leaf, unlocked, same⟩
      · exact ((leaves.members up).mp again).2.2.2 upPath
    · rename_i closed
      refine plain fun other otherFound => ?_
      rw [found] at otherFound
      cases otherFound
      exact closed
  · rename_i missing
    refine plain fun up found => ?_
    rw [missing] at found
    cases found

/-- What the cascade does from a state in which only the leaf at `word` may lack a snapshot. -/
structure Cascaded (ps : Nat) (locks : List (List Token)) (st : EvictState) (word : List Token)
    (freed : Nat) (res : EvictState × List Token × Nat) : Prop where
  shed : Shed ps locks st res.1
  carried : Carried [] res.1.nodes
  same : res.1.freed = st.freed
  mamba : res.1.mamba = st.mamba
  fewer : res.1.nodes.length ≤ st.nodes.length
  snapshots : ∀ node, node.data.mambaValue.isSome = true → (node ∈ res.1.nodes ↔ node ∈ st.nodes)
  tokens : res.1.cache.tier.evictableSize + res.2.2 = st.cache.tier.evictableSize + freed
  heap : ∀ heap, LeafHeapBut word st.nodes heap → LeafHeapBut res.2.1 res.1.nodes heap

/-- After the cascade every leaf has a snapshot again. -/
theorem cascade_spec : ∀ (fuel : Nat) (st : EvictState) (word : List Token) (freed : Nat),
    HybridCore ps locks locks st.cache → Carried word st.nodes → st.nodes.length < fuel →
    Cascaded ps locks st word freed (cascadeTombstoneLeaves fuel st word freed) := by
  intro fuel
  induction fuel with
  | zero =>
    intro st word freed _ _ rounds
    exact absurd rounds (Nat.not_lt_zero _)
  | succ fuel ih =>
    intro st word freed core carried rounds
    have wf := core.tier.wf
    have stop : Carried [] st.nodes →
        Cascaded ps locks st word freed (st, word, freed) := fun whole =>
      ⟨Shed.refl core, whole, rfl, rfl, le_rfl, fun _ _ => Iff.rfl, rfl, fun _ leaves => leaves⟩
    rw [cascadeTombstoneLeaves]
    cases found : node? st.cache.tier.nodes word with
    | none =>
      refine stop fun node mem leaf _ => carried node mem leaf fun same => ?_
      have here := wf.node?_eq_of_path mem same
      rw [found] at here
      cases here
    | some parent =>
      have mem := node?_mem found
      have path := node?_path found
      dsimp only
      by_cases goes : parent.data.mambaValue = none ∧ isLeaf st.cache.tier.nodes word ∧
          parent.data.refCount = 0
      · rw [if_pos goes]
        obtain ⟨bare, leaf, unlocked⟩ := goes
        rw [← path] at leaf carried
        have asDrop : st.unlink parent = st.drop parent := by
          unfold EvictState.drop EvictState.freeNodeMamba
          rw [bare]
        have free := core.mambaRef_zero mem unlocked
        have shed := drop_shed core mem leaf unlocked
        have gone := @drop_nodes st parent free
        rw [asDrop]
        have shorter : (st.drop parent).nodes.length < st.nodes.length := by
          rw [gone]
          exact length_filter_lt_length_iff_exists.mpr ⟨parent, mem, by simp⟩
        have rest := ih (st.drop parent) parent.parent (freed + parent.length) shed.core
          (by rw [gone]; exact carried.drop wf mem) (by omega)
        have mamba : (st.drop parent).mamba = st.mamba := by
          rw [drop_eq parent free, bare]
          exact append_nil _
        have tokens : (st.drop parent).cache.tier.evictableSize =
            st.cache.tier.evictableSize - parent.length := by
          rw [drop_eq parent free]
        refine ⟨shed.trans rest.shed, rest.carried, rest.same.trans (by rw [drop_eq parent free]),
          rest.mamba.trans mamba, rest.fewer.trans shorter.le, fun node has => ?_, ?_, ?_⟩
        · rw [rest.snapshots node has, gone, mem_remove]
          refine ⟨And.left, fun lt => ⟨lt, fun same => ?_⟩⟩
          rw [wf.eq_of_path lt mem same, bare] at has
          cases has
        · have sum := rest.tokens
          rw [tokens] at sum
          push_cast at sum ⊢
          linarith
        · intro heap leaves
          refine rest.heap heap ?_
          rw [gone]
          rw [← path] at leaves
          exact leaves.drop wf mem
      · rw [if_neg goes]
        refine stop fun node lt leaf _ => ?_
        by_cases same : node.path = word
        · have isParent := wf.eq_of_path lt mem (same.trans path.symm)
          subst isParent
          by_cases bare : node.data.mambaValue = none
          · refine core.held node lt (core.locked_leaf_held lt leaf fun unlocked =>
              goes ⟨bare, ?_, unlocked⟩)
            rw [← same]
            exact leaf
          · exact Option.isSome_iff_ne_none.mpr bare
        · exact carried node lt leaf same

end Cascade

/-! ### The two loops -/

/-- **The loop of `evict_full`.** -/
theorem evictFullFrom_spec (numTokens : Nat) : ∀ (fuel : Nat) (st : EvictState)
    (heap : List RadixTreeNode), HybridCore ps locks locks st.cache → Carried [] st.nodes →
    LeafHeap st.nodes heap → st.nodes.length < fuel →
    Shed ps locks st (evictFullFrom numTokens fuel st heap) ∧
      Carried [] (evictFullFrom numTokens fuel st heap).nodes ∧
      (evictFullFrom numTokens fuel st heap).cache.tier.evictableSize +
          (evictFullFrom numTokens fuel st heap).freed =
        st.cache.tier.evictableSize + st.freed ∧
      (numTokens ≤ (evictFullFrom numTokens fuel st heap).freed ∨
        (evictFullFrom numTokens fuel st heap).cache.tier.evictableSize ≤ 0) := by
  intro fuel
  induction fuel with
  | zero =>
    intro st heap _ _ _ rounds
    exact absurd rounds (Nat.not_lt_zero _)
  | succ fuel ih =>
    intro st heap core carried leaves rounds
    have wf := core.tier.wf
    rw [evictFullFrom]
    by_cases done : numTokens ≤ st.freed
    · rw [if_pos done]
      exact ⟨Shed.refl core, carried, rfl, .inl done⟩
    rw [if_neg done]
    rcases popped : popOldest heap with _ | ⟨node, rest⟩
    · refine ⟨Shed.refl core, carried, rfl, .inr (not_lt.mp fun pos => ?_)⟩
      obtain ⟨free, freeMem, freeLeaf, unlocked⟩ := core.tier.exists_freeLeaf pos
      have inHeap := (leaves.members free).mpr ⟨freeMem, freeLeaf, unlocked⟩
      rw [popOldest_eq_none popped] at inHeap
      cases inHeap
    have leaves := leaves.perm (popOldest_perm popped)
    obtain ⟨mem, leaf, unlocked⟩ := (leaves.members node).mp mem_cons_self
    have skip : ¬(node.data.refCount ≠ 0 ∨ isLeaf st.cache.tier.nodes node.path = false) := by
      rintro (locked | inner)
      · exact locked unlocked
      · exact Bool.noConfusion (inner.symm.trans leaf)
    dsimp only
    rw [if_neg skip]
    have free := core.mambaRef_zero mem unlocked
    have shed := drop_shed core mem leaf unlocked
    have gone := @drop_nodes st node free
    have shorter : (st.drop node).nodes.length < st.nodes.length := by
      rw [gone]
      exact length_filter_lt_length_iff_exists.mpr ⟨node, mem, by simp⟩
    have cascaded := cascade_spec st.cache.tier.nodes.length (st.drop node) node.parent 0 shed.core
      (by
        rw [gone]
        exact Carried.drop wf mem fun other lt leaf _ =>
          carried other lt leaf (wf.path_ne_nil lt)) shorter
    have heapNext := cascaded.heap rest (by
      rw [gone]
      exact (leaves.popped wf).drop wf mem)
    have dropFreed : (st.drop node).freed = st.freed := by rw [drop_eq node free]
    have dropTokens : (st.drop node).cache.tier.evictableSize =
        st.cache.tier.evictableSize - node.length := by rw [drop_eq node free]
    have isDrop : (st.freeNodeMamba node).unlink node = st.drop node := rfl
    rw [isDrop]
    generalize cascadeTombstoneLeaves st.cache.tier.nodes.length (st.drop node) node.parent 0 =
      res at cascaded heapNext ⊢
    obtain ⟨after, survivor, tokens⟩ := res
    have sum := cascaded.tokens
    have same := cascaded.same
    have fewer := cascaded.fewer
    dsimp only at sum same fewer
    obtain ⟨rest, restCarried, restTokens, enough⟩ := ih
      { after with freed := after.freed + node.length + tokens } _ cascaded.shed.core
      cascaded.carried (heapNext.expose cascaded.shed.core.tier.wf)
      (show after.nodes.length < fuel by omega)
    refine ⟨(shed.trans cascaded.shed).trans ⟨rest.core, rest.pageSize, rest.slots, rest.pages,
      rest.spare⟩, restCarried, restTokens.trans ?_, enough⟩
    rw [same, dropFreed]
    rw [dropTokens] at sum
    push_cast at sum ⊢
    linarith

/-- The heap of `evict_mamba`: the nodes with an unlocked snapshot. -/
structure SpareHeap (nodes heap : List RadixTreeNode) : Prop where
  members : ∀ node, node ∈ heap ↔
    node ∈ nodes ∧ node.data.mambaValue.isSome = true ∧ node.data.mambaRefCount = 0
  distinct : heap.Nodup

theorem SpareHeap.perm {nodes heap other : List RadixTreeNode} (holds : SpareHeap nodes heap)
    (same : heap.Perm other) : SpareHeap nodes other :=
  ⟨fun node => same.mem_iff.symm.trans (holds.members node), same.nodup_iff.mp holds.distinct⟩

theorem SpareHeap.popped {nodes after rest : List RadixTreeNode}
    (wf : WF ps nodes) (spares : SpareHeap nodes (node :: rest))
    (same : ∀ other, other.data.mambaValue.isSome = true →
      (other ∈ after ↔ other ∈ nodes ∧ other.path ≠ node.path)) : SpareHeap after rest := by
  obtain ⟨fresh, nodup⟩ := nodup_cons.mp spares.distinct
  refine ⟨fun other => ?_, nodup⟩
  constructor
  · intro lt
    obtain ⟨mem, has, free⟩ := (spares.members other).mp (mem_cons_of_mem _ lt)
    refine ⟨(same other has).mpr ⟨mem, fun path => fresh ?_⟩, has, free⟩
    rw [← wf.eq_of_path mem ((spares.members node).mp mem_cons_self).1 path]
    exact lt
  · rintro ⟨mem, has, free⟩
    obtain ⟨old, differs⟩ := (same other has).mp mem
    rcases mem_cons.mp ((spares.members other).mpr ⟨old, has, free⟩) with path | lt
    · exact absurd (congrArg Seg.path path) differs
    · exact lt

/-- What the loop of `evict_mamba` leaves. -/
structure MambaEvicted (ps : Nat) (locks : List (List Token)) (num : Nat)
    (st res : EvictState) : Prop where
  shed : Shed ps locks st res
  carried : Carried [] res.nodes
  count : res.mamba.length + st.freed = st.mamba.length + res.freed
  bound : res.freed ≤ max num st.freed
  enough : num ≤ res.freed ∨ res.cache.mambaEvictable = 0

theorem MambaEvicted.round {num : Nat} {between res : EvictState}
    (shed : Shed ps locks st between) (freed : between.freed = st.freed)
    (mamba : between.mamba.length = st.mamba.length + 1) (more : st.freed < num)
    (rest : MambaEvicted ps locks num { between with freed := between.freed + 1 } res) :
    MambaEvicted ps locks num st res where
  shed := shed.trans ⟨rest.shed.core, rest.shed.pageSize, rest.shed.slots, rest.shed.pages,
    rest.shed.spare⟩
  carried := rest.carried
  count := by
    have count := rest.count
    dsimp only at count
    omega
  bound := by
    have bound := rest.bound
    dsimp only at bound
    omega
  enough := rest.enough

/-- **The loop of `evict_mamba`.** -/
theorem evictMambaFrom_spec (num : Nat) : ∀ (fuel : Nat) (st : EvictState)
    (heap : List RadixTreeNode), HybridCore ps locks locks st.cache → Carried [] st.nodes →
    SpareHeap st.nodes heap → heap.length < fuel →
    MambaEvicted ps locks num st (evictMambaFrom num fuel st heap) := by
  intro fuel
  induction fuel with
  | zero =>
    intro st heap _ _ _ rounds
    exact absurd rounds (Nat.not_lt_zero _)
  | succ fuel ih =>
    intro st heap core carried spares rounds
    have wf := core.tier.wf
    rw [evictMambaFrom]
    by_cases done : num ≤ st.freed
    · rw [if_pos done]
      exact ⟨Shed.refl core, carried, rfl, le_max_right _ _, .inl done⟩
    rw [if_neg done]
    rcases popped : popOldest heap with _ | ⟨node, rest⟩
    · refine ⟨Shed.refl core, carried, rfl, le_max_right _ _, .inr ?_⟩
      rw [core.evictable]
      refine sum_eq_zero fun weight lt => ?_
      obtain ⟨node, mem, rfl⟩ := mem_map.mp lt
      refine if_neg fun both => ?_
      have inHeap := (spares.members node).mpr ⟨mem, both⟩
      rw [popOldest_eq_none popped] at inHeap
      cases inHeap
    have popPerm := popOldest_perm popped
    have length := popPerm.length_eq
    rw [length_cons] at length
    have spares := spares.perm popPerm
    obtain ⟨mem, has, free⟩ := (spares.members node).mp mem_cons_self
    obtain ⟨slot, isSlot⟩ := Option.isSome_iff_exists.mp has
    have skip : ¬(node.data.mambaValue = none ∨ node.data.mambaRefCount ≠ 0) := by
      rintro (bare | locked)
      · rw [isSlot] at bare
        cases bare
      · exact locked free
    dsimp only
    rw [if_neg skip]
    by_cases whole : isLeaf st.cache.tier.nodes node.path ∧ node.data.refCount = 0
    · rw [if_pos whole]
      obtain ⟨leaf, unlocked⟩ := whole
      have shed := drop_shed core mem leaf unlocked
      have gone := @drop_nodes st node free
      have shorter : (st.drop node).nodes.length < st.nodes.length := by
        rw [gone]
        exact length_filter_lt_length_iff_exists.mpr ⟨node, mem, by simp⟩
      have cascaded := cascade_spec st.cache.tier.nodes.length (st.drop node) node.parent 0
        shed.core (by
          rw [gone]
          exact Carried.drop wf mem fun other lt leaf _ =>
            carried other lt leaf (wf.path_ne_nil lt)) shorter
      have dropFreed : (st.drop node).freed = st.freed := by rw [drop_eq node free]
      have dropMamba : (st.drop node).mamba.length = st.mamba.length + 1 := by
        rw [drop_eq node free, isSlot, length_append]
        rfl
      have isDrop : (st.freeNodeMamba node).unlink node = st.drop node := rfl
      rw [isDrop]
      generalize cascadeTombstoneLeaves st.cache.tier.nodes.length (st.drop node) node.parent 0 =
        res at cascaded ⊢
      obtain ⟨after, survivor, tokens⟩ := res
      refine MambaEvicted.round (shed.trans cascaded.shed) (cascaded.same.trans dropFreed)
        ((congrArg List.length cascaded.mamba).trans dropMamba) (not_le.mp done) (ih _ rest
          cascaded.shed.core cascaded.carried (spares.popped wf fun other otherHas => ?_) (by omega))
      refine (cascaded.snapshots other otherHas).trans ?_
      rw [gone, mem_remove]
      exact Iff.rfl
    · rw [if_neg whole]
      obtain ⟨shed, cleared, mamba, freed⟩ := clear_shed core mem has free
      refine MambaEvicted.round shed freed (by rw [mamba, isSlot, length_append]; rfl)
        (not_le.mp done) (ih _ rest shed.core ?_ ?_ (by omega))
      · -- a leaf would be locked, and then its snapshot is held
        intro other lt leaf differs
        have lt : other ∈ (st.freeNodeMamba node).nodes := lt
        have leaf : isLeaf (st.freeNodeMamba node).nodes other.path = true := leaf
        rw [cleared] at lt leaf
        rw [isLeaf_modify] at leaf
        obtain ⟨old, oldMem, rfl⟩ := mem_modify.mp lt
        by_cases same : old.path = node.path
        · have isNode := wf.eq_of_path oldMem mem same
          subst isNode
          rw [if_pos rfl] at leaf
          refine absurd free ((core.mem_holds_iff mem).mp
            (core.locked_leaf_held mem leaf fun unlocked => whole ⟨leaf, unlocked⟩))
        · rw [if_neg same] at leaf differs ⊢
          exact carried old oldMem leaf differs
      · refine spares.popped wf fun other otherHas => ?_
        show other ∈ (st.freeNodeMamba node).nodes ↔ _
        rw [cleared, mem_modify]
        constructor
        · rintro ⟨old, oldMem, rfl⟩
          by_cases same : old.path = node.path
          · rw [if_pos same] at otherHas
            cases otherHas
          · rw [if_neg same]
            exact ⟨oldMem, same⟩
        · rintro ⟨old, differs⟩
          exact ⟨other, old, (if_neg differs).symm⟩

/-! ### The two evictions -/

variable {cache : HybridRadixCache}

theorem HybridInv.evictFull (inv : HybridInv ps locks cache) (numTokens : Nat) :
    HybridInv ps locks (cache.evictFull numTokens).1 ∧
      (snapshots (cache.evictFull numTokens).1.tier.nodes ++
        (cache.evictFull numTokens).2.mambaSlots).Perm (snapshots cache.tier.nodes) ∧
      (heldPages (cache.evictFull numTokens).1.tier.nodes ++
        (cache.evictFull numTokens).2.kvIndices).Perm (heldPages cache.tier.nodes) := by
  obtain ⟨shed, carried, -, -⟩ := evictFullFrom_spec numTokens (cache.tier.nodes.length + 1)
    ⟨cache, [], [], 0⟩ (cache.tier.nodes.filter fun node =>
      isLeaf cache.tier.nodes node.path ∧ node.data.refCount = 0) inv.core inv.carried
    (leafHeap_collect inv.wf) (Nat.lt_succ_self _)
  have slots := shed.slots
  have pages := shed.pages
  rw [append_nil] at slots pages
  exact ⟨⟨shed.pageSize.trans inv.pageSize, shed.core, carried⟩, slots, pages⟩

theorem HybridInv.evictMamba (inv : HybridInv ps locks cache) (num : Nat) :
    HybridInv ps locks (cache.evictMamba num).1 ∧ (snapshots (cache.evictMamba num).1.tier.nodes ++
        (cache.evictMamba num).2.mambaSlots).Perm (snapshots cache.tier.nodes) ∧
      (heldPages (cache.evictMamba num).1.tier.nodes ++
        (cache.evictMamba num).2.kvIndices).Perm (heldPages cache.tier.nodes) ∧
      (cache.evictMamba num).1.mambaEvictable + (cache.evictMamba num).2.mambaSlots.length =
        cache.mambaEvictable ∧
      (cache.evictMamba num).2.mambaSlots.length ≤ num ∧
      ((cache.evictMamba num).2.mambaSlots.length = num ∨
        (cache.evictMamba num).1.mambaEvictable = 0) := by
  have nodup : cache.tier.nodes.Nodup := Nodup.of_map _ inv.wf.paths_nodup
  have evicted := evictMambaFrom_spec num (cache.tier.nodes.length + 1) ⟨cache, [], [], 0⟩
    (cache.tier.nodes.filter fun node =>
      node.data.mambaValue.isSome ∧ node.data.mambaRefCount = 0) inv.core inv.carried
    ⟨fun node => by
      rw [mem_filter, decide_eq_true_iff]
      exact Iff.rfl, nodup.filter _⟩
    (Nat.lt_succ_of_le (length_filter_le _ _))
  have slots := evicted.shed.slots
  have pages := evicted.shed.pages
  have spare := evicted.shed.spare
  have count := evicted.count
  have bound := evicted.bound
  have enough := evicted.enough
  rw [append_nil] at slots pages
  rw [length_nil, Nat.cast_zero, add_zero] at spare
  rw [length_nil, add_zero, zero_add] at count
  rw [max_eq_left (Nat.zero_le _), ← count] at bound
  rw [← count] at enough
  exact ⟨⟨evicted.shed.pageSize.trans inv.pageSize, evicted.shed.core, evicted.carried⟩, slots,
    pages, spare, bound, enough.imp_left (Nat.le_antisymm bound)⟩

end FreeToken
