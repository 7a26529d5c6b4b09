/-
**Every operation of the sliding-window tree keeps its invariant, and the two-tier lock is exact.**

* **`lock_exact`**: in every reachable state the references of every node are what the outstanding
  locks took, and every outstanding lock can be given back.
-/

import FreeToken.KVCache.SWALocks

namespace FreeToken

open PageTree List

namespace SWARadixCache

variable {locks : List SWALock} {cache : SWARadixCache}

/-! ### Match -/

theorem matchFrom_inv (ps window : Nat) (same : cache.pageSize = ps) :
    ∀ (fuel : Nat) (st : MatchState) (rest : List Token), Inv locks (cache.withNodes st.tree) →
      Stored st.tree st.node → Stored st.tree st.bestNode →
      Inv locks (cache.withNodes (matchFrom ps window fuel st rest).tree) ∧
      Stored (matchFrom ps window fuel st rest).tree (matchFrom ps window fuel st rest).node ∧
      Stored (matchFrom ps window fuel st rest).tree
        (matchFrom ps window fuel st rest).bestNode := by
  intro fuel
  induction fuel with
  | zero => exact fun st rest inv stored best => ⟨inv, stored, best⟩
  | succ fuel ih =>
    intro st rest inv stored best
    rw [matchFrom]
    by_cases empty : rest = []
    · rw [if_pos empty]
      exact ⟨inv, stored, best⟩
    rw [if_neg empty]
    rcases found : child? ps st.tree st.node rest with _ | child
    · exact ⟨inv, stored, best⟩
    -- committing the boundary at the parent touches the best node only
    simp only
    generalize held : (if child.data.swaTombstone = true then
      { st.commit window with matchSinceTomb := some 0 } else st : MatchState) = now
    have tree : now.tree = st.tree := by
      rw [← held]
      unfold MatchState.commit
      split <;> [split; skip] <;> rfl
    have node : now.node = st.node := by
      rw [← held]
      unfold MatchState.commit
      split <;> [split; skip] <;> rfl
    have bestNow : Stored now.tree now.bestNode := by
      rw [tree, ← held]
      unfold MatchState.commit
      split
      · split
        · exact stored
        · exact best
      · exact best
    rw [← tree] at inv stored found
    have mem := child?_mem found
    have wf : WF ps now.tree := same ▸ inv.wf
    have pos := matchLen_pos wf found
    rw [if_neg (by omega)]
    by_cases cut : alignDown (getMatchLen child.key rest) ps < child.length
    · rw [if_pos cut]
      have aligned := dvd_alignDown (getMatchLen child.key rest) ps
      exact ⟨inv.split mem pos cut (same ▸ aligned), stored_splitHead wf mem _,
        bestNow.split wf mem _⟩
    · rw [if_neg cut]
      exact ih (now.enter child) _ inv (Stored.of_mem mem) bestNow

theorem stampFrom_inv (base : Int) :
    ∀ (path : List RadixTreeNode) (off : Nat) (tree : List RadixTreeNode),
      Inv locks (cache.withNodes tree) → Inv locks (cache.withNodes (stampFrom base path off tree)) := by
  intro path
  induction path with
  | nil => exact fun _ _ inv => inv
  | cons cur path ih => exact fun off tree inv => ih (off + 1) _ (inv.stampNode cur.path (base - off))

theorem stampFrom_stored (base : Int) {word : List Token} :
    ∀ (path : List RadixTreeNode) (off : Nat) (tree : List RadixTreeNode),
      Stored tree word → Stored (stampFrom base path off tree) word := by
  intro path
  induction path with
  | nil => exact fun _ _ stored => stored
  | cons cur path ih => exact fun off tree stored => ih (off + 1) _ (stored.modify _ _)

theorem Inv.stampPath (inv : Inv locks cache) (node : List Token) :
    Inv locks (cache.stampPath node) := stampFrom_inv _ _ 0 _ inv.tick

theorem commit_spec (window : Nat) (st : MatchState) (inv : Inv locks (cache.withNodes st.tree))
    (node : Stored st.tree st.node) (best : Stored st.tree st.bestNode) :
    Inv locks (cache.withNodes (st.commit window).tree) ∧
      Stored (st.commit window).tree (st.commit window).bestNode := by
  unfold MatchState.commit
  split
  · exact ⟨inv, node⟩
  · exact ⟨inv, best⟩

theorem Inv.matchPrefix (inv : Inv locks cache) (inputIds : List Token) :
    Inv locks (cache.matchPrefix inputIds).1 ∧
      Stored (cache.matchPrefix inputIds).1.tier.nodes (cache.matchPrefix inputIds).2.node := by
  obtain ⟨walked, node, best⟩ := matchFrom_inv cache.pageSize cache.slidingWindowSize rfl
    inputIds.length ⟨cache.tier.nodes, [], [], none, 0, []⟩ inputIds inv (Stored.root _)
    (Stored.root _)
  obtain ⟨committed, bestStored⟩ := commit_spec cache.slidingWindowSize _ walked node best
  exact ⟨committed.stampPath _, stampFrom_stored _ _ 0 _ bestStored⟩

/-! ### Insert -/

theorem Inv.reconcile (inv : Inv locks cache) {child : RadixTreeNode}
    (mem : child ∈ cache.tier.nodes) (segKv : List Nat) {swaEvictedSeqlen : Nat}
    (aligned : cache.pageSize ∣ swaEvictedSeqlen) (updateKvAfterLen : Nat) {total : Nat}
    (totalEq : total = child.parent.length) :
    ∃ res, cache.reconcile child segKv total swaEvictedSeqlen updateKvAfterLen = .ok res ∧
      Inv locks res.1 ∧ Stored res.1.tier.nodes child.path ∧
      res.1.pageSize = cache.pageSize ∧
      ∀ rest, child? cache.pageSize cache.tier.nodes child.path rest = none →
        child? cache.pageSize res.1.tier.nodes child.path rest = none := by
  unfold SWARadixCache.reconcile
  have here := Stored.of_mem mem
  by_cases fresh : updateKvAfterLen < total + child.length
  swap
  · rw [if_neg fresh]
    exact ⟨_, rfl, inv, here, rfl, fun _ missing => missing⟩
  rw [if_pos fresh]
  by_cases dead : child.data.swaTombstone = true
  swap
  · rw [if_neg dead]
    exact ⟨_, rfl, inv, here, rfl, fun _ missing => missing⟩
  have unheld : child.data.swaRefCount = 0 := by rw [inv.counts.swaRef child mem, if_pos dead]
  rw [if_pos dead, ensure_of unheld]
  by_cases locked : 0 < child.data.refCount
  · simp only [if_pos locked]
    exact ⟨_, rfl, inv, here, rfl, fun _ missing => missing⟩
  simp only [if_neg locked]
  have unlocked : child.data.refCount = 0 := by
    have := inv.full.counts.refCount child mem
    have := through_nonneg (locks.map SWALock.node) child.path
    omega
  by_cases whole : swaEvictedSeqlen ≤ total
  · simp only [if_pos whole]
    exact ⟨_, rfl, inv.revive mem dead unlocked segKv, here.modify _ _, rfl,
      fun _ missing => child?_modify _ _ missing⟩
  simp only [if_neg whole]
  by_cases lt : swaEvictedSeqlen < total + child.length
  · simp only [if_pos lt]
    have totalDvd : cache.pageSize ∣ total := totalEq ▸ inv.wf.parent_dvd mem
    have startDvd : cache.pageSize ∣ swaEvictedSeqlen - total := Nat.dvd_sub aligned totalDvd
    have split := inv.split mem (by omega) (by omega) startDvd
    have tailMem := (@FullTier.mem_splitNode _ _ inv.wf _ mem (swaEvictedSeqlen - total) _).mpr
      (Or.inr (Or.inl rfl))
    have tailStored : Stored (splitNode cache.tier.nodes child (swaEvictedSeqlen - total))
        child.path := here.split inv.wf mem _
    exact ⟨_, rfl, split.revive tailMem dead unlocked _, tailStored.modify _ _, rfl,
      fun _ missing => child?_modify _ _ (child?_splitNode inv.wf mem (by omega) missing)⟩
  · simp only [if_neg lt]
    exact ⟨_, rfl, inv, here, rfl, fun _ missing => missing⟩

/-- **The matching loop of `insert`** never fails; it ends at a stored prefix of the ids, and the
rest has no child to go on with. -/
theorem insertFrom_inv (kvIndices : List Nat) {swaEvictedSeqlen : Nat} (updateKvAfterLen ps : Nat)
    (aligned : ps ∣ swaEvictedSeqlen) :
    ∀ (fuel : Nat) (cache : SWARadixCache) (node rest : List Token) (freed : List Nat),
      cache.pageSize = ps → Inv locks cache → Stored cache.tier.nodes node → rest.length ≤ fuel →
      ∃ res, insertFrom kvIndices swaEvictedSeqlen updateKvAfterLen fuel cache node rest freed =
          .ok res ∧
        Inv locks res.1 ∧ res.1.pageSize = ps ∧ Stored res.1.tier.nodes res.2.1 ∧
        ∃ size ≤ rest.length, res.2.1 = node ++ rest.take size ∧ (rest.drop size = [] ∨
            child? ps res.1.tier.nodes res.2.1 (rest.drop size) = none) := by
  intro fuel
  induction fuel with
  | zero =>
    intro cache node rest freed pageSize inv stored enough
    have empty : rest = [] := length_eq_zero_iff.mp (Nat.le_zero.mp enough)
    exact ⟨_, rfl, inv, pageSize, stored, 0, Nat.zero_le _, by simp, Or.inl (by simp [empty])⟩
  | succ fuel ih =>
    intro cache node rest freed pageSize inv stored enough
    subst pageSize
    rw [insertFrom]
    by_cases empty : rest = []
    · rw [if_pos empty]
      exact ⟨_, rfl, inv, rfl, stored, 0, Nat.zero_le _, by simp, Or.inl (by simp [empty])⟩
    rw [if_neg empty]
    rcases found : child? cache.pageSize cache.tier.nodes node rest with _ | child
    · exact ⟨_, rfl, inv, rfl, stored, 0, Nat.zero_le _, by simp, Or.inr (by simpa using found)⟩
    have mem := child?_mem found
    have parent := (child?_spec found).1
    have pos := matchLen_pos inv.wf found
    have fits := matchLen_le_rest child rest cache.pageSize
    have upper := matchLen_le child rest cache.pageSize
    have matchDvd := dvd_alignDown (getMatchLen child.key rest) cache.pageSize
    simp only
    rw [if_neg (by omega)]
    by_cases cut : alignDown (getMatchLen child.key rest) cache.pageSize < child.length
    · rw [if_pos cut]
      have headMem := (@FullTier.mem_splitNode _ _ inv.wf _ mem
        (alignDown (getMatchLen child.key rest) cache.pageSize) _).mpr (Or.inl rfl)
      obtain ⟨res, run, inv', stored', pageSize, quiet⟩ :=
        (inv.split mem pos cut matchDvd).reconcile headMem
          (slice kvIndices node.length
            (node.length + alignDown (getMatchLen child.key rest) cache.pageSize))
          aligned updateKvAfterLen (congrArg length parent.symm)
      rw [run]
      exact ⟨_, rfl, inv', pageSize, stored', _, fits, splitHead_path_of_found found,
        Or.inr (quiet _ (child?_splitHead inv.wf found cut))⟩
    · rw [if_neg cut]
      have full : alignDown (getMatchLen child.key rest) cache.pageSize = child.length := by omega
      obtain ⟨res, run, inv', stored', pageSize, _⟩ := inv.reconcile mem
        (slice kvIndices node.length
          (node.length + alignDown (getMatchLen child.key rest) cache.pageSize))
        aligned updateKvAfterLen (congrArg length parent.symm)
      have restSize : (rest.drop child.length).length ≤ fuel := by
        rw [length_drop]
        omega
      rw [run, full]
      obtain ⟨last, lastRun, lastInv, lastPage, lastStored, size, within, path, stop⟩ := ih
        res.1 child.path (rest.drop child.length) (freed ++ res.2) pageSize inv' stored'
        restSize
      rw [length_drop] at within
      refine ⟨last, lastRun, lastInv, lastPage, lastStored, child.length + size, by omega, ?_, ?_⟩
      · rw [path, path_of_full found full, append_assoc, take_add]
      · rwa [drop_drop] at stop

theorem Inv.addSuffix (inv : Inv locks cache) {node ids : List Token}
    (stored : Stored cache.tier.nodes node) (kv : List Nat) {insertLen swaEvictedSeqlen : Nat}
    (size : ids.length = insertLen - node.length) (insertDvd : cache.pageSize ∣ insertLen)
    (aligned : cache.pageSize ∣ swaEvictedSeqlen)
    (stop : ids = [] ∨ child? cache.pageSize cache.tier.nodes node ids = none) :
    Inv locks (cache.addSuffix node ids kv insertLen swaEvictedSeqlen) := by
  have nodeDvd := stored.dvd inv.wf
  unfold SWARadixCache.addSuffix
  by_cases more : node.length < insertLen
  swap
  · simp only [if_neg more]
    exact inv
  simp only [if_pos more]
  have sizeDvd : cache.pageSize ∣ ids.length := size ▸ Nat.dvd_sub insertDvd nodeDvd
  have pos : 0 < ids.length := by omega
  have pageFits : cache.pageSize ≤ ids.length := Nat.le_of_dvd pos sizeDvd
  have fresh : child? cache.pageSize cache.tier.nodes node ids = none := by
    rcases stop with rfl | fresh
    · simp at pos
    · exact fresh
  have pagePos := inv.pagePositive
  have boundDvd : cache.pageSize ∣ min (min swaEvictedSeqlen insertLen - node.length)
      (ids.length - cache.pageSize) :=
    dvd_min (Nat.dvd_sub (dvd_min aligned insertDvd) nodeDvd) (Nat.dvd_sub sizeDvd (dvd_refl _))
  have boundFits : min (min swaEvictedSeqlen insertLen - node.length)
      (ids.length - cache.pageSize) ≤ ids.length - cache.pageSize := min_le_right _ _
  generalize min (min swaEvictedSeqlen insertLen - node.length) (ids.length - cache.pageSize) =
    boundary at *
  by_cases dead : 0 < boundary
  swap
  · simp only [if_neg dead]
    exact inv.addChild pos sizeDvd stored fresh kv false
  simp only [if_pos dead]
  have headLength : (ids.take boundary).length = boundary := by
    rw [length_take]
    omega
  have headFresh : child? cache.pageSize cache.tier.nodes node (ids.take boundary) = none := by
    have fits : cache.pageSize ≤ boundary := Nat.le_of_dvd dead boundDvd
    unfold child? at fresh ⊢
    rwa [take_take, min_eq_left fits]
  have head := inv.addChild (headLength.symm ▸ dead) (headLength.symm ▸ boundDvd) stored headFresh
    (kv.take boundary) true
  have tailLength : (ids.drop boundary).length = ids.length - boundary := length_drop
  have tailNonempty : ids.drop boundary ≠ [] := by
    intro empty
    rw [empty, length_nil] at tailLength
    omega
  rw [if_pos tailNonempty]
  refine head.addChild (by omega) ?_ ?_ ?_ _ _
  · rw [tailLength]
    exact Nat.dvd_sub sizeDvd boundDvd
  · exact Stored.of_mem (mem_append_right _ (mem_singleton.mpr rfl))
  · exact child?_insertLeaf inv.wf (headLength.symm ▸ dead) (headLength.symm ▸ boundDvd) stored
      headFresh _ _

theorem Inv.insert (inv : Inv locks cache) (inputIds : List Token) (kvIndices : List Nat)
    {swaEvictedSeqlen : Nat} (aligned : cache.pageSize ∣ swaEvictedSeqlen)
    (updateKvAfterLen : Nat) :
    ∃ res, cache.insert inputIds kvIndices swaEvictedSeqlen updateKvAfterLen = .ok res ∧
      Inv locks res.1 := by
  have insertDvd := dvd_alignDown inputIds.length cache.pageSize
  have insertLe := alignDown_le inputIds.length cache.pageSize
  obtain ⟨res, run, inv', pageSize, stored, size, within, path, stop⟩ := insertFrom_inv
    (kvIndices.take (alignDown inputIds.length cache.pageSize)) updateKvAfterLen cache.pageSize
    aligned (inputIds.take (alignDown inputIds.length cache.pageSize)).length cache []
    (inputIds.take (alignDown inputIds.length cache.pageSize)) [] rfl inv (Stored.root _) le_rfl
  unfold SWARadixCache.insert
  simp only [run]
  refine ⟨_, rfl, ?_⟩
  rw [nil_append] at path
  have depth : res.2.1.length = size := by
    rw [path, length_take]
    exact min_eq_left within
  refine inv'.addSuffix stored _ ?_ (pageSize.symm ▸ insertDvd) (pageSize.symm ▸ aligned) ?_
  · rw [length_drop, length_take, min_eq_left insertLe]
  · rw [depth, pageSize]
    exact stop

/-! ### Eviction -/

structure Heap (tree heap : List RadixTreeNode) : Prop where
  inTree : ∀ node ∈ heap, node ∈ tree
  distinct : (heap.map Seg.path).Nodup

theorem Heap.filter {ps : Nat} {tree : List RadixTreeNode} (wf : WF ps tree)
    (keep : RadixTreeNode → Bool) : Heap tree (tree.filter keep) where
  inTree := fun _ mem => (mem_filter.mp mem).1
  distinct := wf.paths_nodup.sublist (filter_sublist.map _)

theorem Heap.pop {tree heap rest : List RadixTreeNode} {node : RadixTreeNode}
    (all : Heap tree heap) (popped : popOldest heap = some (node, rest)) :
    node ∈ tree ∧ Heap tree rest ∧ ∀ other ∈ rest, other.path ≠ node.path := by
  have perm := popOldest_perm popped
  have nodup := (perm.map Seg.path).nodup_iff.mp all.distinct
  obtain ⟨apart, nodup⟩ := nodup_cons.mp nodup
  refine ⟨all.inTree node (perm.mem_iff.mpr mem_cons_self),
    ⟨fun other mem => all.inTree other (perm.mem_iff.mpr (mem_cons_of_mem _ mem)),
      nodup⟩, fun other mem same => apart ?_⟩
  exact mem_map.mpr ⟨other, mem, same⟩

theorem Heap.remove {tree heap : List RadixTreeNode} (all : Heap tree heap) {word : List Token}
    (apart : ∀ other ∈ heap, other.path ≠ word) : Heap (PageTree.remove tree word) heap where
  inTree := fun node mem => mem_remove.mpr ⟨all.inTree node mem, apart node mem⟩
  distinct := all.distinct

theorem Heap.modify {tree heap : List RadixTreeNode} (all : Heap tree heap) {word : List Token}
    (change : RadixTreeNode → NodeData) (apart : ∀ other ∈ heap, other.path ≠ word) :
    Heap (PageTree.modify tree word change) heap where
  inTree := fun node mem => FullTier.mem_modify_of_ne (all.inTree node mem) (apart node mem)
  distinct := all.distinct

theorem cascade_inv {heap : List RadixTreeNode} :
    ∀ (fuel : Nat) (st : EvictState) (word : List Token), Inv locks st.cache →
      Heap st.cache.tier.nodes heap →
      (∀ node ∈ heap, node.data.swaTombstone = true →
        isLeaf st.cache.tier.nodes node.path = true ∧ node.path ≠ word) →
      Inv locks (cascadeSwaTombstoneLeaves fuel st word).1.cache ∧
      Heap (cascadeSwaTombstoneLeaves fuel st word).1.cache.tier.nodes heap ∧
      (∀ other, isLeaf st.cache.tier.nodes other = true →
        isLeaf (cascadeSwaTombstoneLeaves fuel st word).1.cache.tier.nodes other = true) ∧
      (∀ other, isLeaf st.cache.tier.nodes other = true → other ≠ word →
        other ≠ (cascadeSwaTombstoneLeaves fuel st word).2) ∧
      (cascadeSwaTombstoneLeaves fuel st word).1.cache.pageSize = st.cache.pageSize := by
  intro fuel
  induction fuel with
  | zero => exact fun st word inv all _ => ⟨inv, all, fun _ leaf => leaf, fun _ _ apart => apart, rfl⟩
  | succ fuel ih =>
    intro st word inv all apart
    rw [cascadeSwaTombstoneLeaves]
    rcases found : node? st.cache.tier.nodes word with _ | parent
    · exact ⟨inv, all, fun _ leaf => leaf, fun _ _ apart => apart, rfl⟩
    simp only
    split
    swap
    · exact ⟨inv, all, fun _ leaf => leaf, fun _ _ apart => apart, rfl⟩
    next exposed =>
    obtain ⟨dead, leaf, unlocked⟩ := exposed
    have mem := node?_mem found
    have path := node?_path found
    have unlinked := inv.unlink mem (path.symm ▸ leaf) unlocked
    rw [if_pos dead] at unlinked
    -- a tombstone of the heap was a leaf before, the parent was not
    have away : ∀ other ∈ heap, other.path ≠ parent.path := by
      intro other otherMem same
      have equal := inv.wf.eq_of_path (all.inTree other otherMem) mem same
      exact (apart other otherMem (equal ▸ dead)).2 (same.trans path)
    have leaves : ∀ other, isLeaf st.cache.tier.nodes other = true →
        isLeaf (PageTree.remove st.cache.tier.nodes parent.path) other = true := by
      intro other otherLeaf
      refine isLeaf_iff.mpr fun node nodeMem => ?_
      exact isLeaf_iff.mp otherLeaf node (mem_remove.mp nodeMem).1
    obtain ⟨inv', all', leaves', away', pageSize⟩ := ih
      { st with
        cache := (st.cache.spendFull parent.length).unlink parent
        kv := st.kv ++ parent.data.value
        freed := st.freed + parent.length } parent.parent unlinked (all.remove away)
      fun other otherMem otherDead => by
        have here := apart other otherMem otherDead
        refine ⟨leaves other.path here.1, fun same => ?_⟩
        exact isLeaf_iff.mp here.1 parent mem same.symm
    refine ⟨inv', all', fun other otherLeaf => leaves' other (leaves other otherLeaf),
      fun other otherLeaf _ => away' other (leaves other otherLeaf) fun same => ?_, pageSize⟩
    exact isLeaf_iff.mp otherLeaf parent mem same.symm

theorem dropLeaf_inv {st : EvictState} (inv : Inv locks st.cache) {node : RadixTreeNode}
    (mem : node ∈ st.cache.tier.nodes) (leaf : isLeaf st.cache.tier.nodes node.path = true)
    (unlocked : node.data.refCount = 0) :
    Inv locks (st.dropLeaf node).cache ∧
      (st.dropLeaf node).cache.tier.nodes = PageTree.remove st.cache.tier.nodes node.path ∧
      (st.dropLeaf node).cache.pageSize = st.cache.pageSize := by
  have unlinked := inv.unlink mem leaf unlocked
  refine ⟨unlinked, ?_, ?_⟩
  · unfold EvictState.dropLeaf
    simp only
    split <;> rfl
  · unfold EvictState.dropLeaf
    simp only
    split <;> rfl

theorem isLeaf_remove {tree : List RadixTreeNode} {word other : List Token}
    (leaf : isLeaf tree other = true) : isLeaf (PageTree.remove tree word) other = true :=
  isLeaf_iff.mpr fun node mem => isLeaf_iff.mp leaf node (mem_remove.mp mem).1

theorem evictFullFrom_inv (numTokens : Nat) :
    ∀ (fuel : Nat) (st : EvictState) (leaves : List RadixTreeNode), Inv locks st.cache →
      Heap st.cache.tier.nodes leaves →
      (∀ node ∈ leaves, isLeaf st.cache.tier.nodes node.path = true) →
      Inv locks (evictFullFrom numTokens fuel st leaves).cache ∧
      (evictFullFrom numTokens fuel st leaves).cache.pageSize = st.cache.pageSize := by
  intro fuel
  induction fuel with
  | zero => exact fun st leaves inv _ _ => ⟨inv, rfl⟩
  | succ fuel ih =>
    intro st leaves inv heap areLeaves
    rw [evictFullFrom]
    split
    · exact ⟨inv, rfl⟩
    rcases popped : popOldest leaves with _ | ⟨node, rest⟩
    · exact ⟨inv, rfl⟩
    obtain ⟨mem, heapRest, apart⟩ := heap.pop popped
    have restLeaves : ∀ other ∈ rest, isLeaf st.cache.tier.nodes other.path = true :=
      fun other otherMem => areLeaves other
        ((popOldest_perm popped).mem_iff.mpr (mem_cons_of_mem _ otherMem))
    simp only
    split
    · exact ih st rest inv heapRest restLeaves
    next free =>
    rw [not_or, not_not, Bool.not_eq_false] at free
    obtain ⟨unlocked, leaf⟩ := free
    obtain ⟨dropped, nodes, dropPage⟩ := dropLeaf_inv inv mem leaf unlocked
    have heapDropped : Heap (st.dropLeaf node).cache.tier.nodes rest :=
      nodes ▸ heapRest.remove apart
    have hangs : ∀ other ∈ rest, other.path ≠ node.parent := fun other otherMem same =>
      isLeaf_iff.mp (restLeaves other otherMem) node mem same.symm
    have droppedLeaves : ∀ other ∈ rest,
        isLeaf (st.dropLeaf node).cache.tier.nodes other.path = true := fun other otherMem =>
      nodes ▸ isLeaf_remove (restLeaves other otherMem)
    obtain ⟨cascaded, heapCascaded, leavesKept, away, cascadePage⟩ := cascade_inv
      st.cache.tier.nodes.length (st.dropLeaf node) node.parent dropped heapDropped
      fun other otherMem _ => ⟨droppedLeaves other otherMem, hangs other otherMem⟩
    generalize cascadeSwaTombstoneLeaves st.cache.tier.nodes.length (st.dropLeaf node)
      node.parent = after at *
    have restStill : ∀ other ∈ rest, isLeaf after.1.cache.tier.nodes other.path = true :=
      fun other otherMem => leavesKept other.path (droppedLeaves other otherMem)
    -- the surviving ancestor had a child, so it is not one of the leaves that wait
    have pushed : ∀ up, node? after.1.cache.tier.nodes after.2 = some up →
        Heap after.1.cache.tier.nodes (up :: rest) := by
      intro up found
      refine ⟨fun other otherMem => ?_, nodup_cons.mpr ⟨fun lt => ?_, heapCascaded.distinct⟩⟩
      · rcases mem_cons.mp otherMem with rfl | otherMem
        · exact node?_mem found
        · exact heapCascaded.inTree other otherMem
      · obtain ⟨other, otherMem, same⟩ := mem_map.mp lt
        exact away other.path (droppedLeaves other otherMem) (hangs other otherMem)
          (same.trans (node?_path found))
    rcases found : node? after.1.cache.tier.nodes after.2 with _ | up
    · obtain ⟨last, lastPage⟩ := ih after.1 rest cascaded heapCascaded restStill
      exact ⟨last, lastPage.trans (cascadePage.trans dropPage)⟩
    · simp only
      split
      · next exposed =>
        obtain ⟨last, lastPage⟩ := ih after.1 (up :: rest) cascaded (pushed up found)
          fun other otherMem => by
            rcases mem_cons.mp otherMem with rfl | otherMem
            · rw [node?_path found]
              exact exposed.1
            · exact restStill other otherMem
        exact ⟨last, lastPage.trans (cascadePage.trans dropPage)⟩
      · obtain ⟨last, lastPage⟩ := ih after.1 rest cascaded heapCascaded restStill
        exact ⟨last, lastPage.trans (cascadePage.trans dropPage)⟩

theorem Inv.evictFull (inv : Inv locks cache) (numTokens : Nat) :
    Inv locks (cache.evictFull numTokens).1 := by
  refine (evictFullFrom_inv numTokens _ ⟨cache, [], [], 0⟩ _ inv (Heap.filter inv.wf _) ?_).1
  intro node mem
  have kept := (mem_filter.mp mem).2
  simp only [decide_eq_true_eq] at kept
  exact kept.1

theorem evictSwaFrom_inv (numTokens : Nat) :
    ∀ (fuel : Nat) (st : EvictState) (cands : List RadixTreeNode), Inv locks st.cache →
      Heap st.cache.tier.nodes cands → (∀ node ∈ cands, node.data.swaTombstone = false) →
      Inv locks (evictSwaFrom numTokens fuel st cands).cache := by
  intro fuel
  induction fuel with
  | zero => exact fun st cands inv _ _ => inv
  | succ fuel ih =>
    intro st cands inv heap areLive
    rw [evictSwaFrom]
    split
    · exact inv
    rcases popped : popOldest cands with _ | ⟨node, rest⟩
    · exact inv
    obtain ⟨mem, heapRest, apart⟩ := heap.pop popped
    have perm := popOldest_perm popped
    have live := areLive node (perm.mem_iff.mpr mem_cons_self)
    have restLive : ∀ other ∈ rest, other.data.swaTombstone = false := fun other otherMem =>
      areLive other (perm.mem_iff.mpr (mem_cons_of_mem _ otherMem))
    simp only
    split
    · exact ih st rest inv heapRest restLive
    next free =>
    rw [not_or, not_not] at free
    split
    · next leaf =>
      obtain ⟨dropped, nodes, _⟩ := dropLeaf_inv inv mem leaf.1 leaf.2
      have heapDropped : Heap (st.dropLeaf node).cache.tier.nodes rest :=
        nodes ▸ heapRest.remove apart
      obtain ⟨cascaded, heapCascaded, _⟩ := cascade_inv st.cache.tier.nodes.length
        (st.dropLeaf node) node.parent dropped heapDropped fun other otherMem dead => by
          rw [restLive other otherMem] at dead
          cases dead
      exact ih _ rest cascaded heapCascaded restLive
    · exact ih (st.tombstone node) rest (inv.tombstone mem live free.2)
        (heapRest.modify _ apart) restLive

theorem Inv.evictSwa (inv : Inv locks cache) (numTokens : Nat) :
    Inv locks (cache.evictSwa numTokens).1 := by
  refine evictSwaFrom_inv numTokens _ ⟨cache, [], [], 0⟩ _ inv (Heap.filter inv.wf _) ?_
  intro node mem
  have kept := (mem_filter.mp mem).2
  simp only [decide_eq_true_eq] at kept
  exact kept.1

theorem trimFrom_inv (keepFrom : Nat) :
    ∀ (fuel : Nat) (cache : SWARadixCache) (word rest : List Token) (freed : List Nat),
      Inv locks cache → Inv locks (trimFrom keepFrom fuel cache word rest freed).1 := by
  intro fuel
  induction fuel with
  | zero => exact fun _ _ _ _ inv => inv
  | succ fuel ih =>
    intro cache word rest freed inv
    rw [trimFrom]
    split
    · exact inv
    rcases found : child? cache.pageSize cache.tier.nodes word rest with _ | child
    · exact inv
    simp only
    split
    · exact inv
    split
    · next free => exact ih _ _ _ _ (inv.tombstone (child?_mem found) free.1 free.2.1)
    · exact ih _ _ _ _ inv

theorem Inv.trimHeadSwa (inv : Inv locks cache) (inputIds : List Token) (keepFrom : Nat) :
    Inv locks (cache.trimHeadSwa inputIds keepFrom).1 := by
  unfold SWARadixCache.trimHeadSwa
  split
  · exact inv
  · exact trimFrom_inv keepFrom _ _ _ _ _ (inv.matchPrefix _).1

/-! ### Any interleaving -/

structure LockedTree where
  cache : SWARadixCache
  locks : List SWALock

/-- One operation. A lock is taken on a node of the tree, which is what a match returns, and a
release names an outstanding lock; the request's frontier is a page boundary, as its callers align
it. -/
inductive Step : LockedTree → LockedTree → Prop where
  | matchPrefix (st : LockedTree) (inputIds : List Token) :
      Step st ⟨(st.cache.matchPrefix inputIds).1, st.locks⟩
  | insert (st : LockedTree) (inputIds : List Token) (kvIndices : List Nat)
      (swaEvictedSeqlen updateKvAfterLen : Nat) (aligned : st.cache.pageSize ∣ swaEvictedSeqlen)
      (res : SWARadixCache × Nat × List Nat)
      (run : st.cache.insert inputIds kvIndices swaEvictedSeqlen updateKvAfterLen = .ok res) :
      Step st ⟨res.1, st.locks⟩
  | incLock (st : LockedTree) (node : List Token) (stored : Stored st.cache.tier.nodes node) :
      Step st ⟨(st.cache.incLock node).1,
        newLock st.cache (st.cache.incLock node).1 node (st.cache.incLock node).2 :: st.locks⟩
  | decLock (st : LockedTree) (lock : SWALock) (rest : List SWALock)
      (outstanding : st.locks.Perm (lock :: rest)) (cache : SWARadixCache)
      (run : st.cache.decLock lock.node lock.uuid = .ok cache) : Step st ⟨cache, rest⟩
  | evictFull (st : LockedTree) (numTokens : Nat) :
      Step st ⟨(st.cache.evictFull numTokens).1, st.locks⟩
  | evictSwa (st : LockedTree) (numTokens : Nat) :
      Step st ⟨(st.cache.evictSwa numTokens).1, st.locks⟩
  | trimHeadSwa (st : LockedTree) (inputIds : List Token) (keepFrom : Nat) :
      Step st ⟨(st.cache.trimHeadSwa inputIds keepFrom).1, st.locks⟩

/-- A tree with its outstanding locks, under any interleaving. -/
inductive Reachable (ps window : Nat) : LockedTree → Prop where
  | init : Reachable ps window ⟨new ps window, []⟩
  | step {st next : LockedTree} : Reachable ps window st → Step st next → Reachable ps window next

theorem Inv.step {st next : LockedTree} (inv : Inv st.locks st.cache) (step : Step st next) :
    Inv next.locks next.cache := by
  cases step with
  | matchPrefix inputIds => exact (inv.matchPrefix inputIds).1
  | insert inputIds kvIndices frontier after aligned res run =>
    obtain ⟨other, otherRun, kept⟩ := inv.insert inputIds kvIndices aligned after
    rw [run] at otherRun
    cases otherRun
    exact kept
  | incLock node stored => exact (inv.incLock stored).1
  | decLock lock rest outstanding cache run =>
    obtain ⟨other, otherRun, kept, _⟩ := inv.decLock outstanding
    rw [run] at otherRun
    cases otherRun
    exact kept
  | evictFull numTokens => exact inv.evictFull numTokens
  | evictSwa numTokens => exact inv.evictSwa numTokens
  | trimHeadSwa inputIds keepFrom => exact inv.trimHeadSwa inputIds keepFrom

theorem Reachable.inv {ps window : Nat} (pos : 0 < ps) (windowPos : 0 < window)
    {st : LockedTree} (reachable : Reachable ps window st) : Inv st.locks st.cache := by
  induction reachable with
  | init => exact inv_new ps window pos windowPos
  | step _ step inv => exact inv.step step

def fullTaken (locks : List SWALock) (node : RadixTreeNode) : Int :=
  (locks.map fun lock => if node.path <+: lock.node then 1 else 0).sum

def swaTaken (locks : List SWALock) (node : RadixTreeNode) (i : Nat) : Int :=
  (locks.map fun lock => if node.path <+: lock.node then lock.taken i else 0).sum

structure Exact (st : LockedTree) : Prop where
  /-- Full references cover window references. -/
  ordered : ∀ node ∈ st.cache.tier.nodes,
    0 ≤ node.data.swaRefCount ∧ node.data.swaRefCount ≤ node.data.refCount
  /-- A tombstone holds no window reference. -/
  tombstone : ∀ node ∈ st.cache.tier.nodes,
    node.data.swaTombstone = true → node.data.swaRefCount = 0
  full : ∀ node ∈ st.cache.tier.nodes, node.data.refCount = fullTaken st.locks node
  window : ∀ node ∈ st.cache.tier.nodes, ∀ i, node.parent.length ≤ i → i < node.path.length →
    node.data.swaRefCount = swaTaken st.locks node i
  /-- The boundary of every outstanding lock is where the lock put it. -/
  boundary : ∀ lock ∈ st.locks, lock.Boundary st.cache.tier.nodes
  /-- `dec_lock` succeeds and gives back what its `inc_lock` took, on every node. -/
  release : ∀ lock rest, st.locks.Perm (lock :: rest) →
    ∃ cache, st.cache.decLock lock.node lock.uuid = .ok cache ∧
      cache.tier.nodes.map strip = st.cache.tier.nodes.map strip ∧
      ∀ old ∈ st.cache.tier.nodes, ∀ new ∈ cache.tier.nodes, new.path = old.path →
        new.data.refCount = old.data.refCount - (if old.path <+: lock.node then 1 else 0) ∧
        ∀ i, old.parent.length ≤ i → i < old.path.length → new.data.swaRefCount =
            old.data.swaRefCount - if old.path <+: lock.node then lock.taken i else 0
  /-- Without outstanding locks there are no references. -/
  idle : st.locks = [] → ∀ node ∈ st.cache.tier.nodes,
    node.data.refCount = 0 ∧ node.data.swaRefCount = 0

theorem through_eq_fullTaken (locks : List SWALock) (node : RadixTreeNode) :
    through (locks.map SWALock.node) node.path = fullTaken locks node := by
  induction locks with
  | nil => rfl
  | cons lock locks ih =>
    rw [map_cons, through_cons, ih]
    unfold fullTaken
    rw [map_cons, sum_cons, Int.add_comm]

theorem windows_eq_swaTaken {nodes : List RadixTreeNode} {node : RadixTreeNode}
    (mem : node ∈ nodes) {i : Nat} (low : node.parent.length ≤ i) (high : i < node.path.length) :
    ∀ locks : List SWALock, (∀ lock ∈ locks, lock.Accounts nodes) →
      (if node.data.swaTombstone then 0 else windowThrough locks node.path) =
        swaTaken locks node i := by
  intro locks
  induction locks with
  | nil =>
    intro _
    split <;> rfl
  | cons lock locks ih =>
    intro accounts
    have rest := ih fun other otherMem => accounts other (mem_cons_of_mem _ otherMem)
    have here := accounts lock mem_cons_self node mem
    unfold swaTaken at rest ⊢
    rw [map_cons, sum_cons, ← rest, windowThrough_cons]
    by_cases onPath : node.path <+: lock.node
    · rw [if_pos onPath, here onPath i low high]
      unfold SWALock.holds
      by_cases dead : node.data.swaTombstone = true
      · simp [dead]
      · rw [Bool.not_eq_true] at dead
        simp only [dead, onPath, true_and, if_false, Bool.false_eq_true]
        ring
    · simp [onPath]

theorem Inv.exact_refs (inv : Inv locks cache) {node : RadixTreeNode}
    (mem : node ∈ cache.tier.nodes) :
    node.data.refCount = fullTaken locks node ∧ ∀ i, node.parent.length ≤ i → i < node.path.length →
        node.data.swaRefCount = swaTaken locks node i := by
  refine ⟨(inv.full.counts.refCount node mem).trans (through_eq_fullTaken locks node), ?_⟩
  intro i low high
  rw [inv.counts.swaRef node mem]
  exact windows_eq_swaTaken mem low high locks inv.windows.accounts

/-- **The two-tier lock is exact** in every reachable state. -/
theorem lock_exact {ps window : Nat} (pos : 0 < ps) (windowPos : 0 < window)
    {st : LockedTree} (reachable : Reachable ps window st) : Exact st := by
  have inv := reachable.inv pos windowPos
  refine {
    ordered := fun node mem => ⟨inv.swaRef_nonneg mem, inv.swaRef_le_refCount mem⟩
    tombstone := fun node mem dead => by rw [inv.counts.swaRef node mem, if_pos dead]
    full := fun node mem => (inv.exact_refs mem).1
    window := fun node mem => (inv.exact_refs mem).2
    boundary := inv.windows.boundary
    release := ?_
    idle := ?_ }
  · intro lock rest outstanding
    obtain ⟨cache, run, kept, same, _⟩ := inv.decLock outstanding
    refine ⟨cache, run, same.same, fun old oldMem new newMem path => ?_⟩
    obtain ⟨source, sourceMem, alike⟩ := same.old newMem
    obtain rfl := inv.wf.eq_of_path sourceMem oldMem ((strip_path alike).trans path)
    have pre := inv.exact_refs sourceMem
    have after := kept.exact_refs newMem
    have fullSplit : fullTaken st.locks source =
        (if source.path <+: lock.node then 1 else 0) + fullTaken rest source := by
      unfold fullTaken
      rw [(outstanding.map _).sum_eq, map_cons, sum_cons]
    refine ⟨?_, fun i low high => ?_⟩
    · rw [after.1, pre.1, fullSplit]
      unfold fullTaken
      rw [path]
      ring
    · have swaSplit : swaTaken st.locks source i =
          (if source.path <+: lock.node then lock.taken i else 0) + swaTaken rest source i := by
        unfold swaTaken
        rw [(outstanding.map _).sum_eq, map_cons, sum_cons]
      rw [after.2 i (strip_parent alike ▸ low) (path.symm ▸ high), pre.2 i low high, swaSplit]
      unfold swaTaken
      rw [path]
      ring
  · intro empty node mem
    have refs := inv.exact_refs mem
    rw [empty] at refs
    refine ⟨refs.1, ?_⟩
    have size := inv.wf.positive node mem
    have path := node.path_length
    exact refs.2 node.parent.length le_rfl (by omega)

def oneNode : SWARadixCache := (new 1 1).addChild [] [7, 8, 9] [0, 1, 2] false

/-- A run that inserts three tokens, locks their node and splits it by a shorter match. -/
theorem lock_exact_after_split : ∃ st, Reachable 1 1 st ∧ st.locks.length = 1 ∧
    st.cache.tier.nodes.length = 2 ∧ Exact st := by
  have inserted : (new 1 1).insert [7, 8, 9] [0, 1, 2] 0 0 = .ok (oneNode, 0, []) := by decide
  have stored : Stored oneNode.tier.nodes [7, 8, 9] := Or.inr (by decide)
  have reach := ((Reachable.init.step (.insert _ _ _ 0 0 (by decide) _ inserted)).step
    (.incLock _ [7, 8, 9] stored)).step (.matchPrefix _ [7, 8])
  exact ⟨_, reach, by decide, by decide, lock_exact (by decide) (by decide) reach⟩

end SWARadixCache

end FreeToken
