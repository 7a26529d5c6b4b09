/-
**Every node of the sliding-window tree has a slot for each of its tokens.**

`FullNodes`, through all operations: a cut shares the slots out (`fullNodes_split`), locks and
tombstones leave them, an eviction takes them with the node, and an insertion that brings a slot for
every token gives each new or revived node its own (`insert_full`).
-/

import FreeToken.KVCache.RadixRefinement
import FreeToken.KVCache.SWAOperations
import FreeToken.Lib.Traverse

namespace FreeToken

open PageTree List

namespace SWARadixCache

variable {locks : List SWALock} {cache : SWARadixCache} {nodes : List RadixTreeNode}

/-! ### What leaves the slots as they are -/

theorem fullNodes_remove (full : FullNodes nodes) (word : List Token) :
    FullNodes (PageTree.remove nodes word) :=
  fun node mem => full node (mem_remove.mp mem).1

theorem fullNodes_kept {other : List RadixTreeNode} (full : FullNodes nodes)
    (kept : Kept nodes other) : FullNodes other := by
  intro node mem
  obtain ⟨old, oldMem, same⟩ := kept.old mem
  have value : node.data.value = old.data.value := congrArg (fun node => node.data.value) same.symm
  have key : node.key = old.key := congrArg (fun node => node.key) same.symm
  have size := full old oldMem
  unfold Seg.length at size ⊢
  rw [value, key]
  exact size

theorem fullNodes_stampFrom (base : Int) (path : List RadixTreeNode) (off : Nat)
    (full : FullNodes nodes) : FullNodes (stampFrom base path off nodes) := by
  induction path generalizing off nodes with
  | nil => exact full
  | cons cur path ih => exact ih (off + 1) (fullNodes_modify full _ fun _ => rfl)

def MatchState.meet (window : Nat) (st : MatchState) (child : RadixTreeNode) : MatchState :=
  if child.data.swaTombstone then { st.commit window with matchSinceTomb := some 0 } else st

theorem meet_tree {window : Nat} {st : MatchState} (child : RadixTreeNode) :
    (st.meet window child).tree = st.tree := by
  unfold MatchState.meet MatchState.commit
  split
  · split <;> rfl
  · rfl

theorem matchFrom_full (ps window : Nat) (fuel : Nat) (st : MatchState) (rest : List Token)
    (wf : WF ps st.tree) (full : FullNodes st.tree) :
    FullNodes (matchFrom ps window fuel st rest).tree := by
  induction fuel generalizing st rest with
  | zero => exact full
  | succ fuel ih =>
    rw [matchFrom]
    by_cases empty : rest = []
    · rw [if_pos empty]
      exact full
    rw [if_neg empty]
    rcases found : child? ps st.tree st.node rest with _ | child
    · exact full
    simp only
    have meets : (if child.data.swaTombstone = true then
        { st.commit window with matchSinceTomb := some 0 } else st) = st.meet window child := rfl
    rw [meets]
    have tree : (st.meet window child).tree = st.tree := meet_tree child
    split
    · rw [tree]
      exact full
    split
    · rename_i cut
      rw [tree]
      exact fullNodes_split wf full (child?_mem found) cut
    · refine ih _ _ ?_ ?_
      · show WF ps (st.meet window child).tree
        rw [tree]
        exact wf
      · show FullNodes (st.meet window child).tree
        rw [tree]
        exact full

theorem matchPrefix_full (inv : Inv locks cache) (full : FullNodes cache.tier.nodes)
    (inputIds : List Token) : FullNodes (cache.matchPrefix inputIds).1.tier.nodes := by
  have walked := matchFrom_full cache.pageSize cache.slidingWindowSize inputIds.length
    ⟨cache.tier.nodes, [], [], none, 0, []⟩ inputIds inv.wf full
  refine fullNodes_stampFrom _ _ 0 ?_
  unfold MatchState.commit
  split
  · exact walked
  · exact walked

/-! ### Evictions -/

theorem cascade_full (fuel : Nat) (st : EvictState) (word : List Token)
    (full : FullNodes st.cache.tier.nodes) :
    FullNodes (cascadeSwaTombstoneLeaves fuel st word).1.cache.tier.nodes := by
  induction fuel generalizing st word with
  | zero => exact full
  | succ fuel ih =>
    rw [cascadeSwaTombstoneLeaves]
    split
    · exact full
    · split
      · exact ih _ _ (fullNodes_remove full _)
      · exact full

theorem dropLeaf_full (st : EvictState) (node : RadixTreeNode)
    (full : FullNodes st.cache.tier.nodes) :
    FullNodes (st.dropLeaf node).cache.tier.nodes := by
  unfold EvictState.dropLeaf
  split
  · exact fullNodes_remove full _
  · exact fullNodes_remove full _

theorem evictFullFrom_full (numTokens fuel : Nat) (st : EvictState) (leaves : List RadixTreeNode)
    (full : FullNodes st.cache.tier.nodes) :
    FullNodes (evictFullFrom numTokens fuel st leaves).cache.tier.nodes := by
  induction fuel generalizing st leaves with
  | zero => exact full
  | succ fuel ih =>
    rw [evictFullFrom]
    split
    · exact full
    split
    · exact full
    · split
      · exact ih _ _ full
      · exact ih _ _ (cascade_full _ _ _ (dropLeaf_full _ _ full))

theorem evictSwaFrom_full (numTokens fuel : Nat) (st : EvictState) (cands : List RadixTreeNode)
    (full : FullNodes st.cache.tier.nodes) :
    FullNodes (evictSwaFrom numTokens fuel st cands).cache.tier.nodes := by
  induction fuel generalizing st cands with
  | zero => exact full
  | succ fuel ih =>
    rw [evictSwaFrom]
    split
    · exact full
    split
    · exact full
    · split
      · exact ih _ _ full
      split
      · exact ih _ _ (cascade_full _ _ _ (dropLeaf_full _ _ full))
      · exact ih _ _ (fullNodes_modify full _ fun _ => rfl)

theorem trimFrom_full (keepFrom fuel : Nat) (cache : SWARadixCache) (word rest : List Token)
    (freed : List Nat) (full : FullNodes cache.tier.nodes) :
    FullNodes (trimFrom keepFrom fuel cache word rest freed).1.tier.nodes := by
  induction fuel generalizing cache word rest freed with
  | zero => exact full
  | succ fuel ih =>
    rw [trimFrom]
    split
    · exact full
    split
    · exact full
    · split
      · exact full
      split
      · exact ih _ _ _ _ (fullNodes_modify full _ fun _ => rfl)
      · exact ih _ _ _ _ full

theorem trimHeadSwa_full (inv : Inv locks cache) (full : FullNodes cache.tier.nodes)
    (inputIds : List Token) (keepFrom : Nat) :
    FullNodes (cache.trimHeadSwa inputIds keepFrom).1.tier.nodes := by
  unfold SWARadixCache.trimHeadSwa
  split
  · exact full
  · exact trimFrom_full keepFrom _ _ _ _ _ (matchPrefix_full inv full _)

/-! ### Insertions -/

theorem revive_full (wf : WF cache.pageSize cache.tier.nodes) (full : FullNodes cache.tier.nodes)
    {node : RadixTreeNode} (mem : node ∈ cache.tier.nodes) {value : List Nat}
    (size : value.length = node.length) : FullNodes (cache.revive node value).tier.nodes := by
  intro new newMem
  obtain ⟨old, oldMem, rfl⟩ := mem_modify.mp newMem
  split
  · rename_i here
    rw [wf.eq_of_path oldMem mem here]
    exact size
  · exact full old oldMem

theorem addChild_full (full : FullNodes cache.tier.nodes) (parent ids : List Token)
    {kv : List Nat} (size : kv.length = ids.length) (tombstone : Bool) :
    FullNodes (cache.addChild parent ids kv tombstone).tier.nodes := by
  intro node mem
  rcases mem_append.mp mem with old | new
  · exact full node old
  · rw [mem_singleton.mp new]
    exact size

theorem reconcile_full (wf : WF cache.pageSize cache.tier.nodes)
    (full : FullNodes cache.tier.nodes) {child : RadixTreeNode}
    (mem : child ∈ cache.tier.nodes) {segKv : List Nat} (size : segKv.length = child.length)
    {total swaEvictedSeqlen updateKvAfterLen : Nat} (aligned : cache.pageSize ∣ swaEvictedSeqlen)
    (totalEq : total = child.parent.length) {res : SWARadixCache × List Nat}
    (run : cache.reconcile child segKv total swaEvictedSeqlen updateKvAfterLen = .ok res) :
    FullNodes res.1.tier.nodes := by
  unfold SWARadixCache.reconcile at run
  split at run
  · split at run
    · obtain ⟨-, -, run⟩ := bind_ok_iff.mp run
      split at run
      · cases run
        exact full
      split at run
      · cases run
        exact revive_full wf full mem size
      split at run
      · rename_i after lt
        cases run
        have startDvd : cache.pageSize ∣ swaEvictedSeqlen - total :=
          Nat.dvd_sub aligned (totalEq ▸ wf.parent_dvd mem)
        have pos : 0 < swaEvictedSeqlen - total := by omega
        have within : swaEvictedSeqlen - total < child.length := by omega
        have tailMem := (@FullTier.mem_splitNode _ _ wf _ mem
          (swaEvictedSeqlen - total) _).mpr (.inr (.inl rfl))
        refine @revive_full (cache.withNodes
          (splitNode cache.tier.nodes child (swaEvictedSeqlen - total)))
          (wf.splitAt mem pos within startDvd _ _)
          (fullNodes_split wf full mem within) _ tailMem _ ?_
        rw [FullTier.splitTail_length, length_drop, size]
      · cases run
        exact full
    · cases run
      exact full
  · cases run
    exact full

/-- **The matching loop of `insert`** gives a revived node the slots of its tokens. -/
theorem insertFrom_full (kvIndices : List Nat) {swaEvictedSeqlen : Nat} (updateKvAfterLen ps : Nat)
    (aligned : ps ∣ swaEvictedSeqlen) :
    ∀ (fuel : Nat) (cache : SWARadixCache) (node rest : List Token) (freed : List Nat)
      (res : SWARadixCache × List Token × List Nat), cache.pageSize = ps → Inv locks cache →
      FullNodes cache.tier.nodes → node.length + rest.length ≤ kvIndices.length →
      insertFrom kvIndices swaEvictedSeqlen updateKvAfterLen fuel cache node rest freed =
        .ok res → FullNodes res.1.tier.nodes := by
  intro fuel
  induction fuel with
  | zero =>
    intro cache node rest freed res _ _ full _ run
    cases run
    exact full
  | succ fuel ih =>
    intro cache node rest freed res pageSize inv full enough run
    subst pageSize
    rw [insertFrom] at run
    by_cases empty : rest = []
    · rw [if_pos empty] at run
      cases run
      exact full
    rw [if_neg empty] at run
    rcases found : child? cache.pageSize cache.tier.nodes node rest with _ | child
    · rw [found] at run
      cases run
      exact full
    rw [found] at run
    have mem := child?_mem found
    have parent := (child?_spec found).1
    have pos := matchLen_pos inv.wf found
    have fits := matchLen_le_rest child rest cache.pageSize
    have upper := matchLen_le child rest cache.pageSize
    have matchDvd := dvd_alignDown (getMatchLen child.key rest) cache.pageSize
    have seg : (slice kvIndices node.length
        (node.length + alignDown (getMatchLen child.key rest) cache.pageSize)).length =
        alignDown (getMatchLen child.key rest) cache.pageSize := by
      rw [slice_length]
      omega
    simp only at run
    rw [if_neg (by omega)] at run
    by_cases cut : alignDown (getMatchLen child.key rest) cache.pageSize < child.length
    · rw [if_pos cut] at run
      obtain ⟨after, reconciled, done⟩ := bind_ok_iff.mp run
      cases done
      have headMem := (@FullTier.mem_splitNode _ _ inv.wf _ mem
        (alignDown (getMatchLen child.key rest) cache.pageSize) _).mpr (.inl rfl)
      refine @reconcile_full (cache.withNodes (splitNode cache.tier.nodes child
        (alignDown (getMatchLen child.key rest) cache.pageSize)))
        (inv.split mem pos cut matchDvd).wf (fullNodes_split inv.wf full mem cut)
        _ headMem _ ?_ _ _ _ aligned (congrArg length parent.symm) _ reconciled
      rw [FullTier.splitHead_length cut]
      exact seg
    · rw [if_neg cut] at run
      have whole : alignDown (getMatchLen child.key rest) cache.pageSize = child.length := by omega
      obtain ⟨after, reconciled, rest_⟩ := bind_ok_iff.mp run
      obtain ⟨other, otherRun, inv', -, pageSize, -⟩ := inv.reconcile mem
        (slice kvIndices node.length
          (node.length + alignDown (getMatchLen child.key rest) cache.pageSize))
        aligned updateKvAfterLen (congrArg length parent.symm)
      cases otherRun.symm.trans reconciled
      have next := reconcile_full inv.wf full mem (seg.trans whole) aligned
        (congrArg length parent.symm) reconciled
      refine ih _ _ _ _ _ pageSize inv' next ?_ rest_
      rw [whole, length_drop, child.path_length, parent]
      omega

theorem addSuffix_full (full : FullNodes cache.tier.nodes) (node : List Token) {ids : List Token}
    {kv : List Nat} (sizes : kv.length = ids.length) (inputLen swaEvictedSeqlen : Nat) :
    FullNodes (cache.addSuffix node ids kv inputLen swaEvictedSeqlen).tier.nodes := by
  unfold SWARadixCache.addSuffix
  dsimp only
  generalize min (min swaEvictedSeqlen inputLen - node.length) (ids.length - cache.pageSize) = tomb
  split
  · split
    · have head : FullNodes (cache.addChild node (ids.take tomb) (kv.take tomb) true).tier.nodes :=
        addChild_full full node (ids.take tomb) (by rw [length_take, length_take, sizes]) true
      split
      · exact addChild_full head _ _ (by rw [length_drop, length_drop, sizes]) _
      · exact head
    · exact addChild_full full _ _ sizes _
  · exact full

theorem insert_full (inv : Inv locks cache) (full : FullNodes cache.tier.nodes)
    {inputIds : List Token} {kvIndices : List Nat} (sized : kvIndices.length = inputIds.length)
    {swaEvictedSeqlen updateKvAfterLen : Nat} (aligned : cache.pageSize ∣ swaEvictedSeqlen)
    {res : SWARadixCache × Nat × List Nat}
    (run : cache.insert inputIds kvIndices swaEvictedSeqlen updateKvAfterLen = .ok res) :
    FullNodes res.1.tier.nodes := by
  obtain ⟨after, inserted, done⟩ := bind_ok_iff.mp run
  cases done
  have pre := insertFrom_full (kvIndices.take (alignDown inputIds.length cache.pageSize))
    updateKvAfterLen cache.pageSize aligned _ _ _ _ _ _ rfl inv full
    (by rw [length_nil, zero_add, length_take, length_take, sized]) inserted
  have sizes : ((kvIndices.take (alignDown inputIds.length cache.pageSize)).drop
      after.2.1.length).length = ((inputIds.take (alignDown inputIds.length cache.pageSize)).drop
        after.2.1.length).length := by
    rw [length_drop, length_drop, length_take, length_take, sized]
  exact addSuffix_full pre after.2.1 sizes _ _

/-! ### Any interleaving -/

/-- One operation, where an insertion brings a slot for every token, as those of the requests do. -/
inductive SizedStep : LockedTree → LockedTree → Prop where
  | matchPrefix (st : LockedTree) (inputIds : List Token) :
      SizedStep st ⟨(st.cache.matchPrefix inputIds).1, st.locks⟩
  | insert (st : LockedTree) (inputIds : List Token) (kvIndices : List Nat)
      (sized : kvIndices.length = inputIds.length) (swaEvictedSeqlen updateKvAfterLen : Nat)
      (aligned : st.cache.pageSize ∣ swaEvictedSeqlen) (res : SWARadixCache × Nat × List Nat)
      (run : st.cache.insert inputIds kvIndices swaEvictedSeqlen updateKvAfterLen = .ok res) :
      SizedStep st ⟨res.1, st.locks⟩
  | incLock (st : LockedTree) (node : List Token) (stored : Stored st.cache.tier.nodes node) :
      SizedStep st ⟨(st.cache.incLock node).1,
        newLock st.cache (st.cache.incLock node).1 node (st.cache.incLock node).2 :: st.locks⟩
  | decLock (st : LockedTree) (lock : SWALock) (rest : List SWALock)
      (outstanding : st.locks.Perm (lock :: rest)) (cache : SWARadixCache)
      (run : st.cache.decLock lock.node lock.uuid = .ok cache) : SizedStep st ⟨cache, rest⟩
  | evictFull (st : LockedTree) (numTokens : Nat) :
      SizedStep st ⟨(st.cache.evictFull numTokens).1, st.locks⟩
  | evictSwa (st : LockedTree) (numTokens : Nat) :
      SizedStep st ⟨(st.cache.evictSwa numTokens).1, st.locks⟩
  | trimHeadSwa (st : LockedTree) (inputIds : List Token) (keepFrom : Nat) :
      SizedStep st ⟨(st.cache.trimHeadSwa inputIds keepFrom).1, st.locks⟩

theorem SizedStep.step {st next : LockedTree} (step : SizedStep st next) : Step st next := by
  cases step with
  | matchPrefix inputIds => exact .matchPrefix st inputIds
  | insert inputIds kvIndices sized frontier after aligned res run =>
    exact .insert st inputIds kvIndices frontier after aligned res run
  | incLock node stored => exact .incLock st node stored
  | decLock lock rest outstanding cache run => exact .decLock st lock rest outstanding cache run
  | evictFull numTokens => exact .evictFull st numTokens
  | evictSwa numTokens => exact .evictSwa st numTokens
  | trimHeadSwa inputIds keepFrom => exact .trimHeadSwa st inputIds keepFrom

/-- **The states of a tree whose insertions bring a slot for every token.** -/
inductive Filled (ps window : Nat) : LockedTree → Prop where
  | init : Filled ps window ⟨new ps window, []⟩
  | step {st next : LockedTree} (reached : Filled ps window st) (step : SizedStep st next) :
      Filled ps window next

theorem Filled.reachable {ps window : Nat} {st : LockedTree} (filled : Filled ps window st) :
    Reachable ps window st := by
  induction filled with
  | init => exact .init
  | step _ step reachable => exact .step reachable step.step

/-- The nodes of such a tree are full. -/
theorem Filled.full {ps window : Nat} (pos : 0 < ps) (windowPos : 0 < window)
    {st : LockedTree} (filled : Filled ps window st) : FullNodes st.cache.tier.nodes := by
  induction filled with
  | init => exact fun node mem => absurd mem not_mem_nil
  | @step st next reached step full =>
    have inv := reached.reachable.inv pos windowPos
    cases step with
    | matchPrefix inputIds => exact matchPrefix_full inv full inputIds
    | insert inputIds kvIndices sized frontier after aligned res run =>
      exact insert_full inv full sized aligned run
    | incLock node stored => exact fullNodes_kept full (inv.incLock stored).2.1
    | decLock lock rest outstanding cache run =>
      obtain ⟨other, otherRun, -, kept, -⟩ := inv.decLock outstanding
      cases otherRun.symm.trans run
      exact fullNodes_kept full kept
    | evictFull numTokens => exact evictFullFrom_full _ _ _ _ full
    | evictSwa numTokens => exact evictSwaFrom_full _ _ _ _ full
    | trimHeadSwa inputIds keepFrom => exact trimHeadSwa_full inv full inputIds keepFrom

end SWARadixCache

end FreeToken
