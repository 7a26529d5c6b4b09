/-
**Splits are invisible to later calls.**

* `insertFrom_cells`, `insert_same`: two trees that answer alike do so after the same insertion.
-/

import FreeToken.KVCache.SWAMatch

namespace FreeToken

open PageTree List

namespace SWARadixCache

variable {locks : List SWALock} {cache : SWARadixCache}

/-! ### What an insertion revives -/

/-- A dead page under no lock, past the request's own frontier and past the prefix it reused. -/
def Revives (locks : List SWALock) (cache : SWARadixCache)
    (swaEvictedSeqlen updateKvAfterLen : Nat) (word : List Token) : Prop :=
  DeadPage cache.pageSize cache.tier.nodes word ∧ (∀ lock ∈ locks, ¬word <+: lock.node) ∧
    swaEvictedSeqlen + cache.pageSize ≤ word.length ∧
    updateKvAfterLen + cache.pageSize ≤ word.length

/-- The page of a word in the slots of a request. -/
def requestPage (ps : Nat) (kvIndices : List Nat) (word : List Token) : List (Nat × Bool) :=
  ((kvIndices.drop (word.length - ps)).take ps).map fun slot => (slot, false)

theorem deadPage_congr {ps : Nat} {nodes other : List RadixTreeNode} {word : List Token}
    (wf : WF ps nodes) (full : FullNodes nodes) (wfOther : WF ps other)
    (fullOther : FullNodes other)
    (same : pageAt ps cells other word = pageAt ps cells nodes word) :
    DeadPage ps other word ↔ DeadPage ps nodes word := by
  rw [dead_iff_page wf full, dead_iff_page wfOther fullOther, tombs_of_cells, tombs_of_cells, same]

theorem unlocked_iff (inv : Inv locks cache) {child : RadixTreeNode}
    (mem : child ∈ cache.tier.nodes) {word : List Token}
    (covers : Covers cache.pageSize child word) :
    child.data.refCount = 0 ↔ ∀ lock ∈ locks, ¬word <+: lock.node :=
  (locked_iff inv.full mem covers).trans forall_mem_map

theorem revived_page {ps : Nat} {child : RadixTreeNode} {kvIndices : List Nat}
    {word : List Token} {data : NodeData} (covers : Covers ps child word)
    (lt : child.parent.length + ps ≤ word.length)
    (value : data.value = slice kvIndices child.parent.length child.path.length)
    (live : data.swaTombstone = false) :
    pageIn ps cells { child with data := data } word = requestPage ps kvIndices word := by
  have within := covers.2.2.length_le
  have start : child.parent.length + (word.length - ps - child.parent.length) =
      word.length - ps := by omega
  have size : min ps (child.path.length - (word.length - ps)) = ps := by omega
  unfold pageIn cells requestPage
  rw [value, live, ← map_drop, ← map_take]
  unfold slice
  rw [drop_drop, start, drop_take, take_take, size]

/-- **What became of a tree** when an insertion went over the words `here`: of these it revived
those of `Revives`, and it left every other as it was. -/
structure Revived (locks : List SWALock) (kvIndices : List Nat) (frontier after : Nat)
    (here : List Token → Prop) (cache next : SWARadixCache) : Prop where
  pageSize : next.pageSize = cache.pageSize
  window : next.slidingWindowSize = cache.slidingWindowSize
  pages : ∀ word, here word → Revives locks cache frontier after word →
    pageAt cache.pageSize cells next.tier.nodes word =
      some (requestPage cache.pageSize kvIndices word)
  rest : ∀ word, ¬(here word ∧ Revives locks cache frontier after word) →
    pageAt cache.pageSize cells next.tier.nodes word =
      pageAt cache.pageSize cells cache.tier.nodes word

theorem Revived.idle {kvIndices : List Nat} {frontier after : Nat} {here : List Token → Prop}
    (never : ∀ word, here word → ¬Revives locks cache frontier after word) :
    Revived locks kvIndices frontier after here cache cache :=
  ⟨rfl, rfl, fun word isHere revives => absurd revives (never word isHere), fun _ _ => rfl⟩

section Reconcile

variable (inv : Inv locks cache) {child : RadixTreeNode} (mem : child ∈ cache.tier.nodes)
  {kvIndices : List Nat} {frontier after : Nat} {word : List Token}

include inv mem

theorem covers_fits (covers : Covers cache.pageSize child word) :
    child.parent.length + cache.pageSize ≤ word.length ∧ word.length ≤ child.path.length :=
  ⟨page_between (inv.wf.parent_dvd mem) covers.1 covers.2.1, covers.2.2.length_le⟩

theorem revives_iff (dead : child.data.swaTombstone = true) (free : child.data.refCount = 0)
    (low : after ≤ child.parent.length) (covers : Covers cache.pageSize child word) :
    Revives locks cache frontier after word ↔ frontier + cache.pageSize ≤ word.length := by
  have fits := covers_fits inv mem covers
  refine ⟨fun revives => revives.2.2.1, fun past => ⟨⟨child, mem, covers, dead⟩,
    (unlocked_iff inv mem covers).mp free, past, by omega⟩⟩

/-- **A dead node whose slots are all the request's.** -/
theorem revive_whole (dead : child.data.swaTombstone = true) (free : child.data.refCount = 0)
    (low : after ≤ child.parent.length) (whole : frontier ≤ child.parent.length) :
    Revived locks kvIndices frontier after (Covers cache.pageSize child) cache
      (cache.revive child (slice kvIndices child.parent.length child.path.length)) := by
  have page := fun word => @pageAt_modify_self _ _ _ _ cache.pageSize cells _ word inv.wf child
    mem fun old =>
    { old.data with
      value := slice kvIndices child.parent.length child.path.length
      swaTombstone := false
      timestamp := cache.tick.time }
  refine ⟨rfl, rfl, fun word covers _ => (page word).trans ?_, fun word apart =>
    (page word).trans (if_neg fun covers => apart ⟨covers, ?_⟩)⟩
  · rw [if_pos covers]
    exact congrArg some (revived_page covers (covers_fits inv mem covers).1 rfl rfl)
  · have fits := covers_fits inv mem covers
    exact (revives_iff inv mem dead free low covers).mpr (by omega)

/-- **A dead node that the request's frontier cuts.** -/
theorem revive_tail (dead : child.data.swaTombstone = true) (free : child.data.refCount = 0)
    (low : after ≤ child.parent.length) (aligned : cache.pageSize ∣ frontier)
    {start : Nat} (isStart : child.parent.length + start = frontier) (pos : 0 < start)
    (lt : start < child.length) :
    Revived locks kvIndices frontier after (Covers cache.pageSize child) cache
      ((cache.withNodes (splitNode cache.tier.nodes child start)).revive (splitTail child start)
        ((slice kvIndices child.parent.length child.path.length).drop start)) := by
  have wf := inv.wf
  have startDvd : cache.pageSize ∣ start :=
    (Nat.dvd_add_right (wf.parent_dvd mem)).mp (isStart ▸ aligned)
  have wfCut := wf.splitAt mem pos lt startDvd (NodeData.splitHead start)
    (NodeData.splitTail start)
  have tailMem := (@FullTier.mem_splitNode _ _ wf _ mem start _).mpr (.inr (.inl rfl))
  have path := FullTier.splitTail_path child start
  have parent : (splitTail child start).parent.length = frontier := by
    have tail := (splitTail child start).path_length
    have length := child.path_length
    rw [path, FullTier.splitTail_length] at tail
    omega
  have coversTail : ∀ word, Covers cache.pageSize (splitTail child start) word ↔
      Covers cache.pageSize child word ∧ frontier + cache.pageSize ≤ word.length := by
    intro word
    have pages := wf.page_positive mem
    unfold Covers
    rw [path, parent]
    constructor
    · rintro ⟨isDvd, past, onPath⟩
      exact ⟨⟨isDvd, by omega, onPath⟩, page_between aligned isDvd past⟩
    · rintro ⟨⟨isDvd, -, onPath⟩, past⟩
      exact ⟨isDvd, by omega, onPath⟩
  have page := fun word => @pageAt_modify_self _ _ _ _ cache.pageSize cells _ word wfCut _
    tailMem fun old =>
    { old.data with
      value := (slice kvIndices child.parent.length child.path.length).drop start
      swaTombstone := false
      timestamp := (cache.withNodes (splitNode cache.tier.nodes child start)).tick.time }
  have uncut := cells_split wf mem pos lt startDvd
  refine ⟨rfl, rfl, fun word covers revives => (page word).trans ?_, fun word apart =>
    ((page word).trans (if_neg fun covers => apart ?_)).trans (congrFun uncut word)⟩
  · have covers := (coversTail word).mpr ⟨covers, revives.2.2.1⟩
    rw [if_pos covers]
    refine congrArg some (revived_page covers (by rw [parent]; exact revives.2.2.1) ?_ rfl)
    rw [parent, path]
    unfold slice
    rw [drop_drop, isStart]
  · obtain ⟨covers, past⟩ := (coversTail word).mp covers
    exact ⟨covers, (revives_iff inv mem dead free low covers).mpr past⟩

/-- **One node of an insertion**, when the reused prefix does not end inside it. -/
theorem reconcile_revived (aligned : cache.pageSize ∣ frontier)
    (ends : after ≤ child.parent.length ∨ child.path.length ≤ after)
    {res : SWARadixCache × List Nat} {low high : Nat} (isLow : child.parent.length = low)
    (isHigh : child.path.length = high)
    (run : cache.reconcile child (slice kvIndices low high) low frontier after = .ok res) :
    Revived locks kvIndices frontier after (Covers cache.pageSize child) cache res.1 := by
  subst isLow isHigh
  have length := child.path_length
  have pages := inv.wf.page_positive mem
  unfold SWARadixCache.reconcile at run
  split at run
  swap
  · cases run
    refine .idle fun word covers revives => ?_
    have fits := covers_fits inv mem covers
    have past := revives.2.2.2
    omega
  split at run
  swap
  · rename_i live
    cases run
    refine .idle fun word covers revives => live ?_
    obtain ⟨⟨node, nodeMem, nodeCovers, dead⟩, -⟩ := revives
    rwa [inv.wf.covers_unique mem nodeMem covers nodeCovers]
  rename_i dead
  obtain ⟨-, -, run⟩ := bind_ok_iff.mp run
  split at run
  · rename_i locked
    cases run
    refine .idle fun word covers revives => ?_
    have free := (unlocked_iff inv mem covers).mpr revives.2.1
    omega
  rename_i unlocked
  have free : child.data.refCount = 0 := by
    have := inv.full.counts.refCount child mem
    have := through_nonneg (locks.map SWALock.node) child.path
    omega
  split at run
  · rename_i whole
    cases run
    exact revive_whole inv mem dead free (by omega) whole
  split at run
  · cases run
    exact revive_tail inv mem dead free (by omega) aligned (by omega) (by omega) (by omega)
  · cases run
    refine .idle fun word covers revives => ?_
    have fits := covers_fits inv mem covers
    have past := revives.2.2.1
    omega

omit inv in
theorem reconcile_stored (wf : WF cache.pageSize cache.tier.nodes) {segKv : List Nat} {low : Nat}
    {res : SWARadixCache × List Nat}
    (run : cache.reconcile child segKv low frontier after = .ok res)
    (stored : Stored cache.tier.nodes word) : Stored res.1.tier.nodes word := by
  unfold SWARadixCache.reconcile at run
  split at run
  · split at run
    · obtain ⟨-, -, run⟩ := bind_ok_iff.mp run
      split at run
      · cases run
        exact stored
      split at run
      · cases run
        exact stored.modify _ _
      split at run
      · cases run
        exact (stored.split wf mem _).modify _ _
      · cases run
        exact stored
    · cases run
      exact stored
  · cases run
    exact stored

end Reconcile

/-! ### The loop -/

section Loop

variable {mid last : SWARadixCache} {kvIndices : List Nat} {frontier after : Nat}
  {here other : List Token → Prop}

theorem Revived.widen (revived : Revived locks kvIndices frontier after here cache last)
    (agree : ∀ word, Revives locks cache frontier after word → (here word ↔ other word)) :
    Revived locks kvIndices frontier after other cache last :=
  ⟨revived.pageSize, revived.window, fun word isOther revives =>
    revived.pages word ((agree word revives).mpr isOther) revives, fun word apart =>
    revived.rest word fun both => apart ⟨(agree word both.2).mp both.1, both.2⟩⟩

theorem revives_congr (inv : Inv locks cache) (full : FullNodes cache.tier.nodes)
    (invMid : Inv locks mid) (fullMid : FullNodes mid.tier.nodes)
    (pageSize : mid.pageSize = cache.pageSize) {word : List Token}
    (same : pageAt cache.pageSize cells mid.tier.nodes word =
      pageAt cache.pageSize cells cache.tier.nodes word) :
    Revives locks mid frontier after word ↔ Revives locks cache frontier after word := by
  unfold Revives
  rw [pageSize]
  exact and_congr_left fun _ => deadPage_congr inv.wf full (pageSize ▸ invMid.wf) fullMid same

theorem Revived.uncut (inv : Inv locks cache) (full : FullNodes cache.tier.nodes)
    (invMid : Inv locks mid) (fullMid : FullNodes mid.tier.nodes)
    (pageSize : mid.pageSize = cache.pageSize)
    (window : mid.slidingWindowSize = cache.slidingWindowSize)
    (same : pageAt cache.pageSize cells mid.tier.nodes =
      pageAt cache.pageSize cells cache.tier.nodes)
    (revived : Revived locks kvIndices frontier after here mid last) :
    Revived locks kvIndices frontier after here cache last := by
  obtain ⟨lastSize, lastWindow, pages, rest⟩ := revived
  simp only [revives_congr inv full invMid fullMid pageSize (congrFun same _), pageSize, same]
    at pages rest
  exact ⟨lastSize.trans pageSize, lastWindow.trans window, pages, rest⟩

/-- **One more node**: first its words, then the longer ones. -/
theorem Revived.next (inv : Inv locks cache) (full : FullNodes cache.tier.nodes)
    (invMid : Inv locks mid) (fullMid : FullNodes mid.tier.nodes) {child : RadixTreeNode}
    {inputIds : List Token} (onIds : child.path <+: inputIds)
    (first : Revived locks kvIndices frontier after (Covers cache.pageSize child) cache mid)
    (second : Revived locks kvIndices frontier after
      (fun word => word <+: inputIds ∧ child.path.length < word.length) mid last) :
    Revived locks kvIndices frontier after
      (fun word => word <+: inputIds ∧ child.parent.length < word.length) cache last := by
  have length := child.path_length
  have beyond : ∀ word, child.path.length < word.length →
      (Revives locks mid frontier after word ↔ Revives locks cache frontier after word) :=
    fun word longer => revives_congr inv full invMid fullMid first.pageSize
      (first.rest word fun both => absurd both.1.2.2.length_le (not_le.mpr longer))
  obtain ⟨lastSize, lastWindow, pages, rest⟩ := second
  rw [first.pageSize] at lastSize pages rest
  refine ⟨lastSize, lastWindow.trans first.window, fun word isHere revives => ?_,
    fun word apart => ?_⟩
  · by_cases longer : child.path.length < word.length
    · exact pages word ⟨isHere.1, longer⟩ ((beyond word longer).mpr revives)
    · obtain ⟨node, -, covers, -⟩ := revives.1
      exact (rest word fun both => longer both.1.2).trans (first.pages word ⟨covers.1, isHere.2,
        prefix_of_le isHere.1 onIds (not_lt.mp longer)⟩ revives)
  · refine (rest word fun both => apart ?_).trans (first.rest word fun both => apart ?_)
    · exact ⟨⟨both.1.1, by have := both.1.2; omega⟩, (beyond word both.1.2).mp both.2⟩
    · exact ⟨⟨both.1.2.2.trans onIds, both.1.2.1⟩, both.2⟩

theorem Revived.stop (inv : Inv locks cache) {inputIds node : List Token}
    (stored : Stored cache.tier.nodes node) (onIds : node <+: inputIds)
    (stop : node = inputIds ∨
      child? cache.pageSize cache.tier.nodes node (inputIds.drop node.length) = none) :
    Revived locks kvIndices frontier after
      (fun word => word <+: inputIds ∧ node.length < word.length) cache cache :=
  Revived.idle fun _ isHere revives => by
    obtain ⟨owner, mem, covers, -⟩ := revives.1
    exact absurd isHere.2
      (not_lt.mpr (inv.wf.covered_le inv.pagePositive stored onIds stop mem covers isHere.1))

theorem ends_outside (wf : WF cache.pageSize cache.tier.nodes) {child : RadixTreeNode}
    (mem : child ∈ cache.tier.nodes) {inputIds : List Token} (onIds : child.path <+: inputIds)
    (reused : Stored cache.tier.nodes (inputIds.take after)) :
    after ≤ child.parent.length ∨ child.path.length ≤ after := by
  by_contra lt
  obtain ⟨above, below⟩ := not_or.mp lt
  have length := child.path_length
  have fits := onIds.length_le
  have size : (inputIds.take after).length = after := by
    rw [length_take]
    omega
  rcases reused with empty | ⟨node, nodeMem, path⟩
  · rw [empty, length_nil] at size
    omega
  · have onChild : node.path <+: child.path := by
      rw [path]
      exact prefix_of_le (List.take_prefix _ _) onIds (by omega)
    have differs : node ≠ child := by
      rintro rfl
      rw [← path] at size
      omega
    have short := (wf.path_prefix_parent nodeMem mem onChild differs).length_le
    rw [path] at short
    omega

end Loop

/-- **The matching loop of `insert`** revives what `Revives` says of the words that go on. -/
theorem insertFrom_revived (kvIndices : List Nat) {frontier ps : Nat} (after : Nat)
    {inputIds : List Token} (aligned : ps ∣ frontier) (sized : kvIndices.length = inputIds.length) :
    ∀ (fuel : Nat) (cache : SWARadixCache) (node : List Token) (freed : List Nat)
      (res : SWARadixCache × List Token × List Nat), cache.pageSize = ps → Inv locks cache →
      FullNodes cache.tier.nodes → node <+: inputIds → Stored cache.tier.nodes node →
      Stored cache.tier.nodes (inputIds.take after) → (inputIds.drop node.length).length ≤ fuel →
      insertFrom kvIndices frontier after fuel cache node (inputIds.drop node.length) freed =
        .ok res →
      Revived locks kvIndices frontier after
        (fun word => word <+: inputIds ∧ node.length < word.length) cache res.1 := by
  intro fuel
  induction fuel with
  | zero =>
    intro cache node freed res _ inv _ onIds stored _ enough run
    cases run
    exact .stop inv stored onIds (.inl (onIds.eq_of_length_le
      (drop_eq_nil_iff.mp (length_eq_zero_iff.mp (Nat.le_zero.mp enough)))))
  | succ fuel ih =>
    intro cache node freed res pageSize inv full onIds stored reused enough run
    subst pageSize
    rw [insertFrom] at run
    by_cases empty : inputIds.drop node.length = []
    · rw [if_pos empty] at run
      cases run
      exact .stop inv stored onIds (.inl (onIds.eq_of_length_le (drop_eq_nil_iff.mp empty)))
    rw [if_neg empty] at run
    rcases found : child? cache.pageSize cache.tier.nodes node (inputIds.drop node.length) with
      _ | child
    · rw [found] at run
      cases run
      exact .stop inv stored onIds (.inr found)
    rw [found] at run
    have mem := child?_mem found
    have parent := (child?_spec found).1
    have pos := matchLen_pos inv.wf found
    have upper := matchLen_le child (inputIds.drop node.length) cache.pageSize
    have matchDvd := dvd_alignDown (getMatchLen child.key (inputIds.drop node.length))
      cache.pageSize
    have fits := matchLen_le_rest child (inputIds.drop node.length) cache.pageSize
    rw [length_drop] at fits
    have start := congrArg length parent
    simp only at run
    rw [if_neg (by omega)] at run
    by_cases cut : alignDown (getMatchLen child.key (inputIds.drop node.length)) cache.pageSize <
        child.length
    · -- the walk ends at the head of the cut node
      rw [if_pos cut] at run
      obtain ⟨mid, reconciled, done⟩ := bind_ok_iff.mp run
      cases done
      have path := splitHead_path_of_found found
      have headOn := path ▸ step_onIds onIds _
      have headSize := congrArg length path
      rw [length_append, length_take, length_drop, min_eq_left fits] at headSize
      have stop := child?_splitHead inv.wf found cut
      rw [drop_drop, ← headSize] at stop
      have invCut := inv.split mem pos cut matchDvd
      have headMem := (@FullTier.mem_splitNode _ _ inv.wf _ mem
        (alignDown (getMatchLen child.key (inputIds.drop node.length)) cache.pageSize) _).mpr
        (.inl rfl)
      have revived := reconcile_revived invCut headMem aligned
        (ends_outside invCut.wf headMem headOn (reused.split inv.wf mem _)) start headSize
        reconciled
      refine Revived.uncut inv full invCut (fullNodes_split inv.wf full mem cut) rfl rfl
        (cells_split inv.wf mem pos cut matchDvd) (revived.widen fun word revives => ?_)
      obtain ⟨owner, ownerMem, covers, -⟩ := revives.1
      constructor
      · rintro ⟨-, longer, onHead⟩
        exact ⟨onHead.trans headOn, start ▸ longer⟩
      · rintro ⟨wordOn, longer⟩
        have short := invCut.wf.covered_le inv.pagePositive (stored_splitHead inv.wf mem _)
          headOn (.inr stop) ownerMem covers wordOn
        exact ⟨covers.1, start.symm ▸ longer, prefix_of_le wordOn headOn short⟩
    · rw [if_neg cut] at run
      have whole : alignDown (getMatchLen child.key (inputIds.drop node.length)) cache.pageSize =
          child.length := by omega
      obtain ⟨mid, reconciled, rest⟩ := bind_ok_iff.mp run
      have childOn := path_of_full found whole ▸ step_onIds onIds _
      have size : child.path.length = node.length + child.length := by rw [child.path_length, start]
      have short := childOn.length_le
      rw [whole] at reconciled rest
      have seg : (slice kvIndices node.length (node.length + child.length)).length =
          child.length := by
        rw [slice_length]
        omega
      obtain ⟨other, otherRun, invMid, stored, midSize, -⟩ := inv.reconcile mem
        (slice kvIndices node.length (node.length + child.length)) aligned after start.symm
      cases otherRun.symm.trans reconciled
      have fullMid := reconcile_full inv.wf full mem seg aligned start.symm reconciled
      have first := reconcile_revived inv mem aligned
        (ends_outside inv.wf mem childOn reused) start size reconciled
      rw [drop_drop, ← size] at rest
      have second := ih mid.1 child.path _ res midSize invMid fullMid childOn stored
        (reconcile_stored mem inv.wf reconciled reused) (by
          have some_ := inv.wf.positive child mem
          rw [length_drop] at enough ⊢
          omega) rest
      have revived := Revived.next inv full invMid fullMid childOn first second
      rwa [start] at revived

/-! ### Two trees -/

section Two

variable {left right third : SWARadixCache} {leftLocks rightLocks : List SWALock}

theorem SameAnswers.symm (wf : WF left.pageSize left.tier.nodes) (full : FullNodes left.tier.nodes)
    (same : SameAnswers left right) : SameAnswers right left :=
  ⟨same.pageSize.symm, same.window.symm, same.pageSize.symm ▸ wf, full,
    same.pageSize.symm ▸ same.cells.symm⟩

theorem SameAnswers.trans (one : SameAnswers left right) (two : SameAnswers right third) :
    SameAnswers left third :=
  ⟨two.pageSize.trans one.pageSize, two.window.trans one.window, one.pageSize ▸ two.wf, two.full,
    (one.pageSize ▸ two.cells).trans one.cells⟩

theorem leaf_cells {nodes other : List RadixTreeNode} (parent ids : List Token)
    {data new : NodeData} {ps : Nat} (same : pageAt ps cells other = pageAt ps cells nodes)
    (value : new.value = data.value) (mark : new.swaTombstone = data.swaTombstone) :
    pageAt ps cells (insertLeaf other parent ids new) =
      pageAt ps cells (insertLeaf nodes parent ids data) := by
  funext word
  have page : pageIn ps cells ⟨parent, ids, new⟩ word =
      pageIn ps cells ⟨parent, ids, data⟩ word := by
    unfold pageIn cells
    rw [value, mark]
  rw [pageAt_insertLeaf_or, pageAt_insertLeaf_or, same, page]
  rfl

theorem addChild_cells (parent ids : List Token) (kv : List Nat) (tombstone : Bool) {ps : Nat}
    (same : pageAt ps cells right.tier.nodes = pageAt ps cells left.tier.nodes) :
    pageAt ps cells (right.addChild parent ids kv tombstone).tier.nodes =
      pageAt ps cells (left.addChild parent ids kv tombstone).tier.nodes := by
  have stamped : ∀ now pre : Int, pageAt ps cells (insertLeaf right.tier.nodes parent ids
        { NodeData.fresh kv now with swaTombstone := tombstone }) =
      pageAt ps cells (insertLeaf left.tier.nodes parent ids
        { NodeData.fresh kv pre with swaTombstone := tombstone }) :=
    fun _ _ => leaf_cells parent ids same rfl rfl
  exact stamped right.tick.time left.tick.time

theorem addSuffix_sizes (node ids : List Token) (kv : List Nat) (insertLen frontier : Nat) :
    (cache.addSuffix node ids kv insertLen frontier).pageSize = cache.pageSize ∧
      (cache.addSuffix node ids kv insertLen frontier).slidingWindowSize =
        cache.slidingWindowSize := by
  unfold addSuffix
  dsimp only
  split
  · split
    · split <;> exact ⟨rfl, rfl⟩
    · exact ⟨rfl, rfl⟩
  · exact ⟨rfl, rfl⟩

theorem addSuffix_cells (node ids : List Token) (kv : List Nat) (insertLen frontier : Nat)
    {ps : Nat} (pageSize : right.pageSize = left.pageSize)
    (same : pageAt ps cells right.tier.nodes = pageAt ps cells left.tier.nodes) :
    pageAt ps cells (right.addSuffix node ids kv insertLen frontier).tier.nodes =
      pageAt ps cells (left.addSuffix node ids kv insertLen frontier).tier.nodes := by
  unfold addSuffix
  dsimp only
  rw [pageSize]
  split
  · split
    · split
      · exact addChild_cells _ _ _ _ (addChild_cells _ _ _ _ same)
      · exact addChild_cells _ _ _ _ same
    · exact addChild_cells _ _ _ _ same
  · exact same

/-- **The loops of two trees that answer alike** end at the same word, with trees that do. -/
theorem Revived.same {kvIndices : List Nat} {frontier after : Nat} {here : List Token → Prop}
    (inv : Inv leftLocks left) (full : FullNodes left.tier.nodes) (same : SameAnswers left right)
    (locks : ∀ word, (∀ lock ∈ rightLocks, ¬word <+: lock.node) ↔
      ∀ lock ∈ leftLocks, ¬word <+: lock.node) {leftNext rightNext : SWARadixCache}
    (one : Revived leftLocks kvIndices frontier after here left leftNext)
    (two : Revived rightLocks kvIndices frontier after here right rightNext) :
    pageAt left.pageSize cells rightNext.tier.nodes =
      pageAt left.pageSize cells leftNext.tier.nodes := by
  have agree : ∀ word, Revives rightLocks right frontier after word ↔
      Revives leftLocks left frontier after word := by
    intro word
    unfold Revives
    rw [same.pageSize, locks word,
      deadPage_congr inv.wf full same.wf same.full (congrFun same.cells word)]
  obtain ⟨-, -, pages, rest⟩ := two
  simp only [agree, same.pageSize] at pages rest
  funext word
  by_cases both : here word ∧ Revives leftLocks left frontier after word
  · rw [pages word both.1 both.2, one.pages word both.1 both.2]
  · rw [rest word both, one.rest word both, congrFun same.cells word]

theorem take_stored {ps after : Nat} {inputIds : List Token}
    (aligned : ps ∣ (inputIds.take after).length) :
    (inputIds.take (alignDown inputIds.length ps)).take after = inputIds.take after := by
  rw [length_take] at aligned
  have fits := le_alignDown aligned (min_le_right _ _)
  rw [take_take]
  rcases le_total after inputIds.length with low | high
  · rw [min_eq_left low] at fits
    rw [min_eq_left fits]
  · rw [min_eq_right high] at fits
    rw [take_of_length_le high, take_of_length_le (by omega)]

end Two

theorem insert_loop (inv : Inv locks cache) (full : FullNodes cache.tier.nodes)
    {inputIds : List Token} {kvIndices : List Nat} (sized : kvIndices.length = inputIds.length)
    {frontier after : Nat} (aligned : cache.pageSize ∣ frontier)
    (reused : Stored cache.tier.nodes (inputIds.take after))
    {res : SWARadixCache × Nat × List Nat}
    (run : cache.insert inputIds kvIndices frontier after = .ok res) :
    ∃ (mid : SWARadixCache) (node : List Token),
      Revived locks (kvIndices.take (alignDown inputIds.length cache.pageSize)) frontier after
        (fun word => word <+: inputIds.take (alignDown inputIds.length cache.pageSize) ∧
          0 < word.length) cache mid ∧
      PrefixStore.LongestStored cache.pageSize (storedPages cache.pageSize mid.tier.nodes)
        (inputIds.take (alignDown inputIds.length cache.pageSize)) node ∧
      res.1 = mid.addSuffix node
        ((inputIds.take (alignDown inputIds.length cache.pageSize)).drop node.length)
        ((kvIndices.take (alignDown inputIds.length cache.pageSize)).drop node.length)
        (alignDown inputIds.length cache.pageSize) frontier := by
  have pos := inv.pagePositive
  obtain ⟨mid, looped, done⟩ := bind_ok_iff.mp run
  cases done
  obtain ⟨other, otherRun, invMid, midSize, stored, size, within, path, stop⟩ :=
    insertFrom_inv (kvIndices.take (alignDown inputIds.length cache.pageSize)) after
      cache.pageSize aligned (inputIds.take (alignDown inputIds.length cache.pageSize)).length
      cache [] (inputIds.take (alignDown inputIds.length cache.pageSize)) [] rfl inv
      (Stored.root _) le_rfl
  cases otherRun.symm.trans looped
  have revived := insertFrom_revived
    (kvIndices.take (alignDown inputIds.length cache.pageSize)) after aligned
    (by rw [length_take, length_take, sized]) _ cache [] [] mid rfl inv full List.nil_prefix
    (Stored.root _) (by rwa [take_stored (reused.dvd inv.wf)]) le_rfl looped
  refine ⟨mid.1, mid.2.1, revived, ?_, rfl⟩
  rw [nil_append] at path
  have onIds := path ▸ List.take_prefix size _
  have long : mid.2.1.length = size := by
    rw [path, length_take]
    exact min_eq_left within
  have wfMid := invMid.wf
  rw [midSize] at wfMid
  rw [← long] at stop
  exact longestStored_of_stop pos wfMid stored onIds (stop.imp_left fun empty =>
    onIds.eq_of_length_le (drop_eq_nil_iff.mp empty))

theorem insert_same {left right : SWARadixCache} {leftLocks rightLocks : List SWALock}
    (inv : Inv leftLocks left) (full : FullNodes left.tier.nodes) (invRight : Inv rightLocks right)
    (same : SameAnswers left right)
    (locks : ∀ word, (∀ lock ∈ rightLocks, ¬word <+: lock.node) ↔
      ∀ lock ∈ leftLocks, ¬word <+: lock.node)
    {inputIds : List Token} {kvIndices : List Nat} (sized : kvIndices.length = inputIds.length)
    {frontier after : Nat} (aligned : left.pageSize ∣ frontier)
    (reused : Stored left.tier.nodes (inputIds.take after))
    (reusedRight : Stored right.tier.nodes (inputIds.take after))
    {res resultRight : SWARadixCache × Nat × List Nat}
    (run : left.insert inputIds kvIndices frontier after = .ok res)
    (runRight : right.insert inputIds kvIndices frontier after = .ok resultRight) :
    SameAnswers res.1 resultRight.1 := by
  have alignedRight : right.pageSize ∣ frontier := same.pageSize.symm ▸ aligned
  obtain ⟨mid, node, revived, longest, done⟩ := insert_loop inv full sized aligned reused run
  obtain ⟨midRight, nodeRight, revivedRight, longestRight, doneRight⟩ :=
    insert_loop invRight same.full sized alignedRight reusedRight runRight
  obtain ⟨other, otherRun, invLast⟩ := invRight.insert inputIds kvIndices alignedRight after
  cases otherRun.symm.trans runRight
  have fullLast := insert_full invRight same.full sized alignedRight runRight
  rw [same.pageSize] at revivedRight longestRight doneRight
  have cells := revived.same inv full same locks revivedRight
  have pages : storedPages left.pageSize midRight.tier.nodes =
      storedPages left.pageSize mid.tier.nodes := by
    funext word
    rw [pages_of_cells, pages_of_cells, cells]
  rw [pages] at longestRight
  obtain rfl := longest.unique longestRight
  have midSize := revivedRight.pageSize.trans (same.pageSize.trans revived.pageSize.symm)
  have midWindow := revivedRight.window.trans (same.window.trans revived.window.symm)
  have sizes := fun mid : SWARadixCache => mid.addSuffix_sizes node
    ((inputIds.take (alignDown inputIds.length left.pageSize)).drop node.length)
    ((kvIndices.take (alignDown inputIds.length left.pageSize)).drop node.length)
    (alignDown inputIds.length left.pageSize) frontier
  have pageSize : res.1.pageSize = left.pageSize :=
    done ▸ (sizes mid).1.trans revived.pageSize
  have pageSizeRight : resultRight.1.pageSize = left.pageSize :=
    doneRight ▸ (sizes midRight).1.trans (midSize.trans revived.pageSize)
  refine ⟨pageSizeRight.trans pageSize.symm, ?_, ?_, fullLast, ?_⟩
  · rw [done, doneRight, (sizes mid).2, (sizes midRight).2, midWindow]
  · rw [pageSize, ← pageSizeRight]
    exact invLast.wf
  · rw [pageSize, done, doneRight]
    exact addSuffix_cells _ _ _ _ _ midSize cells

/-! ### Calls -/

/-- The calls that evict nothing. -/
inductive SWACall where
  | matchPrefix (inputIds : List Token)
  | insert (inputIds : List Token) (kvIndices : List Nat) (swaEvictedSeqlen updateKvAfterLen : Nat)
  | incLock (node : List Token)
  | decLock (node : List Token)

/-- One call. The prefix that an inserting request reused ends at a node, as that of a locked handle
does: a tombstone that went on behind it would be revived as a whole. -/
inductive Called : LockedTree → SWACall → LockedTree → Prop where
  | matchPrefix (st : LockedTree) (inputIds : List Token) :
      Called st (.matchPrefix inputIds) ⟨(st.cache.matchPrefix inputIds).1, st.locks⟩
  | insert (st : LockedTree) (inputIds : List Token) (kvIndices : List Nat)
      (sized : kvIndices.length = inputIds.length) (swaEvictedSeqlen updateKvAfterLen : Nat)
      (aligned : st.cache.pageSize ∣ swaEvictedSeqlen)
      (reused : Stored st.cache.tier.nodes (inputIds.take updateKvAfterLen))
      (res : SWARadixCache × Nat × List Nat)
      (run : st.cache.insert inputIds kvIndices swaEvictedSeqlen updateKvAfterLen = .ok res) :
      Called st (.insert inputIds kvIndices swaEvictedSeqlen updateKvAfterLen)
        ⟨res.1, st.locks⟩
  | incLock (st : LockedTree) (node : List Token) (stored : Stored st.cache.tier.nodes node) :
      Called st (.incLock node) ⟨(st.cache.incLock node).1,
        newLock st.cache (st.cache.incLock node).1 node (st.cache.incLock node).2 :: st.locks⟩
  | decLock (st : LockedTree) (lock : SWALock) (rest : List SWALock)
      (outstanding : st.locks.Perm (lock :: rest)) (cache : SWARadixCache)
      (run : st.cache.decLock lock.node lock.uuid = .ok cache) :
      Called st (.decLock lock.node) ⟨cache, rest⟩

inductive Calls : LockedTree → List SWACall → LockedTree → Prop where
  | nil {st : LockedTree} : Calls st [] st
  | cons {st next last : LockedTree} {call : SWACall} {calls : List SWACall}
      (called : Called st call next) (rest : Calls next calls last) : Calls st (call :: calls) last

theorem Called.sized {st next : LockedTree} {call : SWACall} (called : Called st call next) :
    SizedStep st next := by
  cases called with
  | matchPrefix inputIds => exact .matchPrefix st inputIds
  | insert inputIds kvIndices sized frontier after aligned _ res run =>
    exact .insert st inputIds kvIndices sized frontier after aligned res run
  | incLock node stored => exact .incLock st node stored
  | decLock lock rest outstanding cache run => exact .decLock st lock rest outstanding cache run

/-- Two trees that answer alike, with the same words locked. -/
structure Alike (left right : LockedTree) : Prop where
  same : SameAnswers left.cache right.cache
  locks : (right.locks.map SWALock.node).Perm (left.locks.map SWALock.node)

theorem Alike.unlocked {left right : LockedTree} (alike : Alike left right) (word : List Token) :
    (∀ lock ∈ right.locks, ¬word <+: lock.node) ↔ ∀ lock ∈ left.locks, ¬word <+: lock.node := by
  have forAll := fun locks : List SWALock =>
    @forall_mem_map _ _ SWALock.node locks fun node => ¬word <+: node
  rw [← forAll, ← forAll]
  exact forall_congr' fun node => imp_congr_left alike.locks.mem_iff

section Alike

variable {ps window : Nat} (pos : 0 < ps) (windowPos : 0 < window)
  {left right leftNext rightNext : LockedTree} (filled : Filled ps window left)
  (filledRight : Filled ps window right) (alike : Alike left right)

include pos windowPos filled filledRight alike

theorem Alike.called {call : SWACall} (one : Called left call leftNext)
    (two : Called right call rightNext) : Alike leftNext rightNext := by
  have inv := filled.reachable.inv pos windowPos
  have invRight := filledRight.reachable.inv pos windowPos
  have full := filled.full pos windowPos
  cases one with
  | matchPrefix inputIds =>
    cases two
    have pre := ((SameAnswers.refl inv.wf full).matchPrefix inv.pagePositive inv.windowPositive
      inputIds).symm inv.wf full
    exact ⟨pre.trans (alike.same.matchPrefix inv.pagePositive inv.windowPositive inputIds),
      alike.locks⟩
  | insert inputIds kvIndices sized frontier after aligned reused res run =>
    cases two with
    | insert _ _ _ _ _ _ reusedRight resultRight runRight =>
      exact ⟨insert_same inv full invRight alike.same alike.unlocked sized aligned reused
        reusedRight run runRight, alike.locks⟩
  | incLock node stored =>
    cases two with
    | incLock _ storedRight =>
      obtain ⟨-, kept, sizes⟩ := inv.incLock stored
      obtain ⟨invNext, keptRight, sizesRight⟩ := invRight.incLock storedRight
      have pre := ((SameAnswers.refl inv.wf full).kept (inv.incLock stored).1 kept sizes).symm
        inv.wf full
      exact ⟨pre.trans (alike.same.kept invNext keptRight sizesRight), alike.locks.cons _⟩
  | decLock lock rest outstanding cache run =>
    generalize same : lock.node = word at two
    cases two with
    | decLock lockRight restRight outstandingRight cacheRight runRight =>
      obtain ⟨res, ran, invNext, kept, sizes⟩ := inv.decLock outstanding
      obtain ⟨resultRight, ranRight, invNextRight, keptRight, sizesRight⟩ :=
        invRight.decLock outstandingRight
      cases ran.symm.trans run
      cases ranRight.symm.trans runRight
      have pre := ((SameAnswers.refl inv.wf full).kept invNext kept sizes).symm inv.wf full
      have locks := ((outstandingRight.map SWALock.node).symm.trans alike.locks).trans
        (outstanding.map SWALock.node)
      rw [map_cons, map_cons, same] at locks
      exact ⟨pre.trans (alike.same.kept invNextRight keptRight sizesRight), locks.cons_inv⟩

/-- **Alike trees stay alike** under the same calls. -/
theorem Alike.calls {calls : List SWACall} (one : Calls left calls leftNext)
    (two : Calls right calls rightNext) :
    Filled ps window leftNext ∧ Alike leftNext rightNext := by
  induction one generalizing right with
  | nil =>
    cases two
    exact ⟨filled, alike⟩
  | cons called rest ih =>
    cases two with
    | cons calledRight restRight =>
      exact ih (filled.step called.sized) (filledRight.step calledRight.sized)
        (alike.called pos windowPos filled filledRight called calledRight) restRight

end Alike

end SWARadixCache

/-- **A match returns the longest prefix that can be reused.** In every reachable tree it is the
longest page-aligned prefix that is stored with a live window before its end, its slots in order and
its node; and whatever is matched, inserted, locked and unlocked behind it, until something is
evicted every match answers as it would have. -/
theorem swa_match_longest {ps window : Nat} (pos : 0 < ps) (windowPos : 0 < window)
    {st : SWARadixCache.LockedTree} (filled : SWARadixCache.Filled ps window st)
    (inputIds : List Token) :
    LongestReusable st.cache.pageSize st.cache.slidingWindowSize st.cache.tier.nodes inputIds
      (st.cache.matchPrefix inputIds).2.cachedLen ∧
    (st.cache.matchPrefix inputIds).2.kvIndices =
      pagesUpTo st.cache.pageSize (storedPages st.cache.pageSize st.cache.tier.nodes)
        (inputIds.take (st.cache.matchPrefix inputIds).2.cachedLen) ∧
    (st.cache.matchPrefix inputIds).2.node =
      inputIds.take (st.cache.matchPrefix inputIds).2.cachedLen ∧
    ∀ (calls : List SWARadixCache.SWACall) (without after : SWARadixCache.LockedTree),
      SWARadixCache.Calls st calls without →
      SWARadixCache.Calls ⟨(st.cache.matchPrefix inputIds).1, st.locks⟩ calls after →
      ∀ later, (after.cache.matchPrefix later).2 = (without.cache.matchPrefix later).2 := by
  have inv := filled.reachable.inv pos windowPos
  have full := filled.full pos windowPos
  obtain ⟨longest, slots, node⟩ := SWARadixCache.matchPrefix_longest inv.pagePositive
    inv.windowPositive inv.wf full inputIds
  refine ⟨longest, slots, node, fun calls without after one two later => ?_⟩
  have first := (SWARadixCache.SameAnswers.refl inv.wf full).matchPrefix inv.pagePositive
    inv.windowPositive inputIds
  obtain ⟨filledLast, alike⟩ := SWARadixCache.Alike.calls pos windowPos filled
    (filled.step (.matchPrefix st inputIds)) ⟨first, .refl _⟩ one two
  have invLast := filledLast.reachable.inv pos windowPos
  exact alike.same.answer invLast.pagePositive invLast.windowPositive invLast.wf
    (filledLast.full pos windowPos) later

/-- Behind a tombstone of two tokens the third can be reused alone, and a query that cuts the
tombstone changes nothing. -/
theorem swa_match_longest_tomb : ∃ st, SWARadixCache.Filled 1 1 st ∧
    LongestReusable 1 1 st.cache.tier.nodes [7, 8, 9] 3 ∧
    LongestReusable 1 1 st.cache.tier.nodes [7, 8, 5] 0 ∧
    ∀ later, (((st.cache.matchPrefix [7]).1.matchPrefix [7, 8, 9]).1.matchPrefix later).2 =
      ((st.cache.matchPrefix [7, 8, 9]).1.matchPrefix later).2 := by
  obtain ⟨res, run, pageSize, window, long, short⟩ : ∃ res,
      (SWARadixCache.new 1 1).insert [7, 8, 9] [0, 1, 2] 2 0 = .ok res ∧
      res.1.pageSize = 1 ∧ res.1.slidingWindowSize = 1 ∧
      (res.1.matchPrefix [7, 8, 9]).2.cachedLen = 3 ∧
      (res.1.matchPrefix [7, 8, 5]).2.cachedLen = 0 :=
    ⟨_, rfl, rfl, rfl, by decide, by decide⟩
  have filled := SWARadixCache.Filled.init.step
    (.insert _ [7, 8, 9] [0, 1, 2] rfl 2 0 (by decide) res run)
  have first := (swa_match_longest (by decide) (by decide) filled [7, 8, 9]).1
  have second := (swa_match_longest (by decide) (by decide) filled [7, 8, 5]).1
  rw [pageSize, window, long] at first
  rw [pageSize, window, short] at second
  have third := (swa_match_longest (by decide) (by decide) filled [7]).2.2.2 [.matchPrefix [7, 8, 9]]
    _ _ (.cons (.matchPrefix _ _) .nil) (.cons (.matchPrefix _ _) .nil)
  exact ⟨_, filled, first, second, third⟩

/-- **Evictions see splits**: they free whole nodes. Of two tokens stored in one node an eviction of
one token takes both, and only one after a query for the first. -/
theorem swa_evict_sees_splits : ¬∀ (ps window : Nat), 0 < ps → 0 < window →
    ∀ st, SWARadixCache.Filled ps window st → ∀ (inputIds later : List Token) (numTokens : Nat),
      (((st.cache.matchPrefix inputIds).1.evictSwa numTokens).1.matchPrefix later).2 =
        ((st.cache.evictSwa numTokens).1.matchPrefix later).2 := by
  intro unseen
  obtain ⟨res, run, split, whole⟩ : ∃ res,
      (SWARadixCache.new 1 1).insert [7, 8] [0, 1] 0 0 = .ok res ∧
      (((res.1.matchPrefix [7]).1.evictSwa 1).1.matchPrefix [7, 8]).2.cachedLen = 1 ∧
      ((res.1.evictSwa 1).1.matchPrefix [7, 8]).2.cachedLen = 0 :=
    ⟨_, rfl, by decide, by decide⟩
  have filled := SWARadixCache.Filled.init.step
    (.insert _ [7, 8] [0, 1] rfl 0 0 (by decide) res run)
  have same := unseen 1 1 (by decide) (by decide) _ filled [7] [7, 8] 1
  rw [same, whole] at split
  cases split

end FreeToken
