/-
**The pages that the plain tree holds.**
-/

import FreeToken.KVCache.RadixRefinement

namespace FreeToken

open PageTree List

/-! ### Page bases -/

section Stride

variable {ps : Nat}

theorem lt_divCeil {k n : Nat} (positive : 0 < ps) : k < divCeil n ps ↔ k * ps < n := by
  unfold divCeil
  rw [← Nat.add_one_le_iff, Nat.le_div_iff_mul_le positive, Nat.add_mul]
  omega

theorem le_divCeil_mul (n : Nat) (positive : 0 < ps) : n ≤ divCeil n ps * ps := by
  rw [← not_lt, ← lt_divCeil positive]
  exact lt_irrefl _

theorem divCeil_mul_add (a n : Nat) (positive : 0 < ps) :
    divCeil (a * ps + n) ps = a + divCeil n ps := by
  unfold divCeil
  rw [Nat.add_sub_assoc (by omega), Nat.add_assoc, Nat.mul_comm, ← Nat.add_sub_assoc (by omega),
    Nat.mul_add_div positive]

theorem divCeil_mul (a : Nat) (positive : 0 < ps) : divCeil (a * ps) ps = a := by
  have zero : divCeil 0 ps = 0 := Nat.div_eq_of_lt (by omega)
  have := divCeil_mul_add a 0 positive
  rwa [add_zero, zero, add_zero] at this

theorem stride_nil (ps : Nat) : stride ps [] = [] := by simp [stride]

/-- The bases of a span, by the number of the page. -/
theorem stride_eq (positive : 0 < ps) (indices : List Nat) : stride ps indices =
      (range (divCeil indices.length ps)).map fun k => indices[k * ps]?.getD 0 := by
  rw [← filterMap_eq_map]
  refine filterMap_congr fun k lt => ?_
  have bound := (lt_divCeil positive).mp (mem_range.mp lt)
  rw [Function.comp_apply, getElem?_eq_getElem bound]
  rfl

theorem stride_map_range (positive : 0 < ps) (n : Nat) (f : Nat → Nat) :
    stride ps ((range n).map f) = (range (divCeil n ps)).map fun k => f (k * ps) := by
  rw [stride_eq positive, length_map, length_range]
  refine map_congr_left fun k lt => ?_
  have bound := (lt_divCeil positive).mp (mem_range.mp lt)
  rw [getElem?_map, getElem?_range bound]
  rfl

/-- **Whole pages in front do not move the bases behind them.** -/
theorem stride_append (positive : 0 < ps) {front : List Nat} (whole : ps ∣ front.length)
    (back : List Nat) : stride ps (front ++ back) = stride ps front ++ stride ps back := by
  obtain ⟨pages, size⟩ := whole
  rw [Nat.mul_comm] at size
  rw [stride_eq positive, stride_eq positive front, stride_eq positive back, length_append, size,
    divCeil_mul_add _ _ positive, divCeil_mul _ positive, range_add, map_append, map_map]
  congr 1
  · refine map_congr_left fun k lt => ?_
    rw [getElem?_append_left (size ▸ Nat.mul_lt_mul_of_pos_right (mem_range.mp lt) positive)]
  · refine map_congr_left fun k _ => ?_
    rw [Function.comp_apply, Nat.add_mul,
      getElem?_append_right (size ▸ Nat.le_add_right _ _), size, Nat.add_sub_cancel_left]

theorem stride_flatMap (positive : 0 < ps) {α : Type} {spans : List α} {slots : α → List Nat}
    (whole : ∀ span ∈ spans, ps ∣ (slots span).length) :
    stride ps (spans.flatMap slots) = spans.flatMap fun span => stride ps (slots span) := by
  induction spans with
  | nil => exact stride_nil ps
  | cons span rest ih =>
    rw [flatMap_cons, flatMap_cons, stride_append positive (whole span mem_cons_self),
      ih fun other mem => whole other (mem_cons_of_mem _ mem)]

theorem stride_pageToToken (positive : 0 < ps) (pages : List Nat) :
    stride ps (pageToToken ps pages) = pages := by
  unfold pageToToken
  rw [stride_flatMap positive fun page _ => by rw [length_map, length_range]]
  have one : divCeil ps ps = 1 := by
    have := divCeil_mul 1 positive
    rwa [one_mul] at this
  conv_rhs => rw [← flatMap_singleton' pages]
  refine flatMap_congr fun page _ => ?_
  rw [stride_map_range positive, one, range_one, map_singleton, Nat.zero_mul, add_zero]

theorem pageToToken_length (pages : List Nat) :
    (pageToToken ps pages).length = pages.length * ps := by
  unfold pageToToken
  rw [length_flatMap]
  simp

end Stride

/-! ### The pages of the tree -/

/-- The page bases of all nodes. -/
def treePages (ps : Nat) (nodes : List RadixTreeNode) : List Nat :=
  gather (fun node => stride ps node.data.value) nodes

variable {ps : Nat} {nodes : List RadixTreeNode}

theorem keptByWalk_pages (positive : 0 < ps) (pre : List RadixTreeNode) : KeptByWalk ps fun nodes =>
      FullNodes nodes ∧ (treePages ps nodes).Perm (treePages ps pre) where
  stamp := by
    rintro nodes word time ⟨full, pages⟩
    refine ⟨fullNodes_modify full word fun _ => rfl, ?_⟩
    have same := @gather_modify_same _ _ _ _ (fun node : RadixTreeNode => stride ps node.data.value)
      nodes word (fun node => { node.data with timestamp := time }) fun _ => rfl
    exact (Perm.of_eq same).trans pages
  split := by
    rintro nodes node pos wf ⟨full, pages⟩ mem - lt aligned
    refine ⟨fullNodes_split wf full mem lt, ?_⟩
    refine (wf.gather_split_same _ mem pos ?_).trans pages
    have front : (node.data.value.take pos).length = pos := by
      rw [length_take, full node mem]
      exact min_eq_left lt.le
    have joined := stride_append positive (front.symm ▸ aligned) (node.data.value.drop pos)
    rw [take_append_drop] at joined
    exact joined.symm

/-- The indices on the way to a stored word are as many as its tokens. -/
theorem collectKv_length (wf : WF ps nodes) (full : FullNodes nodes) {word : List Token}
    (stored : Stored nodes word) : (collectKv nodes word).length = word.length := by
  have keys := congrArg length (lineage_keys wf word.length stored le_rfl)
  rw [length_flatten, map_map] at keys
  rw [← keys]
  unfold collectKv
  rw [length_flatten, map_map]
  refine congrArg sum (map_congr_left fun node mem => ?_)
  exact full node (lineage_mem (mem_reverse.mp mem)).1

/-- A node reads what its parent reads and its own value. -/
theorem collectKv_node (wf : WF ps nodes) (full : FullNodes nodes) {node : RadixTreeNode}
    (mem : node ∈ nodes) :
    collectKv nodes node.path = collectKv nodes node.parent ++ node.data.value := by
  rw [collectKv_eq wf full (Stored.of_mem mem), collectKv_eq wf full (wf.closed node mem)]
  exact pagesUpTo_node wf mem (full node mem)

/-- What a shorter stored prefix reads is the front of what a longer one reads. -/
theorem collectKv_prefix (wf : WF ps nodes) (full : FullNodes nodes) {word other : List Token}
    (stored : Stored nodes word) (storedOther : Stored nodes other) (below : other <+: word) :
    collectKv nodes other <+: collectKv nodes word := by
  rw [collectKv_eq wf full stored, collectKv_eq wf full storedOther]
  have shorter := Nat.div_le_div_right (c := ps) below.length_le
  obtain ⟨more, size⟩ := Nat.exists_eq_add_of_le shorter
  unfold pagesUpTo
  rw [size, range_add, flatMap_append]
  have front : (range (other.length / ps)).flatMap (fun page =>
      (storedPages ps nodes (other.take ((page + 1) * ps))).getD []) =
      (range (other.length / ps)).flatMap fun page =>
        (storedPages ps nodes (word.take ((page + 1) * ps))).getD [] := by
    refine flatMap_congr fun page lt => ?_
    have short : (page + 1) * ps ≤ other.length :=
      (Nat.mul_le_mul_right ps (mem_range.mp lt)).trans (Nat.div_mul_le_self _ _)
    obtain ⟨rest, rfl⟩ := below
    rw [take_append_of_le_length short]
  rw [front]
  exact prefix_append _ _

/-- Reference counts hold no pages. -/
theorem treePages_unref {other : List RadixTreeNode}
    (frame : other.map FullTier.unref = nodes.map FullTier.unref) :
    treePages ps other = treePages ps nodes := by
  have stripped : ∀ nodes : List RadixTreeNode,
      treePages ps nodes = treePages ps (nodes.map FullTier.unref) := fun nodes =>
    (flatMap_map FullTier.unref (fun node => stride ps node.data.value) nodes).symm
  rw [stripped other, frame, ← stripped nodes]

namespace RadixRun

variable {run : RadixRun}

/-- Fewer handles and the locks in another order. -/
theorem Inv.weaken (inv : Inv ps run) {locks : List (List Token)}
    {handles : List (CacheHandle × List Nat)} (sameLocks : run.locks.Perm locks)
    (fewer : ∀ entry ∈ handles, entry ∈ run.handles) : Inv ps ⟨run.cache, locks, handles⟩ where
  pageSize := inv.pageSize
  positive := inv.positive
  tier :=
    ⟨inv.tier.wf, fun lock mem => inv.tier.stored lock (sameLocks.mem_iff.mpr mem),
      inv.tier.counts.congr fun node _ => through_perm sameLocks node.path⟩
  full := inv.full
  handles := fun entry mem => inv.handles entry (fewer entry mem)

theorem walk_pages (inv : Inv ps run) (inputIds : List Token) :
    (treePages ps (run.cache.walk inputIds).1.tier.nodes).Perm
      (treePages ps run.cache.tier.nodes) := by
  obtain ⟨rfl, positive, tier, full, -⟩ := inv
  exact (treeWalk_spec (keptByWalk_pages positive run.cache.tier.nodes) run.cache.clock.now tier.wf
    ⟨full, .refl _⟩ inputIds).2.1.2

theorem matchPrefix_pages (inv : Inv ps run) (inputIds : List Token) :
    let res := run.cache.matchPrefix inputIds
    Inv ps ⟨res.1, run.locks, (res.2, collectKv res.1.tier.nodes res.2.node) :: run.handles⟩ ∧
      res.2.node <+: inputIds ∧
      (treePages ps res.1.tier.nodes).Perm (treePages ps run.cache.tier.nodes) :=
  ⟨(matchPrefix_refines inv rfl).1, (walk_spec inv inputIds).2.2.2.2.1.onIds,
    walk_pages inv inputIds⟩

/-- What an insertion leaves: the tree holds what it held and the pages of the indices beyond the
length that it found. -/
structure Grown (ps : Nat) (run : RadixRun) (inputIds : List Token) (indices : List Nat)
    (res : RadixPrefixCache × Nat × CacheHandle) : Prop where
  handle : res.2.2 = handleOn (inputIds.take (alignDown inputIds.length ps))
  aligned : ps ∣ res.2.1
  within : res.2.1 ≤ alignDown inputIds.length ps
  longest : ∀ word, Stored run.cache.tier.nodes word → word <+: inputIds → word.length ≤ res.2.1
  inv : Inv ps ⟨res.1, run.locks, (res.2.2, collectKv res.1.tier.nodes res.2.2.node) :: run.handles⟩
  pages : (treePages ps res.1.tier.nodes).Perm (treePages ps run.cache.tier.nodes ++
    stride ps (slice indices res.2.1 (alignDown inputIds.length ps)))
  reads : (collectKv res.1.tier.nodes res.2.2.node).drop res.2.1 =
    slice indices res.2.1 (alignDown inputIds.length ps)

theorem insertPrefix_grown (inv : Inv ps run) (inputIds : List Token) (indices : List Nat)
    (room : inputIds.length ≤ indices.length) :
    Grown ps run inputIds indices (run.cache.insertPrefix inputIds indices) := by
  obtain rfl := inv.pageSize
  obtain ⟨pageSize, same, tier, stored, longest, stop⟩ :=
    walk_spec inv (wholePages run.cache inputIds)
  have pages := walk_pages inv (wholePages run.cache inputIds)
  have size : (wholePages run.cache inputIds).length =
      alignDown inputIds.length run.cache.pageSize := by
    unfold wholePages
    rw [length_take, min_eq_left (alignDown_le _ _)]
  have short := longest.onIds.length_le
  rw [size] at short
  have covers : ∀ word, Stored run.cache.tier.nodes word → word <+: inputIds →
      word.length ≤ (run.cache.walk (wholePages run.cache inputIds)).2.length := by
    intro word here onIds
    by_cases root : word = []
    · rw [root]
      exact Nat.zero_le _
    · have found := storedPages_stored inv.tier.wf root here
      exact (longestStored_untake inv.tier.wf longest).longest word onIds found
  by_cases present : (run.cache.walk (wholePages run.cache inputIds)).2.length =
      alignDown inputIds.length run.cache.pageSize
  · have whole : (run.cache.walk (wholePages run.cache inputIds)).2 =
        wholePages run.cache inputIds :=
      longest.onIds.eq_of_length (present.trans size.symm)
    have nothing : slice indices (alignDown inputIds.length run.cache.pageSize)
        (alignDown inputIds.length run.cache.pageSize) = [] :=
      drop_eq_nil_of_le (length_take_le _ _)
    obtain ⟨grown, -⟩ : _ ∧ PrefixStore.Step _ _ (.insertPrefix inputIds indices) _ _ :=
      insert_present inv pageSize same tier stored longest present
    have reads := collectKv_length same.inv.wf same.full stored
    rw [insertPrefix_present indices present, handle_eq present]
    refine ⟨congrArg handleOn whole, longest.aligned, short, covers, grown, ?_, ?_⟩
    · rw [present, nothing]
      rw [stride_nil, append_nil]
      exact pages
    · rw [present, nothing]
      exact drop_eq_nil_of_le (reads.trans present).le
  · have fresh := stop.resolve_left fun done => present ((congrArg List.length done).trans size)
    rw [insertPrefix_missing indices present]
    dsimp only
    have whole : (run.cache.walk (wholePages run.cache inputIds)).2 ++
        (wholePages run.cache inputIds).drop
          (run.cache.walk (wholePages run.cache inputIds)).2.length =
        wholePages run.cache inputIds := by
      conv_rhs => rw [← take_append_drop (run.cache.walk (wholePages run.cache inputIds)).2.length
        (wholePages run.cache inputIds), prefix_eq_take longest.onIds]
    have handle := handle_eq ((congrArg List.length whole).trans size)
    obtain ⟨grown, -⟩ : _ ∧ PrefixStore.Step _ _ (.insertPrefix inputIds indices) _ _ :=
      insert_missing inv pageSize same tier stored longest fresh rfl rfl present
        ((alignDown_le _ _).trans room)
    generalize (run.cache.walk (wholePages run.cache inputIds)).2 = word at *
    generalize (run.cache.walk (wholePages run.cache inputIds)).1 = walked at *
    rw [handle]
    have leaf : (⟨word, (wholePages run.cache inputIds).drop word.length, _⟩ : RadixTreeNode) ∈
        (addLeaf walked word ((wholePages run.cache inputIds).drop word.length)
          (slice indices word.length (alignDown inputIds.length run.cache.pageSize))).tier.nodes :=
      mem_append_right _ (mem_singleton_self _)
    refine ⟨congrArg handleOn whole, longest.aligned, short, covers, grown, ?_, ?_⟩
    · have joined := gather_insertLeaf (fun node : RadixTreeNode => stride run.cache.pageSize
        node.data.value) walked.tier.nodes word ((wholePages run.cache inputIds).drop word.length)
        (NodeData.fresh (slice indices word.length (alignDown inputIds.length run.cache.pageSize))
          walked.clock.now)
      exact (Perm.of_eq joined).trans (pages.append_right _)
    · have read := collectKv_node grown.tier.wf grown.full leaf
      have above := collectKv_length grown.tier.wf grown.full (grown.tier.wf.closed _ leaf)
      exact (congrArg (drop word.length) read).trans (drop_left' above)

theorem lock_pages (inv : Inv ps run) {handle : CacheHandle}
    (given : handle ∈ run.handles.map Prod.fst) :
    Inv ps ⟨run.cache.lockHandle handle, handle.node :: run.locks, run.handles⟩ ∧
      treePages ps (run.cache.lockHandle handle).tier.nodes =
        treePages ps run.cache.tier.nodes := by
  obtain ⟨entry, mem, rfl⟩ := mem_map.mp given
  exact ⟨(lock_refines inv (if_pos given)).1,
    treePages_unref (inv.tier.pin (inv.handles entry mem).2.1).2⟩

theorem unlock_pages (inv : Inv ps run) {handle : CacheHandle} (locked : handle.node ∈ run.locks) :
    ∃ cache, run.cache.unlockHandle handle = .ok cache ∧
      Inv ps ⟨cache, run.locks.erase handle.node, run.handles⟩ ∧
      treePages ps cache.tier.nodes = treePages ps run.cache.tier.nodes := by
  obtain ⟨tier, ran, -, frame⟩ := inv.tier.unpin locked
  have unlocked : run.cache.unlockHandle handle = .ok { run.cache with tier := tier } := by
    unfold RadixPrefixCache.unlockHandle
    rw [ran]
    rfl
  have stepped : run.step (.unlock handle) =
      some (⟨{ run.cache with tier := tier }, run.locks.erase handle.node, run.handles⟩, .done) := by
    unfold step
    dsimp only
    rw [if_pos locked, unlocked]
  exact ⟨_, unlocked, (unlock_refines inv stepped).1, treePages_unref frame⟩

/-- **An eviction takes out the pages it returns**, and no locked handle with them. -/
theorem evict_pages (inv : Inv ps run) {size : Nat} {cache : RadixPrefixCache} {freed : List Nat}
    (ran : run.cache.evict size = .ok (cache, freed))
    (held : ∀ entry ∈ run.handles, entry.1.node ∈ run.locks) :
    Inv ps ⟨cache, run.locks, run.handles⟩ ∧ (treePages ps run.cache.tier.nodes).Perm
        (stride ps freed ++ treePages ps cache.tier.nodes) := by
  obtain ⟨tier, taken, words, order, done, evicted, -, peeled, pages, -⟩ :=
    evict_spec inv (evict_bound inv ran)
  obtain ⟨rfl, rfl⟩ := Prod.mk.inj (Except.ok.inj (ran.symm.trans done))
  have stays : run.handles.filter (fun entry => standing tier.nodes entry.1.node) = run.handles :=
    filter_eq_self.mpr fun entry mem => standing_iff.mpr (evicted.inv.stored _ (held entry mem))
  have stepped : run.step (.evict size) =
      some (⟨{ run.cache with tier := tier }, run.locks, run.handles⟩, .evicted freed) := by
    unfold step
    dsimp only
    rw [ran]
    dsimp only
    rw [stays]
  refine ⟨(evict_refines inv stepped).1, ?_⟩
  have parts := (peeled.parts inv.tier.wf).1
  rw [pages, stride_flatMap inv.positive]
  · exact (parts.flatMap_right _).trans (Perm.of_eq flatMap_append)
  · intro node mem
    have pre : node ∈ run.cache.tier.nodes := parts.mem_iff.mpr (mem_append_left _ mem)
    rw [inv.full node pre]
    exact inv.tier.wf.aligned node pre

end RadixRun

end FreeToken
