/-
**The plain radix cache refines the prefix store.**

* `evictable_of_store`, `protected_of_store`: the two sizes are functions of the store.
-/

import FreeToken.KVCache.PrefixStore
import FreeToken.KVCache.RadixEvict

namespace FreeToken

open PageTree List

/-- The cache, the words of the outstanding locks, and the handles whose nodes still stand, each
with the indices it read when it was given out. -/
structure RadixRun where
  cache : RadixPrefixCache
  locks : List (List Token)
  handles : List (CacheHandle × List Nat)

variable (run : RadixRun)

namespace RadixRun

def new (pageSize : Nat) (clock : Clock) : RadixRun := ⟨RadixPrefixCache.new pageSize clock, [], []⟩

def standing (nodes : List RadixTreeNode) (word : List Token) : Bool :=
  word.isEmpty || (node? nodes word).isSome

def denoted (nodes : List RadixTreeNode) (handle : CacheHandle) : List Token :=
  ((pathNodes nodes handle.node).reverse.map fun cur => cur.key).flatten

/-- One call. An insertion goes through when the key and the value of the new node have one length,
which `set_key_value` asserts; a lock is taken on a handle that stands, and given back by who took
it. -/
def step : RadixOp → Option (RadixRun × RadixResult)
  | .matchPrefix inputIds =>
      let (cache, handle) := run.cache.matchPrefix inputIds
      let indices := collectKv cache.tier.nodes handle.node
      some ({ run with cache := cache, handles := (handle, indices) :: run.handles },
        .matched handle indices)
  | .insertPrefix inputIds indices =>
      let (cache, cachedLen, handle) := run.cache.insertPrefix inputIds indices
      if cachedLen = handle.cachedLen ∨ handle.cachedLen ≤ indices.length then
        let stored := collectKv cache.tier.nodes handle.node
        some ({ run with cache := cache, handles := (handle, stored) :: run.handles },
          .inserted cachedLen handle)
      else none
  | .lock handle =>
      if handle ∈ run.handles.map Prod.fst then
        some ({ run with
          cache := run.cache.lockHandle handle
          locks := handle.node :: run.locks }, .done)
      else none
  | .unlock handle =>
      if handle.node ∈ run.locks then
        match run.cache.unlockHandle handle with
        | .ok cache =>
            some ({ run with cache := cache, locks := run.locks.erase handle.node }, .done)
        | .error _ => none
      else none
  | .evict size =>
      match run.cache.evict size with
      | .ok (cache, indices) =>
          some ({ run with
            cache := cache
            handles := run.handles.filter fun entry =>
              standing cache.tier.nodes entry.1.node }, .evicted indices)
      | .error _ => none

def exec : RadixRun → List RadixOp → Option (RadixRun × List RadixResult)
  | run, [] => some (run, [])
  | run, op :: ops =>
      match run.step op with
      | none => none
      | some (next, res) => (next.exec ops).map fun last => (last.1, res :: last.2)

def store : PrefixStore := ⟨storedPages run.cache.pageSize run.cache.tier.nodes, run.locks⟩

/-- Every handle that stands denotes its word and reads the indices it read at first, which are those
stored for the word. -/
def HandlesDenote : Prop :=
  ∀ entry ∈ run.handles, entry.1.cachedLen = entry.1.node.length ∧
    denoted run.cache.tier.nodes entry.1 = entry.1.node ∧
    collectKv run.cache.tier.nodes entry.1.node = entry.2 ∧
    entry.2 = pagesUpTo run.cache.pageSize run.store.pages entry.1.node

def SizesExact : Prop :=
  run.cache.tier.evictableSize = total idle run.cache.tier.nodes ∧
    run.cache.tier.protectedSize = total pinned run.cache.tier.nodes ∧
    ∀ node ∈ run.cache.tier.nodes, node.data.refCount = through run.locks node.path

/-- **The splits of two runs are invisible**: their sizes agree, and so do all answers as long as
nothing is evicted. -/
def Indistinct (left right : RadixRun) : Prop :=
  left.cache.tier.evictableSize = right.cache.tier.evictableSize ∧
    left.cache.tier.protectedSize = right.cache.tier.protectedSize ∧
    ∀ (later : List RadixOp) (leftEnd rightEnd : RadixRun) (leftAnswers rightAnswers :
      List RadixResult), (∀ op ∈ later, op.Keeps) → left.exec later = some (leftEnd, leftAnswers) →
      right.exec later = some (rightEnd, rightAnswers) →
      leftAnswers = rightAnswers ∧ leftEnd.store = rightEnd.store ∧
        leftEnd.cache.tier.evictableSize = rightEnd.cache.tier.evictableSize ∧
        leftEnd.cache.tier.protectedSize = rightEnd.cache.tier.protectedSize

structure Inv (ps : Nat) (run : RadixRun) : Prop where
  pageSize : run.cache.pageSize = ps
  positive : 0 < ps
  tier : FullTier.Inv ps run.locks run.cache.tier
  full : FullNodes run.cache.tier.nodes
  handles : ∀ entry ∈ run.handles, entry.1 = handleOn entry.1.node ∧
    Stored run.cache.tier.nodes entry.1.node ∧
    collectKv run.cache.tier.nodes entry.1.node = entry.2

end RadixRun

variable {ps : Nat} {nodes : List RadixTreeNode} {locks : List (List Token)} {tier : FullTier}

/-! ### What a node reads -/

variable {word : List Token}

theorem collectKv_eq (wf : WF ps nodes) (full : FullNodes nodes) (stored : Stored nodes word) :
    collectKv nodes word = pagesUpTo ps (storedPages ps nodes) word :=
  lineage_slots wf full word.length stored le_rfl

theorem collectKv_congr {after : List RadixTreeNode} (wf : WF ps nodes) (full : FullNodes nodes)
    (wfAfter : WF ps after) (fullAfter : FullNodes after)
    (stored : Stored nodes word) (storedAfter : Stored after word)
    (same : ∀ page < word.length / ps, storedPages ps after (word.take ((page + 1) * ps)) =
      storedPages ps nodes (word.take ((page + 1) * ps))) :
    collectKv after word = collectKv nodes word := by
  rw [collectKv_eq wfAfter fullAfter storedAfter, collectKv_eq wf full stored]
  exact pagesUpTo_congr same

theorem storedPages_stored (wf : WF ps nodes) (nonempty : word ≠ [])
    (stored : Stored nodes word) : (storedPages ps nodes word).isSome = true := by
  rcases stored with rfl | ⟨node, mem, rfl⟩
  · exact absurd rfl nonempty
  · exact wf.pageAt_isSome_iff.mpr ⟨node, mem, covers_self wf mem⟩

theorem storedPages_aligned (wf : WF ps nodes)
    (here : (storedPages ps nodes word).isSome = true) : ps ∣ word.length := by
  obtain ⟨_, _, covers⟩ := wf.pageAt_isSome_iff.mp here
  exact covers.1

theorem storedPages_prefix (wf : WF ps nodes) {word other : List Token}
    (stored : Stored nodes word) (onWord : other <+: word) (nonempty : other ≠ [])
    (aligned : ps ∣ other.length) : (storedPages ps nodes other).isSome = true := by
  rcases stored with rfl | ⟨node, mem, rfl⟩
  · exact absurd (prefix_nil.mp onWord) nonempty
  · exact wf.pageAt_isSome_iff.mpr
      (wf.covered_of_prefix _ mem le_rfl onWord nonempty aligned)

/-! ### Walks -/

theorem fullNodes_modify (full : FullNodes nodes) (word : List Token)
    {change : RadixTreeNode → NodeData} (same : ∀ node, (change node).value = node.data.value) :
    FullNodes (modify nodes word change) := by
  intro node mem
  obtain ⟨old, oldMem, rfl⟩ := mem_modify.mp mem
  split
  · rw [same]
    exact full old oldMem
  · exact full old oldMem

theorem fullNodes_split (wf : WF ps nodes) (full : FullNodes nodes) {node : RadixTreeNode}
    (mem : node ∈ nodes) {pos : Nat} (lt : pos < node.length) :
    FullNodes (splitNode nodes node pos) := by
  intro new newMem
  have size := full node mem
  rcases (FullTier.mem_splitNode wf mem).mp newMem with rfl | rfl | ⟨kept, _⟩
  · rw [FullTier.splitHead_length lt]
    show (node.data.value.take pos).length = pos
    rw [length_take, size]
    omega
  · rw [FullTier.splitTail_length]
    show (node.data.value.drop pos).length = _
    rw [length_drop, size]
  · exact full new kept

structure SameStore (ps : Nat) (locks : List (List Token)) (tier : FullTier)
    (nodes : List RadixTreeNode) : Prop where
  inv : FullTier.Inv ps locks { tier with nodes := nodes }
  full : FullNodes nodes
  pages : storedPages ps nodes = storedPages ps tier.nodes
  stored : ∀ word, Stored tier.nodes word → Stored nodes word

theorem keptByWalk_sameStore (ps : Nat) (locks : List (List Token)) (tier : FullTier) :
    KeptByWalk ps (SameStore ps locks tier) where
  stamp := by
    intro nodes word time same
    refine ⟨same.inv.modify_same word _ fun _ => rfl, fullNodes_modify same.full word fun _ => rfl,
      ?_, fun other pre => (same.stored other pre).modify _ _⟩
    rw [← same.pages]
    exact pageAt_modify same.inv.wf word fun _ => rfl
  split := by
    intro nodes node pos wf same mem positive lt aligned
    refine ⟨same.inv.split mem positive lt aligned, fullNodes_split wf same.full mem lt,
      ?_, fun other pre => (same.stored other pre).split wf mem pos⟩
    rw [← same.pages]
    exact pageAt_splitAt wf mem positive lt aligned (fun _ => rfl) fun _ => rfl

theorem longestStored_of_stop (positive : 0 < ps) (wf : WF ps nodes) {inputIds word : List Token}
    (stored : Stored nodes word) (onIds : word <+: inputIds)
    (stop : word = inputIds ∨ child? ps nodes word (inputIds.drop word.length) = none) :
    PrefixStore.LongestStored ps (storedPages ps nodes) inputIds word where
  onIds := onIds
  aligned := stored.dvd wf
  stored := by
    by_cases empty : word = []
    · exact .inl empty
    · exact .inr (storedPages_stored wf empty stored)
  longest := by
    intro other otherOn here
    obtain ⟨node, mem, covers⟩ := wf.pageAt_isSome_iff.mp here
    exact wf.covered_le positive stored onIds stop mem covers otherOn

/-- A walk changes neither the locks nor what is stored, and ends at the longest stored prefix. -/
theorem walk_keeps (positive : 0 < ps) (inv : FullTier.Inv ps locks tier)
    (full : FullNodes tier.nodes) (tic : Int) (inputIds : List Token) :
    SameStore ps locks tier (treeWalk ps tic tier.nodes inputIds).1 ∧
      Stored (treeWalk ps tic tier.nodes inputIds).1 (treeWalk ps tic tier.nodes inputIds).2 ∧
      PrefixStore.LongestStored ps (storedPages ps tier.nodes) inputIds
        (treeWalk ps tic tier.nodes inputIds).2 ∧
      ((treeWalk ps tic tier.nodes inputIds).2 = inputIds ∨
        child? ps (treeWalk ps tic tier.nodes inputIds).1 (treeWalk ps tic tier.nodes inputIds).2
          (inputIds.drop (treeWalk ps tic tier.nodes inputIds).2.length) = none) := by
  obtain ⟨wf, same, stored, onIds, stop⟩ := treeWalk_spec (keptByWalk_sameStore ps locks tier) tic
    inv.wf ⟨inv, full, rfl, fun _ pre => pre⟩ inputIds
  refine ⟨same, stored, ?_, stop⟩
  rw [← same.pages]
  exact longestStored_of_stop positive wf stored onIds stop

theorem longestStored_untake (wf : WF ps nodes) {inputIds word : List Token}
    (longest : PrefixStore.LongestStored ps (storedPages ps nodes)
      (inputIds.take (alignDown inputIds.length ps)) word) :
    PrefixStore.LongestStored ps (storedPages ps nodes) inputIds word where
  onIds := longest.onIds.trans (List.take_prefix _ _)
  aligned := longest.aligned
  stored := longest.stored
  longest := by
    intro other otherOn here
    refine longest.longest other (prefix_take_iff.mpr ⟨otherOn, ?_⟩) here
    exact le_alignDown (storedPages_aligned wf here) otherOn.length_le

/-! ### Insertions -/

section Insert

variable {inputIds word key : List Token} {indices : List Nat} {data : NodeData}

theorem prefix_whole (aligned : ps ∣ word.length) (onIds : word <+: inputIds) :
    word <+: inputIds.take (alignDown inputIds.length ps) :=
  prefix_take_iff.mpr ⟨onIds, le_alignDown aligned onIds.length_le⟩

theorem insertPages_done (wf : WF ps nodes)
    (stored : Stored nodes (inputIds.take (alignDown inputIds.length ps))) :
    PrefixStore.insertPages ps (storedPages ps nodes) inputIds indices = storedPages ps nodes := by
  funext word
  unfold PrefixStore.insertPages
  cases here : storedPages ps nodes word with
  | some page => rfl
  | none =>
    refine if_neg ?_
    rintro ⟨nonempty, aligned, onIds⟩
    have found := storedPages_prefix wf stored (prefix_whole aligned onIds) nonempty aligned
    rw [here] at found
    cases found

/-- **A new leaf below the longest stored prefix stores the rest of the ids.** -/
theorem insertPages_leaf (wf : WF ps nodes) (wfLeaf : WF ps (insertLeaf nodes word key data))
    (stored : Stored nodes word)
    (longest : PrefixStore.LongestStored ps (storedPages ps nodes)
      (inputIds.take (alignDown inputIds.length ps)) word)
    (whole : word ++ key = inputIds.take (alignDown inputIds.length ps))
    (value : data.value = (indices.take (alignDown inputIds.length ps)).drop word.length) :
    storedPages ps (insertLeaf nodes word key data) =
      PrefixStore.insertPages ps (storedPages ps nodes) inputIds indices := by
  have bound := alignDown_le inputIds.length ps
  funext other
  unfold storedPages
  rw [pageAt_insertLeaf key data word wfLeaf]
  show _ = PrefixStore.insertPages ps (storedPages ps nodes) inputIds indices other
  unfold PrefixStore.insertPages
  by_cases covers : Covers ps ⟨word, key, data⟩ other
  · -- a word of the leaf is longer than what is stored
    rw [if_pos covers]
    obtain ⟨aligned, longer, onLeaf⟩ := covers
    have onIds : other <+: inputIds.take (alignDown inputIds.length ps) := whole ▸ onLeaf
    have size := onIds.length_le
    rw [length_take, min_eq_left bound] at size
    have fits := page_between longest.aligned aligned longer
    cases here : storedPages ps nodes other with
    | some page =>
      have short := longest.longest other onIds (Option.isSome_iff_exists.mpr ⟨page, here⟩)
      exact absurd longer (not_lt.mpr short)
    | none =>
      rw [if_pos ⟨ne_nil_of_length_pos (by omega), aligned, onIds.trans (List.take_prefix _ _)⟩]
      unfold pageIn
      rw [value, drop_drop, drop_take, take_take]
      have start : word.length + (other.length - ps - word.length) = other.length - ps := by omega
      rw [start, min_eq_left (by omega)]
  · rw [if_neg covers]
    show storedPages ps nodes other = _
    cases here : storedPages ps nodes other with
    | some page => rfl
    | none =>
      refine (if_neg ?_).symm
      rintro ⟨nonempty, aligned, onIds⟩
      have onWhole := prefix_whole aligned onIds
      have short : other.length ≤ word.length := by
        by_contra longer
        refine covers ⟨aligned, not_le.mp longer, ?_⟩
        show other <+: word ++ key
        rw [whole]
        exact onWhole
      have onWord := prefix_of_le onWhole longest.onIds short
      have found := storedPages_prefix wf stored onWord nonempty aligned
      rw [here] at found
      cases found

theorem fullNodes_insertLeaf (full : FullNodes nodes) (size : data.value.length = key.length) :
    FullNodes (insertLeaf nodes word key data) := by
  intro node mem
  rcases mem_append.mp mem with old | new
  · exact full node old
  · rw [mem_singleton.mp new]
    exact size

end Insert

/-! ### One call -/

variable {inputIds : List Token} {results : List RadixResult} {cache : RadixPrefixCache}

namespace RadixRun

variable {run next : RadixRun} {res : RadixResult}

theorem inv_new (positive : 0 < ps) (clock : Clock) : Inv ps (new ps clock) where
  pageSize := rfl
  positive := positive
  tier := FullTier.Inv.empty ps
  full := by
    intro node mem
    cases mem
  handles := by
    intro entry mem
    cases mem

theorem handles_kept {pre : RadixRun} {tier : FullTier} (inv : Inv ps pre)
    (wf : WF ps tier.nodes) (full : FullNodes tier.nodes) {entry : CacheHandle × List Nat}
    (mem : entry ∈ pre.handles) (stands : Stored tier.nodes entry.1.node)
    (same : ∀ word, (storedPages ps tier.nodes word).isSome = true →
      (storedPages ps pre.cache.tier.nodes word).isSome = true →
      storedPages ps tier.nodes word = storedPages ps pre.cache.tier.nodes word) :
    entry.1 = handleOn entry.1.node ∧ Stored tier.nodes entry.1.node ∧
      collectKv tier.nodes entry.1.node = entry.2 := by
  obtain ⟨handle, stored, reads⟩ := inv.handles entry mem
  refine ⟨handle, stands, ?_⟩
  rw [← reads]
  refine collectKv_congr inv.tier.wf inv.full wf full stored stands fun page bound => ?_
  exact same _ (wf.stored_take stands bound) (inv.tier.wf.stored_take stored bound)

theorem matchPrefix_refines (inv : Inv ps run)
    (stepped : run.step (.matchPrefix inputIds) = some (next, res)) :
    Inv ps next ∧ PrefixStore.Step ps run.store (.matchPrefix inputIds) res next.store := by
  obtain ⟨rfl, positive, tier, full, _⟩ := id inv
  obtain ⟨same, stored, longest, _⟩ := walk_keeps positive tier full run.cache.clock.now inputIds
  obtain ⟨rfl, rfl⟩ := Prod.mk.inj (Option.some.inj stepped)
  have reads := collectKv_eq same.inv.wf same.full stored
  refine ⟨⟨rfl, positive, same.inv, same.full, ?_⟩, ?_⟩
  · intro entry mem
    rcases mem_cons.mp mem with rfl | pre
    · exact ⟨rfl, stored, rfl⟩
    · refine @handles_kept _ run { run.cache.tier with nodes := _ } inv same.inv.wf same.full entry
        pre (same.stored _ (inv.handles entry pre).2.1) fun word _ _ => ?_
      exact congrFun same.pages word
  · show PrefixStore.Step _ run.store _
      (.matched _ (collectKv (treeWalk _ run.cache.clock.now run.cache.tier.nodes inputIds).1
        (treeWalk _ run.cache.clock.now run.cache.tier.nodes inputIds).2)) ⟨_, run.locks⟩
    rw [reads, same.pages]
    exact .matchPrefix longest

theorem handle_eq {size : Nat} (length : word.length = size) :
    CacheHandle.mk size word [] none = handleOn word := by
  rw [← length]
  rfl

def wholePages (cache : RadixPrefixCache) (inputIds : List Token) : List Token :=
  inputIds.take (alignDown inputIds.length cache.pageSize)

theorem insertPrefix_present (indices : List Nat)
    (present : (cache.walk (wholePages cache inputIds)).2.length =
      alignDown inputIds.length cache.pageSize) :
    cache.insertPrefix inputIds indices = ((cache.walk (wholePages cache inputIds)).1,
        (cache.walk (wholePages cache inputIds)).2.length,
        { cachedLen := alignDown inputIds.length cache.pageSize,
          node := (cache.walk (wholePages cache inputIds)).2 }) :=
  if_neg (not_not.mpr present)

def addLeaf (cache : RadixPrefixCache) (word key : List Token) (value : List Nat) :
    RadixPrefixCache :=
  { cache with
    tier := { cache.tier with
      nodes := insertLeaf cache.tier.nodes word key (NodeData.fresh value cache.clock.now)
      evictableSize := cache.tier.evictableSize + key.length }
    clock := cache.clock.tick }

theorem insertPrefix_missing (indices : List Nat)
    (missing : (cache.walk (wholePages cache inputIds)).2.length ≠
      alignDown inputIds.length cache.pageSize) :
    cache.insertPrefix inputIds indices = let walked := cache.walk (wholePages cache inputIds)
      let key := (wholePages cache inputIds).drop walked.2.length
      (addLeaf walked.1 walked.2 key
          ((indices.take (alignDown inputIds.length cache.pageSize)).drop walked.2.length),
        walked.2.length,
        { cachedLen := alignDown inputIds.length cache.pageSize, node := walked.2 ++ key }) :=
  if_pos missing

theorem walk_spec (inv : Inv ps run) (inputIds : List Token) :
    (run.cache.walk inputIds).1.pageSize = ps ∧
      SameStore ps run.locks run.cache.tier (run.cache.walk inputIds).1.tier.nodes ∧
      (run.cache.walk inputIds).1.tier =
        { run.cache.tier with nodes := (run.cache.walk inputIds).1.tier.nodes } ∧
      Stored (run.cache.walk inputIds).1.tier.nodes (run.cache.walk inputIds).2 ∧
      PrefixStore.LongestStored ps (storedPages ps run.cache.tier.nodes) inputIds
        (run.cache.walk inputIds).2 ∧
      ((run.cache.walk inputIds).2 = inputIds ∨
        child? ps (run.cache.walk inputIds).1.tier.nodes (run.cache.walk inputIds).2
          (inputIds.drop (run.cache.walk inputIds).2.length) = none) := by
  obtain ⟨rfl, positive, tier, full, _⟩ := inv
  obtain ⟨same, stored, longest, stop⟩ := walk_keeps positive tier full run.cache.clock.now inputIds
  exact ⟨rfl, same, rfl, stored, longest, stop⟩

section Insertion

variable (inv : Inv ps run) {inputIds word : List Token} {indices : List Nat}
  {cache : RadixPrefixCache} (pageSize : cache.pageSize = ps)
  (same : SameStore ps run.locks run.cache.tier cache.tier.nodes)
  (sizes : cache.tier = { run.cache.tier with nodes := cache.tier.nodes })
  (stored : Stored cache.tier.nodes word)
  (longest : PrefixStore.LongestStored ps (storedPages ps run.cache.tier.nodes)
    (inputIds.take (alignDown inputIds.length ps)) word)

include inv pageSize same sizes stored longest

theorem insert_present (present : word.length = alignDown inputIds.length ps) : Inv ps { run with
        cache := cache
        handles := (handleOn word, collectKv cache.tier.nodes word) :: run.handles } ∧
      PrefixStore.Step ps run.store (.insertPrefix inputIds indices)
        (.inserted word.length (handleOn word))
        ⟨storedPages ps cache.tier.nodes, run.locks⟩ := by
  have isWhole : word = inputIds.take (alignDown inputIds.length ps) := by
    refine longest.onIds.eq_of_length ?_
    rw [present, length_take, min_eq_left (alignDown_le _ _)]
  have runPages : run.store = ⟨storedPages ps run.cache.tier.nodes, run.locks⟩ := by
    unfold store
    rw [inv.pageSize]
  constructor
  · refine ⟨pageSize, inv.positive, ?_, same.full, ?_⟩
    · rw [sizes]
      exact same.inv
    · intro entry mem
      rcases mem_cons.mp mem with rfl | pre
      · exact ⟨rfl, stored, rfl⟩
      · refine handles_kept inv same.inv.wf same.full pre
          (same.stored _ (inv.handles entry pre).2.1) fun other _ _ => ?_
        exact congrFun same.pages other
  · have step := @PrefixStore.Step.insertPrefix ps run.store inputIds word indices (by
      rw [runPages]
      exact longestStored_untake inv.tier.wf longest)
    rw [← isWhole, runPages] at step
    rw [← same.pages, insertPages_done same.inv.wf (isWhole ▸ stored)] at step
    rw [runPages, ← same.pages]
    exact step

theorem insert_missing {key : List Token} {value : List Nat}
    (fresh : child? ps cache.tier.nodes word key = none)
    (keyEq : key = (inputIds.take (alignDown inputIds.length ps)).drop word.length)
    (valueEq : value = (indices.take (alignDown inputIds.length ps)).drop word.length)
    (missing : word.length ≠ alignDown inputIds.length ps)
    (room : alignDown inputIds.length ps ≤ indices.length) :
    Inv ps { run with
        cache := addLeaf cache word key value
        handles := (handleOn (word ++ key),
          collectKv (addLeaf cache word key value).tier.nodes (word ++ key)) :: run.handles } ∧
      PrefixStore.Step ps run.store (.insertPrefix inputIds indices)
        (.inserted word.length (handleOn (word ++ key)))
        ⟨storedPages ps (addLeaf cache word key value).tier.nodes, run.locks⟩ := by
  have wholeLength : (inputIds.take (alignDown inputIds.length ps)).length =
      alignDown inputIds.length ps := by
    rw [length_take, min_eq_left (alignDown_le _ _)]
  have whole : word ++ key = inputIds.take (alignDown inputIds.length ps) := by
    conv_rhs => rw [← take_append_drop word.length
      (inputIds.take (alignDown inputIds.length ps)), prefix_eq_take longest.onIds]
    rw [keyEq]
  have short := longest.onIds.length_le
  rw [wholeLength] at short
  have keyLength : key.length = alignDown inputIds.length ps - word.length := by
    rw [keyEq, length_drop, wholeLength]
  have keyPos : 0 < key.length := by omega
  have keyAligned : ps ∣ key.length := by
    rw [keyLength]
    exact Nat.dvd_sub (dvd_alignDown _ _) longest.aligned
  have valueLength : value.length = key.length := by
    rw [valueEq, keyLength, length_drop, length_take, min_eq_left room]
  have invLeaf := same.inv.insertLeaf keyPos keyAligned stored fresh
    (NodeData.fresh value cache.clock.now) rfl
  have fullLeaf := @fullNodes_insertLeaf _ word key (NodeData.fresh value cache.clock.now)
    same.full valueLength
  have pages := @insertPages_leaf ps _ inputIds word key indices
    (NodeData.fresh value cache.clock.now) same.inv.wf invLeaf.wf stored
    (by rw [same.pages]; exact longest) whole valueEq
  rw [same.pages] at pages
  have runPages : run.store = ⟨storedPages ps run.cache.tier.nodes, run.locks⟩ := by
    unfold store
    rw [inv.pageSize]
  have leafTier : (addLeaf cache word key value).tier = { run.cache.tier with
      nodes := insertLeaf cache.tier.nodes word key (NodeData.fresh value cache.clock.now)
      evictableSize := run.cache.tier.evictableSize + key.length } := by
    unfold addLeaf
    rw [sizes]
  constructor
  · refine ⟨pageSize, inv.positive, ?_, fullLeaf, ?_⟩
    · rw [leafTier]
      exact invLeaf
    · intro entry mem
      rcases mem_cons.mp mem with rfl | pre
      · refine ⟨rfl, ?_, rfl⟩
        exact .inr ⟨⟨word, key, _⟩, mem_append_right _ (mem_singleton_self _), rfl⟩
      · refine handles_kept inv invLeaf.wf fullLeaf pre ?_ fun other _ here => ?_
        · exact (same.stored _ (inv.handles entry pre).2.1).imp_right
            fun ⟨node, nodeMem, path⟩ => ⟨node, mem_append_left _ nodeMem, path⟩
        · obtain ⟨page, here⟩ := Option.isSome_iff_exists.mp here
          rw [pages, PrefixStore.insertPages_of_stored here, here]
  · have step := @PrefixStore.Step.insertPrefix ps run.store inputIds word indices (by
      rw [runPages]
      exact longestStored_untake inv.tier.wf longest)
    rw [← whole, runPages] at step
    rw [← pages] at step
    rw [runPages]
    exact step

end Insertion

theorem insertPrefix_refines (inv : Inv ps run) {indices : List Nat}
    (stepped : run.step (.insertPrefix inputIds indices) = some (next, res)) :
    Inv ps next ∧
      PrefixStore.Step ps run.store (.insertPrefix inputIds indices) res next.store := by
  obtain rfl := inv.pageSize
  obtain ⟨pageSize, same, tier, stored, longest, stop⟩ :=
    walk_spec inv (wholePages run.cache inputIds)
  have length : (wholePages run.cache inputIds).length =
      alignDown inputIds.length run.cache.pageSize := by
    unfold wholePages
    rw [length_take, min_eq_left (alignDown_le _ _)]
  simp only [step] at stepped
  by_cases present : (run.cache.walk (wholePages run.cache inputIds)).2.length =
      alignDown inputIds.length run.cache.pageSize
  · rw [insertPrefix_present indices present] at stepped
    rw [if_pos (.inl present)] at stepped
    obtain ⟨rfl, rfl⟩ := Prod.mk.inj (Option.some.inj stepped)
    rw [handle_eq present]
    exact insert_present inv pageSize same tier stored longest present
  · rw [insertPrefix_missing indices present] at stepped
    dsimp only at stepped
    split at stepped
    case isFalse => cases stepped
    rename_i fits
    obtain ⟨rfl, rfl⟩ := Prod.mk.inj (Option.some.inj stepped)
    have fresh := stop.resolve_left fun done => present ((congrArg List.length done).trans length)
    have short := longest.onIds.length_le
    have whole : ((run.cache.walk (wholePages run.cache inputIds)).2 ++
        (wholePages run.cache inputIds).drop
          (run.cache.walk (wholePages run.cache inputIds)).2.length).length =
        alignDown inputIds.length run.cache.pageSize := by
      rw [length_append, length_drop, length]
      rw [length] at short
      omega
    have handle := handle_eq whole
    rw [handle]
    exact insert_missing inv pageSize same tier stored longest fresh rfl rfl present
      (fits.resolve_left present)

theorem unref_same {after : List RadixTreeNode}
    (frame : after.map FullTier.unref = nodes.map FullTier.unref) :
    storedPages ps after = storedPages ps nodes ∧ (FullNodes nodes → FullNodes after) := by
  have stripped : ∀ nodes : List RadixTreeNode,
      storedPages ps (nodes.map FullTier.unref) = storedPages ps nodes := by
    intro nodes
    funext word
    unfold storedPages pageAt
    rw [find?_map, Option.map_map]
    rfl
  constructor
  · rw [← stripped after, frame, stripped nodes]
  · intro full node mem
    obtain ⟨old, oldMem, same⟩ := FullTier.exists_of_frame frame mem
    have value := congrArg (fun node : RadixTreeNode => node.data.value.length) same
    have length := congrArg Seg.length same
    exact value.symm.trans ((full old oldMem).trans length)

theorem lock_refines (inv : Inv ps run) {handle : CacheHandle}
    (stepped : run.step (.lock handle) = some (next, res)) :
    Inv ps next ∧ PrefixStore.Step ps run.store (.lock handle) res next.store := by
  obtain rfl := inv.pageSize
  simp only [step] at stepped
  split at stepped
  case isFalse => cases stepped
  rename_i given
  obtain ⟨entry, mem, rfl⟩ := mem_map.mp given
  obtain ⟨rfl, rfl⟩ := Prod.mk.inj (Option.some.inj stepped)
  obtain ⟨tier, frame⟩ := inv.tier.pin (inv.handles entry mem).2.1
  obtain ⟨pages, full⟩ := @unref_same run.cache.pageSize _ _ frame
  refine ⟨⟨rfl, inv.positive, tier, full inv.full, ?_⟩, ?_⟩
  · intro other otherMem
    refine handles_kept inv tier.wf (full inv.full) otherMem ?_ fun word _ _ => congrFun pages word
    exact FullTier.stored_of_frame frame (inv.handles other otherMem).2.1
  · show PrefixStore.Step _ run.store _ .done
      ⟨storedPages run.cache.pageSize (run.cache.tier.pin entry.1.node).nodes,
        entry.1.node :: run.locks⟩
    rw [pages]
    exact .lock

theorem unlock_refines (inv : Inv ps run) {handle : CacheHandle}
    (stepped : run.step (.unlock handle) = some (next, res)) :
    Inv ps next ∧ PrefixStore.Step ps run.store (.unlock handle) res next.store := by
  obtain rfl := inv.pageSize
  simp only [step] at stepped
  split at stepped
  case isFalse => cases stepped
  rename_i locked
  obtain ⟨tier, ran, invTier, frame⟩ := inv.tier.unpin locked
  obtain ⟨pages, full⟩ := @unref_same run.cache.pageSize _ _ frame
  have unlocked : run.cache.unlockHandle handle = .ok { run.cache with tier := tier } := by
    unfold RadixPrefixCache.unlockHandle
    rw [ran]
    rfl
  rw [unlocked] at stepped
  obtain ⟨rfl, rfl⟩ := Prod.mk.inj (Option.some.inj stepped)
  refine ⟨⟨rfl, inv.positive, invTier, full inv.full, ?_⟩, ?_⟩
  · intro other otherMem
    refine handles_kept inv invTier.wf (full inv.full) otherMem ?_ fun word _ _ =>
      congrFun pages word
    exact FullTier.stored_of_frame frame (inv.handles other otherMem).2.1
  · show PrefixStore.Step _ run.store _ .done
      ⟨storedPages run.cache.pageSize tier.nodes, run.locks.erase handle.node⟩
    rw [pages]
    exact .unlock locked

theorem standing_iff : standing nodes word = true ↔ Stored nodes word := by
  unfold standing
  rw [Bool.or_eq_true, List.isEmpty_iff]
  refine or_congr_right ⟨fun found => ?_, fun ⟨node, mem, path⟩ => ?_⟩
  · obtain ⟨node, found⟩ := Option.isSome_iff_exists.mp found
    exact ⟨node, node?_mem found, node?_path found⟩
  · refine find?_isSome.mpr ⟨node, mem, ?_⟩
    exact decide_eq_true path

theorem evict_spec (inv : Inv ps run) {size : Nat}
    (enough : (size : Int) ≤ run.cache.tier.evictableSize) :
    ∃ tier freed words order, run.cache.evict size = .ok ({ run.cache with tier := tier }, freed) ∧
      Evicted ps run.locks run.cache.tier tier freed words ∧ size ≤ freed.length ∧
      Peeled run.cache.tier.nodes order tier.nodes ∧
      freed = order.flatMap (fun node => node.data.value) ∧
      tier.evictableSize = run.cache.tier.evictableSize - freed.length ∧
      tier.protectedSize = run.cache.tier.protectedSize := by
  unfold RadixPrefixCache.evict
  by_cases zero : size = 0
  · rw [if_pos zero]
    exact ⟨run.cache.tier, [], [], [], rfl, Evicted.refl inv.tier inv.full, by omega, rfl, rfl,
      (sub_zero _).symm, rfl⟩
  · rw [if_neg zero, ensure_of enough]
    obtain ⟨tier, freed, words, order, ran, evicted, reach, peels⟩ := evictFrom_spec size
      (run.cache.tier.nodes.length + 1) run.cache.tier
      (RadixPrefixCache.collectLeaveNodesForEvict run.cache.tier.nodes) 0 [] inv.tier inv.full
      (leafHeap_collect inv.tier.wf) (Nat.lt_succ_self _) (by push_cast; omega)
    refine ⟨tier, freed, words, order, ?_, evicted, by omega, peels⟩
    simp only [bind, Except.bind]
    rw [ran]
    rfl

theorem evictable_nonneg (inv : Inv ps run) : 0 ≤ run.cache.tier.evictableSize := by
  rw [inv.tier.counts.evictable]
  exact total_nonneg _ _ fun node _ => idle_nonneg node

theorem evict_bound (inv : Inv ps run) {size : Nat}
    {freed : List Nat} (ran : run.cache.evict size = .ok (cache, freed)) :
    (size : Int) ≤ run.cache.tier.evictableSize := by
  unfold RadixPrefixCache.evict at ran
  by_cases zero : size = 0
  · rw [zero]
    exact evictable_nonneg inv
  · rw [if_neg zero] at ran
    obtain ⟨_, passed, _⟩ := bind_eq_ok.mp ran
    exact ensure_ok passed

theorem evict_refines (inv : Inv ps run) {size : Nat}
    (stepped : run.step (.evict size) = some (next, res)) :
    Inv ps next ∧ PrefixStore.Step ps run.store (.evict size) res next.store := by
  obtain rfl := inv.pageSize
  have enough : (size : Int) ≤ run.cache.tier.evictableSize := by
    simp only [step] at stepped
    split at stepped
    · rename_i ran
      exact evict_bound inv ran
    · cases stepped
  obtain ⟨tier, freed, words, order, ran, evicted, reach, -⟩ := evict_spec inv enough
  simp only [step] at stepped
  rw [ran] at stepped
  obtain ⟨rfl, rfl⟩ := Prod.mk.inj (Option.some.inj stepped)
  refine ⟨⟨rfl, inv.positive, evicted.inv, evicted.full, ?_⟩, ?_⟩
  · intro entry mem
    obtain ⟨pre, stands⟩ := mem_filter.mp mem
    refine handles_kept inv evicted.inv.wf evicted.full pre (standing_iff.mp stands)
      fun word here _ => ?_
    rw [evicted.map] at here ⊢
    split at here
    · cases here
    · rename_i kept
      rw [if_neg kept]
  · have pages : storedPages run.cache.pageSize tier.nodes = fun word =>
        if word ∈ words then none else run.store.pages word := by
      funext word
      exact evicted.map word
    show PrefixStore.Step _ run.store _ (.evicted freed)
      ⟨storedPages run.cache.pageSize tier.nodes, run.locks⟩
    rw [pages]
    exact .evict evicted.nodup evicted.stored evicted.unlocked evicted.pages reach

/-- One operation of the cache is one of the store, with the same answer. -/
theorem step_refines (inv : Inv ps run) {op : RadixOp}
    (stepped : run.step op = some (next, res)) :
    Inv ps next ∧ PrefixStore.Step ps run.store op res next.store := by
  cases op with
  | matchPrefix inputIds => exact matchPrefix_refines inv stepped
  | insertPrefix inputIds indices => exact insertPrefix_refines inv stepped
  | lock handle => exact lock_refines inv stepped
  | unlock handle => exact unlock_refines inv stepped
  | evict size => exact evict_refines inv stepped

theorem exec_refines {ops : List RadixOp} :
    ∀ {run : RadixRun}, Inv ps run → run.exec ops = some (next, results) →
      Inv ps next ∧ PrefixStore.Run ps run.store ops results next.store := by
  induction ops generalizing results with
  | nil =>
    intro run inv ran
    obtain ⟨rfl, rfl⟩ := Prod.mk.inj (Option.some.inj ran)
    exact ⟨inv, .nil⟩
  | cons op ops ih =>
    intro run inv ran
    rw [exec] at ran
    split at ran
    · cases ran
    · rename_i between res stepped
      obtain ⟨last, rest, same⟩ := Option.map_eq_some_iff.mp ran
      obtain ⟨rfl, rfl⟩ := Prod.mk.inj same
      obtain ⟨invNext, step⟩ := step_refines inv stepped
      obtain ⟨invLast, run⟩ := ih invNext rest
      exact ⟨invLast, .cons step run⟩

end RadixRun

/-! ### The sizes -/

def wordsOf (ps : Nat) (kind : RadixTreeNode → Prop) [DecidablePred kind]
    (nodes : List RadixTreeNode) : List (List Token) :=
  (nodes.filter fun node => kind node).flatMap (nodeWords ps)

section Sizes

variable {kind : RadixTreeNode → Prop} [DecidablePred kind]

theorem mem_wordsOf (wf : WF ps nodes) :
    word ∈ wordsOf ps kind nodes ↔ ∃ node ∈ nodes, kind node ∧ Covers ps node word := by
  unfold wordsOf
  rw [mem_flatMap]
  constructor
  · rintro ⟨node, mem, lt⟩
    obtain ⟨inTree, isKind⟩ := mem_filter.mp mem
    exact ⟨node, inTree, of_decide_eq_true isKind, (mem_nodeWords wf inTree).mp lt⟩
  · rintro ⟨node, inTree, isKind, covers⟩
    exact ⟨node, mem_filter.mpr ⟨inTree, decide_eq_true isKind⟩,
      (mem_nodeWords wf inTree).mpr covers⟩

theorem wordsOf_nodup (wf : WF ps nodes) : (wordsOf ps kind nodes).Nodup := by
  refine nodup_flatMap.mpr ⟨fun node mem => ?_, ?_⟩
  · exact nodeWords_nodup wf (mem_filter.mp mem).1
  · have nodup : nodes.Nodup := Nodup.of_map _ wf.paths_nodup
    refine (nodup.filter _).imp_of_mem fun {first second} left right differ => ?_
    intro word inFirst inSecond
    have firstMem := (mem_filter.mp left).1
    have secondMem := (mem_filter.mp right).1
    exact differ (wf.covers_unique firstMem secondMem
      ((mem_nodeWords wf firstMem).mp inFirst) ((mem_nodeWords wf secondMem).mp inSecond))

theorem total_wordsOf (positive : 0 < ps) :
    ∀ {nodes : List RadixTreeNode}, (∀ node ∈ nodes, ps ∣ node.length) →
      total (fun node => if kind node then (node.length : Int) else 0) nodes =
        (ps * (wordsOf ps kind nodes).length : Nat) := by
  intro nodes
  induction nodes with
  | nil =>
    intro _
    rfl
  | cons node nodes ih =>
    intro aligned
    have rest := ih fun other mem => aligned other (mem_cons_of_mem _ mem)
    unfold total wordsOf at *
    rw [map_cons, sum_cons, rest, filter_cons]
    by_cases isKind : kind node
    · obtain ⟨own, size⟩ := aligned node mem_cons_self
      have words : (nodeWords ps node).length = own := by
        unfold nodeWords
        rw [length_map, length_range, size, Nat.mul_div_cancel_left _ positive]
      rw [if_pos isKind, if_pos (decide_eq_true isKind), flatMap_cons, length_append,
        words, size, Nat.mul_add]
      push_cast
      ring
    · rw [if_neg isKind, if_neg (by simpa using isKind), zero_add]

theorem total_of_store {other : List RadixTreeNode} (positive : 0 < ps) (wf : WF ps nodes)
    (wfOther : WF ps other)
    (same : ∀ word, (∃ node ∈ nodes, kind node ∧ Covers ps node word) ↔
      ∃ node ∈ other, kind node ∧ Covers ps node word) :
    total (fun node => if kind node then (node.length : Int) else 0) nodes =
      total (fun node => if kind node then (node.length : Int) else 0) other := by
  have words : (wordsOf ps kind nodes).Perm (wordsOf ps kind other) := by
    refine (perm_ext_iff_of_nodup (wordsOf_nodup wf) (wordsOf_nodup wfOther)).mpr fun word => ?_
    rw [mem_wordsOf wf, mem_wordsOf wfOther]
    exact same word
  rw [total_wordsOf positive wf.aligned, total_wordsOf positive wfOther.aligned, words.length_eq]

theorem locked_iff (inv : FullTier.Inv ps locks tier) {node : RadixTreeNode}
    (mem : node ∈ tier.nodes) (covers : Covers ps node word) :
    node.data.refCount = 0 ↔ ∀ lock ∈ locks, ¬word <+: lock := by
  rw [inv.counts.refCount node mem]
  constructor
  · intro free lock lockMem onLock
    have below := (covers_prefix_iff inv.wf mem covers (inv.stored lock lockMem)).mp onLock
    have positive := through_pos lockMem below
    omega
  · intro free
    refine through_eq_zero fun lock lockMem below => free lock lockMem ?_
    exact (covers_prefix_iff inv.wf mem covers (inv.stored lock lockMem)).mpr below

theorem kind_of_store {other : FullTier} (inv : FullTier.Inv ps locks tier)
    (invOther : FullTier.Inv ps locks other)
    (same : storedPages ps tier.nodes = storedPages ps other.nodes)
    (kindOf : Prop → Prop) (word : List Token)
    (here : ∃ node ∈ tier.nodes, kindOf (node.data.refCount = 0) ∧ Covers ps node word) :
    ∃ node ∈ other.nodes, kindOf (node.data.refCount = 0) ∧ Covers ps node word := by
  obtain ⟨node, mem, isKind, covers⟩ := here
  have stored : (storedPages ps other.nodes word).isSome = true := by
    rw [← same]
    exact inv.wf.pageAt_isSome_iff.mpr ⟨node, mem, covers⟩
  obtain ⟨copy, copyMem, copyCovers⟩ := invOther.wf.pageAt_isSome_iff.mp stored
  refine ⟨copy, copyMem, ?_, copyCovers⟩
  have agree : (node.data.refCount = 0) = (copy.data.refCount = 0) := propext
    ((locked_iff inv mem covers).trans (locked_iff invOther copyMem copyCovers).symm)
  rwa [← agree]

theorem sizes_of_store {other : FullTier} (positive : 0 < ps) (inv : FullTier.Inv ps locks tier)
    (invOther : FullTier.Inv ps locks other)
    (same : storedPages ps tier.nodes = storedPages ps other.nodes) :
    tier.evictableSize = other.evictableSize ∧ tier.protectedSize = other.protectedSize := by
  have swap : ∀ node : RadixTreeNode,
      pinned node = if ¬node.data.refCount = 0 then (node.length : Int) else 0 := by
    intro node
    exact (ite_not _ _ _).symm
  constructor
  · rw [inv.counts.evictable, invOther.counts.evictable]
    exact total_of_store positive inv.wf invOther.wf fun word =>
      ⟨kind_of_store inv invOther same id word, kind_of_store invOther inv same.symm id word⟩
  · rw [inv.counts.protect, invOther.counts.protect, funext swap]
    exact total_of_store positive inv.wf invOther.wf fun word =>
      ⟨kind_of_store inv invOther same Not word, kind_of_store invOther inv same.symm Not word⟩

end Sizes

/-! ### The whole sequence -/

namespace RadixRun

variable {run : RadixRun}

theorem Inv.handlesDenote (inv : Inv ps run) : run.HandlesDenote := by
  intro entry mem
  obtain rfl := inv.pageSize
  obtain ⟨handle, stored, reads⟩ := inv.handles entry mem
  refine ⟨?_, lineage_keys inv.tier.wf _ stored le_rfl, reads, ?_⟩
  · rw [handle]
    rfl
  · rw [← reads]
    exact collectKv_eq inv.tier.wf inv.full stored

theorem Inv.sizesExact (inv : Inv ps run) : run.SizesExact :=
  ⟨inv.tier.counts.evictable, inv.tier.counts.protect, inv.tier.counts.refCount⟩

theorem Inv.sizes_eq {other : RadixRun} (inv : Inv ps run) (invOther : Inv ps other)
    (same : run.store = other.store) :
    run.cache.tier.evictableSize = other.cache.tier.evictableSize ∧
      run.cache.tier.protectedSize = other.cache.tier.protectedSize := by
  have pages := congrArg PrefixStore.pages same
  have locks : run.locks = other.locks := congrArg PrefixStore.locks same
  simp only [store, inv.pageSize, invOther.pageSize] at pages
  have tier := inv.tier
  rw [locks] at tier
  exact sizes_of_store inv.positive tier invOther.tier pages

theorem Inv.indistinct {other : RadixRun} (inv : Inv ps run) (invOther : Inv ps other)
    (same : run.store = other.store) : run.Indistinct other := by
  obtain ⟨evictable, protect⟩ := inv.sizes_eq invOther same
  refine ⟨evictable, protect, ?_⟩
  intro later leftEnd rightEnd leftAnswers rightAnswers keeps left right
  obtain ⟨leftInv, leftRun⟩ := exec_refines inv left
  obtain ⟨rightInv, rightRun⟩ := exec_refines invOther right
  rw [same] at leftRun
  obtain ⟨answers, ends⟩ := leftRun.deterministic keeps rightRun
  exact ⟨answers, ends, leftInv.sizes_eq rightInv ends⟩

/-- **The plain radix cache is a map from page-aligned words to their pages**: whatever sequence of
calls goes through, the answers are those of the store, handles keep denoting their words and
reading their indices, the sizes are what the reference counts say, and where two sequences end with
the same store the splits they made are invisible. An eviction of no more than is evictable, and the
return of a lock, always go through. -/
theorem radixPrefixCache_refines (positive : 0 < ps) {clock : Clock} {ops : List RadixOp} (ran : (new ps clock).exec ops = some (run, results)) :
    PrefixStore.Run ps PrefixStore.empty ops results run.store ∧ run.HandlesDenote ∧
      run.SizesExact ∧
      (∀ (size : Nat), (size : Int) ≤ run.cache.tier.evictableSize →
        (run.step (.evict size)).isSome = true) ∧
      (∀ handle : CacheHandle, handle.node ∈ run.locks →
        (run.step (.unlock handle)).isSome = true) ∧
      ∀ (otherClock : Clock) (otherOps : List RadixOp) (other : RadixRun)
        (otherResults : List RadixResult),
        (new ps otherClock).exec otherOps = some (other, otherResults) →
        run.store = other.store → run.Indistinct other := by
  obtain ⟨inv, refines⟩ := exec_refines (inv_new positive clock) ran
  refine ⟨refines, inv.handlesDenote, inv.sizesExact, ?_, ?_, ?_⟩
  · intro size enough
    obtain ⟨tier, freed, words, order, evicts, _⟩ := evict_spec inv enough
    simp only [step]
    rw [evicts]
    rfl
  · intro handle locked
    obtain ⟨tier, unpins, _⟩ := inv.tier.unpin locked
    simp only [step, RadixPrefixCache.unlockHandle]
    rw [if_pos locked, unpins]
    rfl
  · intro otherClock otherOps other otherResults otherRan same
    obtain ⟨invOther, _⟩ := exec_refines (inv_new positive otherClock) otherRan
    exact inv.indistinct invOther same

def stillClock : Clock := ⟨fun _ => 0, 0⟩

/-- A query cuts a node, its prefix is locked, and an eviction takes the rest. -/
theorem radixPrefixCache_refines_cut : ∃ run : RadixRun, (new 2 stillClock).exec
        [.insertPrefix [1, 2, 3, 4, 5] [10, 11, 12, 13, 14], .matchPrefix [1, 2, 9],
          .lock (handleOn [1, 2]), .evict 1] =
      some (run, [.inserted 0 (handleOn [1, 2, 3, 4]), .matched (handleOn [1, 2]) [10, 11], .done,
        .evicted [12, 13]]) ∧
    PrefixStore.Run 2 PrefixStore.empty
      [.insertPrefix [1, 2, 3, 4, 5] [10, 11, 12, 13, 14], .matchPrefix [1, 2, 9],
        .lock (handleOn [1, 2]), .evict 1]
      [.inserted 0 (handleOn [1, 2, 3, 4]), .matched (handleOn [1, 2]) [10, 11], .done,
        .evicted [12, 13]] run.store := by
  obtain ⟨run, ran⟩ : ∃ run : RadixRun, (new 2 stillClock).exec
      [.insertPrefix [1, 2, 3, 4, 5] [10, 11, 12, 13, 14], .matchPrefix [1, 2, 9],
        .lock (handleOn [1, 2]), .evict 1] =
      some (run, [.inserted 0 (handleOn [1, 2, 3, 4]), .matched (handleOn [1, 2]) [10, 11], .done,
        .evicted [12, 13]]) := ⟨_, rfl⟩
  exact ⟨run, ran, (radixPrefixCache_refines (by decide) ran).1⟩

/-- **Evictions see splits**: they free whole nodes. A query for the first of two tokens stored in
one node changes nothing of the store, and after it an eviction of one token frees one instead of
two. -/
theorem evict_sees_splits : ¬∀ (clock : Clock) (first second : List RadixOp) (left right : RadixRun)
    (leftResults rightResults : List RadixResult),
    (new 1 clock).exec first = some (left, leftResults) →
    (new 1 clock).exec second = some (right, rightResults) → left.store = right.store →
    ∀ (op : RadixOp) (leftNext rightNext : RadixRun) (leftAnswer rightAnswer : RadixResult),
      left.step op = some (leftNext, leftAnswer) → right.step op = some (rightNext, rightAnswer) →
      leftAnswer = rightAnswer := by
  intro invisible
  obtain ⟨left, ranLeft, leftNext, evictLeft⟩ : ∃ left : RadixRun,
      (new 1 stillClock).exec [.insertPrefix [1, 2] [10, 11]] =
        some (left, [.inserted 0 (handleOn [1, 2])]) ∧
      ∃ next, left.step (.evict 1) = some (next, .evicted [10, 11]) := ⟨_, rfl, _, rfl⟩
  obtain ⟨right, ranRight, rightNext, evictRight⟩ : ∃ right : RadixRun,
      (new 1 stillClock).exec [.insertPrefix [1, 2] [10, 11], .matchPrefix [1]] =
        some (right, [.inserted 0 (handleOn [1, 2]), .matched (handleOn [1]) [10]]) ∧
      ∃ next, right.step (.evict 1) = some (next, .evicted [11]) := ⟨_, rfl, _, rfl⟩
  have positive : 0 < 1 := by decide
  obtain ⟨-, leftRun⟩ := exec_refines (inv_new positive stillClock) ranLeft
  obtain ⟨-, rightRun⟩ := exec_refines (inv_new positive stillClock) ranRight
  obtain ⟨between, rightRun, unchanged⟩ := rightRun.match_last
  have same := (leftRun.deterministic (by simp [RadixOp.Keeps]) rightRun).2
  have answers := invisible stillClock _ _ left right _ _ ranLeft ranRight
    (same.trans unchanged.symm) (.evict 1) leftNext rightNext _ _ evictLeft evictRight
  cases answers

/-! ### Evictions -/

/-- **An eviction**, after any sequence of calls: asked for no more than is evictable, it gets it. It
takes unlocked nodes one by one, each a leaf by then and the least recently used of those; their
indices are handed out once, and what is below a lock reads as before. -/
theorem evict_exact (positive : 0 < ps) {clock : Clock} {ops : List RadixOp} (ran : (new ps clock).exec ops = some (run, results)) {size : Nat}
    (enough : (size : Int) ≤ run.cache.tier.evictableSize) :
    ∃ tier freed order,
      run.cache.evict size = .ok ({ run.cache with tier := tier }, freed) ∧ size ≤ freed.length ∧
      Peeled run.cache.tier.nodes order tier.nodes ∧
      freed = order.flatMap (fun node => node.data.value) ∧
      run.cache.tier.nodes.Perm (order ++ tier.nodes) ∧
      (run.cache.tier.nodes.flatMap fun node => node.data.value).Perm
        (freed ++ tier.nodes.flatMap fun node => node.data.value) ∧
      (∀ lock ∈ run.locks, Stored tier.nodes lock ∧
        collectKv tier.nodes lock = collectKv run.cache.tier.nodes lock ∧
        ∀ node ∈ run.cache.tier.nodes, node.path <+: lock → node ∈ tier.nodes) ∧
      tier.evictableSize = run.cache.tier.evictableSize - freed.length ∧
      tier.protectedSize = run.cache.tier.protectedSize := by
  obtain ⟨inv, -⟩ := exec_refines (inv_new positive clock) ran
  obtain ⟨tier, freed, words, order, evicts, evicted, reach, peeled, rfl, evictable, protect⟩ :=
    evict_spec inv enough
  obtain ⟨parts, unlocked⟩ := peeled.parts inv.tier.wf
  refine ⟨tier, _, order, evicts, reach, peeled, rfl, parts, ?_, fun lock locked => ?_, evictable,
    protect⟩
  · rw [← flatMap_append]
    exact parts.flatMap_right _
  have stored := inv.tier.stored lock locked
  have still := evicted.inv.stored lock locked
  refine ⟨still, ?_, fun node mem onLock => ?_⟩
  · refine collectKv_congr inv.tier.wf inv.full evicted.inv.wf evicted.full stored still
      fun page _ => ?_
    rw [evicted.map, if_neg]
    exact fun lt => evicted.unlocked _ lt lock locked (List.take_prefix _ _)
  · rcases mem_append.mp (parts.mem_iff.mp mem) with taken | kept
    · have counts := through_pos locked onLock
      rw [← inv.tier.counts.refCount node mem, unlocked node taken] at counts
      exact absurd counts (lt_irrefl _)
    · exact kept

/-- Two branches below a locked node: the older one is taken. -/
theorem evict_exact_older : ∃ run : RadixRun, ∃ results, ∃ tier freed order,
    (new 1 ⟨fun reading => reading, 0⟩).exec [.insertPrefix [1, 2] [10, 11],
      .insertPrefix [1, 3] [10, 12], .matchPrefix [1], .lock (handleOn [1])] = some (run, results) ∧
    run.cache.evict 1 = .ok ({ run.cache with tier := tier }, freed) ∧
    Peeled run.cache.tier.nodes order tier.nodes := by
  obtain ⟨run, results, ran⟩ : ∃ run : RadixRun, ∃ results,
      (new 1 ⟨fun reading => reading, 0⟩).exec [.insertPrefix [1, 2] [10, 11],
        .insertPrefix [1, 3] [10, 12], .matchPrefix [1], .lock (handleOn [1])] =
        some (run, results) := ⟨_, _, rfl⟩
  have enough : ((1 : Nat) : Int) ≤ run.cache.tier.evictableSize := by
    cases ran
    decide
  obtain ⟨tier, freed, order, evicts, -, peeled, -⟩ := evict_exact (by decide) ran enough
  exact ⟨run, results, tier, freed, order, ran, evicts, peeled⟩

end RadixRun

end FreeToken
