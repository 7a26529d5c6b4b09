/-
**Locks of the sliding-window tree: what `inc_lock` takes, `dec_lock` gives back.**
-/

import FreeToken.KVCache.SWAWindow

namespace FreeToken

open PageTree
open List hiding set

variable {first second : RadixTreeNode} (uuid : Option Nat) {nodes other : List RadixTreeNode}
variable {node : RadixTreeNode} {word : List Token}

namespace SWARadixCache

/-! ### One round of a lock loop -/

/-- The counts of both tiers while a lock loop is under way. -/
structure Locking (refs swaRefs : List Token → Int) (cache : SWARadixCache) : Prop where
  wf : WF cache.pageSize cache.tier.nodes
  counts : FullTier.Counts refs cache.tier
  window : WindowCounts swaRefs cache.tier.nodes cache.swaEvictable cache.swaProtected
  unique : ∀ first ∈ cache.tier.nodes, ∀ second ∈ cache.tier.nodes, first.data.swaUuid ≠ none →
    first.data.swaUuid = second.data.swaUuid → first = second
  bounded : ∀ node ∈ cache.tier.nodes, ∀ uuid, node.data.swaUuid = some uuid → uuid ≤ cache.uuid

def strip (node : RadixTreeNode) : RadixTreeNode :=
  { node with data := { node.data with refCount := 0, swaRefCount := 0, swaUuid := none } }

structure Kept (nodes other : List RadixTreeNode) : Prop where
  same : other.map strip = nodes.map strip
  marks : ∀ node ∈ nodes, node.data.swaUuid ≠ none →
    ∃ new ∈ other, strip new = strip node ∧ new.data.swaUuid = node.data.swaUuid

theorem Kept.refl (nodes : List RadixTreeNode) : Kept nodes nodes :=
  ⟨rfl, fun node mem _ => ⟨node, mem, rfl, rfl⟩⟩

theorem Kept.trans {nodes other last : List RadixTreeNode} (first : Kept nodes other)
    (second : Kept other last) : Kept nodes last where
  same := second.same.trans first.same
  marks := by
    intro node mem marked
    obtain ⟨new, newMem, words, mark⟩ := first.marks node mem marked
    obtain ⟨newer, newerMem, words', mark'⟩ := second.marks new newMem (mark ▸ marked)
    exact ⟨newer, newerMem, words'.trans words, mark'.trans mark⟩

theorem Kept.modify (nodes : List RadixTreeNode) (word : List Token)
    (change : RadixTreeNode → NodeData)
    (same : ∀ node, strip { node with data := change node } = strip node)
    (marks : ∀ node ∈ nodes, node.path = word → node.data.swaUuid ≠ none →
      (change node).swaUuid = node.data.swaUuid) :
    Kept nodes (PageTree.modify nodes word change) where
  same := by
    rw [PageTree.modify, map_map]
    refine map_congr_left fun node _ => ?_
    simp only [Function.comp_apply]
    split
    · exact same node
    · rfl
  marks := by
    intro node mem marked
    refine ⟨_, mem_modify.mpr ⟨node, mem, rfl⟩, ?_⟩
    split
    · next here => exact ⟨same node, marks node mem here marked⟩
    · exact ⟨rfl, rfl⟩

theorem Kept.old (kept : Kept nodes other)
    {new : RadixTreeNode} (mem : new ∈ other) : ∃ node ∈ nodes, strip node = strip new := by
  have : strip new ∈ nodes.map strip := kept.same ▸ mem_map_of_mem mem
  exact mem_map.mp this

theorem Kept.new (kept : Kept nodes other) (mem : node ∈ nodes) : ∃ new ∈ other, strip new = strip node := by
  have : strip node ∈ other.map strip := kept.same.symm ▸ mem_map_of_mem mem
  exact mem_map.mp this

theorem strip_path (same : strip first = strip second) : first.path = second.path := by
  have words := congrArg Seg.path same
  exact words

theorem strip_parent (same : strip first = strip second) : first.parent = second.parent := by
  have words := congrArg Seg.parent same
  exact words

theorem strip_tombstone (same : strip first = strip second) :
    first.data.swaTombstone = second.data.swaTombstone := by
  have marks := congrArg (fun node => node.data.swaTombstone) same
  exact marks

variable {refs swaRefs : List Token → Int} {cache : SWARadixCache} {cur : RadixTreeNode}

theorem marks_modify {nodes : List RadixTreeNode} {bound : Nat} (word : List Token)
    (change : RadixTreeNode → NodeData) (same : ∀ node, (change node).swaUuid = node.data.swaUuid)
    (unique : ∀ first ∈ nodes, ∀ second ∈ nodes, first.data.swaUuid ≠ none →
      first.data.swaUuid = second.data.swaUuid → first = second)
    (bounded : ∀ node ∈ nodes, ∀ uuid, node.data.swaUuid = some uuid → uuid ≤ bound) :
    (∀ first ∈ PageTree.modify nodes word change, ∀ second ∈ PageTree.modify nodes word change,
      first.data.swaUuid ≠ none → first.data.swaUuid = second.data.swaUuid → first = second) ∧
    ∀ node ∈ PageTree.modify nodes word change, ∀ uuid,
      node.data.swaUuid = some uuid → uuid ≤ bound := by
  have uuid : ∀ node : RadixTreeNode, (if node.path = word then { node with data := change node }
      else node : RadixTreeNode).data.swaUuid = node.data.swaUuid := by
    intro node
    split
    · exact same node
    · rfl
  constructor
  · intro first left second right marked equal
    obtain ⟨oldFirst, oldLeft, rfl⟩ := mem_modify.mp left
    obtain ⟨oldSecond, oldRight, rfl⟩ := mem_modify.mp right
    rw [uuid] at marked equal
    rw [uuid] at equal
    rw [unique oldFirst oldLeft oldSecond oldRight marked equal]
  · intro node mem mark has
    obtain ⟨old, oldMem, rfl⟩ := mem_modify.mp mem
    rw [uuid] at has
    exact bounded old oldMem mark has

theorem Locking.pinNode (locking : Locking refs swaRefs cache) (mem : cur ∈ cache.tier.nodes)
    (nonneg : 0 ≤ refs cur.path) :
    Locking (fun word => refs word + if word = cur.path then 1 else 0) swaRefs
        { cache with tier := cache.tier.pinNode cur } ∧
      Kept cache.tier.nodes (cache.tier.pinNode cur).nodes ∧
      (cache.tier.pinNode cur).nodes = modify cache.tier.nodes cur.path fun node =>
        { node.data with refCount := node.data.refCount + 1 } := by
  have shape : (cache.tier.pinNode cur).nodes = modify cache.tier.nodes cur.path fun node =>
      { node.data with refCount := node.data.refCount + 1 } := by
    unfold FullTier.pinNode
    split <;> rfl
  have marks := marks_modify cur.path
    (fun node => { node.data with refCount := node.data.refCount + 1 }) (fun _ => rfl)
    locking.unique locking.bounded
  refine ⟨⟨?_, locking.counts.pinNode locking.wf mem nonneg, ?_, ?_, ?_⟩, ?_, shape⟩
  · exact shape ▸ locking.wf.modify _ _
  · exact shape ▸ locking.window.modify_same _ _ (fun _ => rfl) fun _ => rfl
  · exact shape ▸ marks.1
  · exact shape ▸ marks.2
  · exact shape ▸ Kept.modify _ _ _ (fun _ => rfl) fun _ _ _ _ => rfl

theorem Locking.withWindow (locking : Locking refs swaRefs cache) (mem : cur ∈ cache.tier.nodes)
    (live : cur.data.swaTombstone = false) (nonneg : 0 ≤ swaRefs cur.path) :
    let moved := if cur.data.swaRefCount = 0 then
      { cache with
        swaEvictable := cache.swaEvictable - cur.length
        swaProtected := cache.swaProtected + cur.length }
      else cache
    Locking refs (fun word => swaRefs word + if word = cur.path then 1 else 0)
        (moved.withNodes (modify cache.tier.nodes cur.path fun node =>
          { node.data with swaRefCount := node.data.swaRefCount + 1 })) ∧
      Kept cache.tier.nodes (modify cache.tier.nodes cur.path fun node =>
        { node.data with swaRefCount := node.data.swaRefCount + 1 }) := by
  have here := locking.window.swaRef cur mem
  rw [live, if_neg (by simp)] at here
  have marks := marks_modify cur.path
    (fun node => { node.data with swaRefCount := node.data.swaRefCount + 1 }) (fun _ => rfl)
    locking.unique locking.bounded
  have window := locking.window.modify_node locking.wf mem
    (fun node => { node.data with swaRefCount := node.data.swaRefCount + 1 })
    (fun word => swaRefs word + if word = cur.path then 1 else 0) (by simp [live, here])
    (fun word ne => by simp [ne])
  have full := locking.counts.modify_same cur.path
    (fun node => { node.data with swaRefCount := node.data.swaRefCount + 1 }) fun _ => rfl
  refine ⟨?_, Kept.modify _ _ _ (fun _ => rfl) fun _ _ _ _ => rfl⟩
  by_cases first : cur.data.swaRefCount = 0
  · rw [if_pos first]
    have evictable := window.sizes (cache.swaEvictable - cur.length)
      (cache.swaProtected + cur.length)
      (by simp [liveIdle, live, first]) (by simp [liveLocked, live, first])
    exact ⟨locking.wf.modify _ _, full, evictable, marks.1, marks.2⟩
  · rw [if_neg first]
    have next : cur.data.swaRefCount + 1 ≠ 0 := by
      have := here ▸ nonneg
      omega
    have evictable := window.sizes cache.swaEvictable cache.swaProtected
      (by simp [liveIdle, live, first, next]) (by simp [liveLocked, live, first, next])
    exact ⟨locking.wf.modify _ _, full, evictable, marks.1, marks.2⟩

theorem Locking.mark (locking : Locking refs swaRefs cache) (mem : cur ∈ cache.tier.nodes)
    (unmarked : cur.data.swaUuid = none) :
    Locking refs swaRefs { cache.withNodes (modify cache.tier.nodes cur.path fun node =>
        { node.data with swaUuid := some (cache.uuid + 1) }) with uuid := cache.uuid + 1 } ∧
      Kept cache.tier.nodes (modify cache.tier.nodes cur.path fun node =>
        { node.data with swaUuid := some (cache.uuid + 1) }) := by
  have full := locking.counts.modify_same cur.path
    (fun node => { node.data with swaUuid := some (cache.uuid + 1) }) fun _ => rfl
  have window := locking.window.modify_same cur.path
    (fun node => { node.data with swaUuid := some (cache.uuid + 1) }) (fun _ => rfl) fun _ => rfl
  have other : ∀ node ∈ cache.tier.nodes, node.data.swaUuid ≠ some (cache.uuid + 1) := by
    intro node nodeMem has
    have := locking.bounded node nodeMem _ has
    omega
  refine ⟨⟨locking.wf.modify _ _, full, window, ?_, ?_⟩, ?_⟩
  · intro first left second right marked equal
    obtain ⟨oldFirst, oldLeft, rfl⟩ := mem_modify.mp left
    obtain ⟨oldSecond, oldRight, rfl⟩ := mem_modify.mp right
    by_cases firstHere : oldFirst.path = cur.path
    · by_cases secondHere : oldSecond.path = cur.path
      · rw [locking.wf.eq_of_path oldLeft oldRight (firstHere.trans secondHere.symm)]
      · rw [if_pos firstHere, if_neg secondHere] at equal
        exact absurd equal.symm (other oldSecond oldRight)
    · by_cases secondHere : oldSecond.path = cur.path
      · rw [if_neg firstHere, if_pos secondHere] at equal
        exact absurd equal (other oldFirst oldLeft)
      · rw [if_neg firstHere] at marked equal ⊢
        rw [if_neg secondHere] at equal ⊢
        exact locking.unique oldFirst oldLeft oldSecond oldRight marked equal
  · intro node nodeMem uuid has
    obtain ⟨old, oldMem, rfl⟩ := mem_modify.mp nodeMem
    split at has
    · exact (Option.some.inj has).symm.le
    · exact (locking.bounded old oldMem uuid has).trans (Nat.le_succ _)
  · refine Kept.modify _ _ _ (fun _ => rfl) fun node nodeMem same marked => ?_
    rw [locking.wf.eq_of_path nodeMem mem same] at marked
    exact absurd unmarked marked

/-! ### The loop of `inc_lock` -/

theorem step_of_covered (st : LockState) (cur : RadixTreeNode)
    (covered : st.cache.slidingWindowSize ≤ st.swaLocked) :
    st.step cur = { st with cache := { st.cache with tier := st.cache.tier.pinNode cur } } := by
  unfold LockState.step LockState.window
  rw [if_neg]
  exact fun both => absurd both.1 (not_lt.mpr covered)

theorem step_of_tombstone (st : LockState) (cur : RadixTreeNode)
    (dead : cur.data.swaTombstone = true) :
    st.step cur = { st with cache := { st.cache with tier := st.cache.tier.pinNode cur } } := by
  unfold LockState.step LockState.window
  rw [if_neg]
  simp [dead]

def lockWindow (cache : SWARadixCache) (cur : RadixTreeNode) : SWARadixCache :=
  (if cur.data.swaRefCount = 0 then
    { cache with
      swaEvictable := cache.swaEvictable - cur.length
      swaProtected := cache.swaProtected + cur.length }
    else cache).withNodes (modify cache.tier.nodes cur.path fun node =>
      { node.data with swaRefCount := node.data.swaRefCount + 1 })

def markBoundary (cache : SWARadixCache) (cur : RadixTreeNode) : SWARadixCache :=
  { cache.withNodes (modify cache.tier.nodes cur.path fun node =>
      { node.data with swaUuid := some (cache.uuid + 1) }) with uuid := cache.uuid + 1 }

theorem step_of_live (st : LockState) (cur : RadixTreeNode)
    (short : st.swaLocked < st.cache.slidingWindowSize) (live : cur.data.swaTombstone = false) :
    st.step cur = let locked := lockWindow { st.cache with tier := st.cache.tier.pinNode cur } cur
      if st.cache.slidingWindowSize ≤ st.swaLocked + cur.length then
        match cur.data.swaUuid with
        | some uuid => ⟨locked, st.swaLocked + cur.length, some uuid⟩
        | none => ⟨locked.markBoundary cur, st.swaLocked + cur.length, some (locked.uuid + 1)⟩
      else ⟨locked, st.swaLocked + cur.length, st.swaUuidForLock⟩ := by
  unfold LockState.step LockState.window lockWindow
  rw [if_pos ⟨short, live⟩]
  by_cases first : cur.data.swaRefCount = 0
  · simp only [if_pos first]
    rfl
  · simp only [if_neg first]
    rfl

theorem Kept.mem_of_strip (kept : Kept nodes other) (stored : Stored nodes word) : Stored other word := by
  refine stored.imp_right fun ⟨node, mem, path⟩ => ?_
  obtain ⟨new, newMem, same⟩ := kept.new mem
  exact ⟨new, newMem, (strip_path same).trans path⟩

/-- What a run of the loop over the rest of a path has done when it ends: `taken` are the nodes met
before the window was covered. -/
structure LockRun (refs swaRefs : List Token → Int) (st last : LockState)
    (path taken : List RadixTreeNode) : Prop where
  locking : Locking (fun word => refs word + (path.map Seg.path).count word)
    (fun word => swaRefs word +
      ((taken.filter fun node => node.data.swaTombstone = false).map Seg.path).count word) last.cache
  kept : Kept st.cache.tier.nodes last.cache.tier.nodes
  pageSize : last.cache.pageSize = st.cache.pageSize
  window : last.cache.slidingWindowSize = st.cache.slidingWindowSize

/-- How the loop ends: it began with the window covered, it never covered it, or the last node
taken covered it and carries the mark that is returned. -/
def LockEnd (st last : LockState) (taken rest : List RadixTreeNode) : Prop :=
  (st.cache.slidingWindowSize ≤ st.swaLocked ∧ taken = [] ∧
      last.swaUuidForLock = st.swaUuidForLock) ∨
    (st.swaLocked < st.cache.slidingWindowSize ∧ rest = [] ∧ last.swaUuidForLock = none) ∨
    (st.swaLocked < st.cache.slidingWindowSize ∧ ∃ pre boundary, taken = pre ++ [boundary] ∧
      boundary.data.swaTombstone = false ∧ last.swaUuidForLock ≠ none ∧
      ∃ marked ∈ last.cache.tier.nodes, strip marked = strip boundary ∧
        marked.data.swaUuid = last.swaUuidForLock)

theorem Locking.lockLive (locking : Locking refs swaRefs cache) (mem : cur ∈ cache.tier.nodes)
    (live : cur.data.swaTombstone = false) (nonneg : ∀ word, 0 ≤ refs word)
    (swaNonneg : ∀ word, 0 ≤ swaRefs word) :
    let locked := lockWindow { cache with tier := cache.tier.pinNode cur } cur
    Locking (fun word => refs word + if word = cur.path then 1 else 0)
        (fun word => swaRefs word + if word = cur.path then 1 else 0) locked ∧
      Kept cache.tier.nodes locked.tier.nodes ∧
      (∃ new ∈ locked.tier.nodes, strip new = strip cur ∧ new.data.swaUuid = cur.data.swaUuid) ∧
      ∀ other ∈ cache.tier.nodes, other.path ≠ cur.path → other ∈ locked.tier.nodes := by
  obtain ⟨pinned, keptPin, shape⟩ := locking.pinNode mem (nonneg cur.path)
  let next : RadixTreeNode :=
    { cur with data := { cur.data with refCount := cur.data.refCount + 1 } }
  have nextMem : next ∈ (cache.tier.pinNode cur).nodes := by
    rw [shape]
    exact mem_modify.mpr ⟨cur, mem, (if_pos rfl).symm⟩
  obtain ⟨locked, keptLock⟩ := pinned.withWindow nextMem live (swaNonneg cur.path)
  refine ⟨locked, keptPin.trans keptLock, ?_, ?_⟩
  · exact ⟨_, mem_modify.mpr ⟨next, nextMem, (if_pos rfl).symm⟩, rfl, rfl⟩
  · intro other otherMem ne
    refine FullTier.mem_modify_of_ne ?_ ne
    rw [shape]
    exact FullTier.mem_modify_of_ne otherMem ne

theorem LockEnd.cons {st next last : LockState} {taken rest : List RadixTreeNode}
    (short : st.swaLocked < st.cache.slidingWindowSize)
    (still : next.swaLocked < next.cache.slidingWindowSize) (ends : LockEnd next last taken rest)
    (cur : RadixTreeNode) : LockEnd st last (cur :: taken) rest := by
  rcases ends with ⟨covered, _, _⟩ | ⟨_, all, unset⟩ | ⟨_, pre, boundary, parts, ends⟩
  · exact absurd covered (not_le.mpr still)
  · exact Or.inr (Or.inl ⟨short, all, unset⟩)
  · exact Or.inr (Or.inr ⟨short, cur :: pre, boundary, by rw [parts]; rfl, ends⟩)

theorem LockEnd.covered {st last : LockState} {taken rest : List RadixTreeNode}
    (ends : LockEnd st last taken rest) (covered : st.cache.slidingWindowSize ≤ st.swaLocked) :
    taken = [] ∧ last.swaUuidForLock = st.swaUuidForLock := by
  rcases ends with ⟨_, none, uuid⟩ | ⟨short, _, _⟩ | ⟨short, _⟩
  · exact ⟨none, uuid⟩
  · exact absurd covered (not_le.mpr short)
  · exact absurd covered (not_le.mpr short)

theorem add_count_path (base : List Token → Int) (cur : RadixTreeNode) (path : List RadixTreeNode)
    (word : List Token) : base word + ((cur :: path).map Seg.path).count word =
      (base word + if word = cur.path then 1 else 0) + (path.map Seg.path).count word := by
  rw [map_cons, count_cons]
  by_cases same : word = cur.path
  · simp [same]
    ring
  · simp [same, Ne.symm same]

theorem sub_count_path (base : List Token → Int) (cur : RadixTreeNode) (path : List RadixTreeNode)
    (word : List Token) : base word - ((cur :: path).map Seg.path).count word =
      (base word - if word = cur.path then 1 else 0) - (path.map Seg.path).count word := by
  have added := add_count_path (fun _ => 0) cur path word
  linarith

/-- The loop of `inc_lock` adds one full reference to every node of the path and one window
reference to its live nodes down to a boundary. -/
theorem lock_fold (path : List RadixTreeNode) :
    ∀ (st : LockState) (refs swaRefs : List Token → Int), Locking refs swaRefs st.cache →
      (∀ node ∈ path, node ∈ st.cache.tier.nodes) → (path.map Seg.path).Nodup →
      (∀ word, 0 ≤ refs word) → (∀ word, 0 ≤ swaRefs word) →
      (st.swaLocked < st.cache.slidingWindowSize → st.swaUuidForLock = none) →
      ∃ taken rest, path = taken ++ rest ∧
        LockRun refs swaRefs st (path.foldl LockState.step st) path taken ∧
        LockEnd st (path.foldl LockState.step st) taken rest := by
  induction path with
  | nil =>
    intro st refs swaRefs locking _ _ _ _ unset
    refine ⟨[], [], rfl, ⟨?_, Kept.refl _, rfl, rfl⟩, ?_⟩
    · simpa using locking
    · rcases lt_or_ge st.swaLocked st.cache.slidingWindowSize with short | covered
      · exact Or.inr (Or.inl ⟨short, rfl, unset short⟩)
      · exact Or.inl ⟨covered, rfl, rfl⟩
  | cons cur path ih =>
    intro st refs swaRefs locking inTree nodup nonneg swaNonneg unset
    obtain ⟨apart, nodup⟩ := nodup_cons.mp nodup
    have mem := inTree cur mem_cons_self
    have ne : ∀ other ∈ path, other.path ≠ cur.path := fun other otherMem same =>
      apart (mem_map.mpr ⟨other, otherMem, same⟩)
    have counted := fun base => add_count_path base cur
    have one : ∀ word : List Token, (0 : Int) ≤ if word = cur.path then 1 else 0 := by
      intro word
      split <;> omega
    have grows : ∀ word, 0 ≤ refs word + if word = cur.path then 1 else 0 :=
      fun word => add_nonneg (nonneg word) (one word)
    have swaGrows : ∀ word, 0 ≤ swaRefs word + if word = cur.path then 1 else 0 :=
      fun word => add_nonneg (swaNonneg word) (one word)
    have inRest : ∀ other ∈ path, other ∈ st.cache.tier.nodes := fun other otherMem =>
      inTree other (mem_cons_of_mem _ otherMem)
    rw [foldl_cons]
    by_cases counts : st.swaLocked < st.cache.slidingWindowSize ∧ cur.data.swaTombstone = false
    · obtain ⟨short, live⟩ := counts
      obtain ⟨locked, keptLock, ⟨new, newMem, newSame, newMark⟩, others⟩ :=
        locking.lockLive mem live nonneg swaNonneg
      have liveFirst : ∀ some_ : List RadixTreeNode,
          (cur :: some_).filter (fun node => node.data.swaTombstone = false) =
            cur :: some_.filter fun node => node.data.swaTombstone = false :=
        fun some_ => filter_cons_of_pos (by simp [live])
      have sizes : (lockWindow { st.cache with tier := st.cache.tier.pinNode cur } cur).pageSize =
          st.cache.pageSize ∧
          (lockWindow { st.cache with tier := st.cache.tier.pinNode cur } cur).slidingWindowSize =
          st.cache.slidingWindowSize := by
        unfold lockWindow
        split <;> exact ⟨rfl, rfl⟩
      rw [step_of_live st cur short live]
      generalize lockWindow { st.cache with tier := st.cache.tier.pinNode cur } cur = held at *
      by_cases done : st.cache.slidingWindowSize ≤ st.swaLocked + cur.length
      · -- the window is covered here: `cur` is the boundary, and only full references follow
        simp only [if_pos done]
        -- both ways the loop goes on from a covered state that carries a mark of `cur`
        have onward : ∀ next : LockState,
            Locking (fun word => refs word + if word = cur.path then 1 else 0)
              (fun word => swaRefs word + if word = cur.path then 1 else 0) next.cache →
            Kept st.cache.tier.nodes next.cache.tier.nodes →
            (∀ other ∈ path, other ∈ next.cache.tier.nodes) →
            next.cache.pageSize = st.cache.pageSize →
            next.cache.slidingWindowSize = st.cache.slidingWindowSize →
            next.swaLocked = st.swaLocked + cur.length →
            (∃ mark ∈ next.cache.tier.nodes, strip mark = strip cur ∧
              next.swaUuidForLock ≠ none ∧ mark.data.swaUuid = next.swaUuidForLock) →
            ∃ taken rest, cur :: path = taken ++ rest ∧
              LockRun refs swaRefs st (path.foldl LockState.step next) (cur :: path) taken ∧
              LockEnd st (path.foldl LockState.step next) taken rest := by
          rintro next locking kept stillThere pageSize window size
            ⟨mark, markMem, markSame, set, markUuid⟩
          have covered : next.cache.slidingWindowSize ≤ next.swaLocked := by
            rw [window, size]
            exact done
          obtain ⟨taken, rest, parts, run, ends⟩ := ih next _ _ locking stillThere nodup grows
            swaGrows fun short => absurd covered (not_le.mpr short)
          obtain ⟨rfl, uuid⟩ := ends.covered covered
          refine ⟨[cur], path, rfl, ⟨?_, kept.trans run.kept, run.pageSize.trans pageSize,
            run.window.trans window⟩, ?_⟩
          · simp only [liveFirst, counted]
            exact run.locking
          · obtain ⟨last, lastMem, lastSame, lastMark⟩ :=
              run.kept.marks mark markMem (markUuid ▸ set)
            refine Or.inr (Or.inr ⟨short, [], cur, rfl, live, uuid ▸ set, last, lastMem,
              lastSame.trans markSame, ?_⟩)
            rw [lastMark, markUuid, uuid]
        have stillThere : ∀ other ∈ path, other ∈ held.tier.nodes := fun other otherMem =>
          others other (inRest other otherMem) (ne other otherMem)
        rcases mark : cur.data.swaUuid with _ | uuid
        · obtain ⟨marked, keptMark⟩ := locked.mark newMem (newMark.trans mark)
          have newPath : new.path = cur.path := strip_path newSame
          rw [newPath] at marked keptMark
          refine onward _ marked (keptLock.trans keptMark) (fun other otherMem => ?_) sizes.1
            sizes.2 rfl ⟨_, mem_modify.mpr ⟨new, newMem, (if_pos newPath).symm⟩, newSame, ?_, rfl⟩
          · exact FullTier.mem_modify_of_ne (stillThere other otherMem)
              (ne other otherMem)
          · simp
        · exact onward _ locked keptLock stillThere sizes.1 sizes.2 rfl
            ⟨new, newMem, newSame, by simp, newMark.trans mark⟩
      · simp only [if_neg done]
        obtain ⟨taken, rest, parts, run, ends⟩ := ih
          ⟨held, st.swaLocked + cur.length, st.swaUuidForLock⟩ _ _ locked
          (fun other otherMem => others other (inRest other otherMem)
            (ne other otherMem)) nodup grows swaGrows fun _ => unset short
        refine ⟨cur :: taken, rest, by rw [parts]; rfl, ?_, ?_⟩
        · refine ⟨?_, keptLock.trans run.kept, run.pageSize.trans sizes.1, run.window.trans sizes.2⟩
          simp only [liveFirst, counted]
          exact run.locking
        · exact ends.cons short (by rw [sizes.2]; exact not_le.mp done) cur
    · -- no window reference: the window is covered, or the node is a tombstone
      obtain ⟨pinned, keptPin, shape⟩ := locking.pinNode mem (nonneg cur.path)
      have stepped : st.step cur =
          { st with cache := { st.cache with tier := st.cache.tier.pinNode cur } } := by
        rcases lt_or_ge st.swaLocked st.cache.slidingWindowSize with short | covered
        · exact step_of_tombstone st cur (by simpa [short] using counts)
        · exact step_of_covered st cur covered
      rw [stepped]
      obtain ⟨taken, rest, parts, run, ends⟩ := ih
        { st with cache := { st.cache with tier := st.cache.tier.pinNode cur } } _ swaRefs pinned
        (fun other otherMem => by
          rw [shape]
          exact FullTier.mem_modify_of_ne (inRest other otherMem) (ne other otherMem))
        nodup grows swaNonneg unset
      rcases lt_or_ge st.swaLocked st.cache.slidingWindowSize with short | covered
      · have dead : cur.data.swaTombstone = true := by simpa [short] using counts
        refine ⟨cur :: taken, rest, by rw [parts]; rfl, ?_, ?_⟩
        · refine ⟨?_, keptPin.trans run.kept, run.pageSize, run.window⟩
          rw [filter_cons_of_neg (by simp [dead])]
          simp only [counted]
          exact run.locking
        · exact ends.cons short short cur
      · obtain ⟨rfl, uuid⟩ := ends.covered covered
        refine ⟨[], cur :: path, rfl, ?_, Or.inl ⟨covered, rfl, uuid⟩⟩
        refine ⟨?_, keptPin.trans run.kept, run.pageSize, run.window⟩
        simp only [counted]
        exact run.locking

/-! ### What a lock took -/

def swaAt (nodes : List RadixTreeNode) (word : List Token) (i : Nat) : Int :=
  match nodes.find? fun node =>
      node.path <+: word ∧ node.parent.length ≤ i ∧ i < node.path.length with
  | none => 0
  | some node => node.data.swaRefCount

theorem swaAt_eq {ps : Nat} {nodes : List RadixTreeNode} (wf : WF ps nodes)
    (mem : node ∈ nodes) (onWord : node.path <+: word) {i : Nat}
    (low : node.parent.length ≤ i) (high : i < node.path.length) :
    swaAt nodes word i = node.data.swaRefCount := by
  unfold swaAt
  split
  · next found =>
    have := find?_eq_none.mp found node mem
    simp only [decide_eq_true_eq] at this
    exact absurd ⟨onWord, low, high⟩ this
  · next other found =>
    have otherMem := mem_of_find?_eq_some found
    have otherCovers := find?_some found
    simp only [decide_eq_true_eq] at otherCovers
    obtain ⟨otherOn, otherLow, otherHigh⟩ := otherCovers
    -- two nodes of one word that cover one position end at the same place
    have first := wf.path_prefix_of_longer mem otherMem word onWord otherOn (by omega)
    have second := wf.path_prefix_of_longer otherMem mem word otherOn onWord (by omega)
    have same := wf.eq_of_path mem otherMem (first.eq_of_length_le second.length_le)
    rw [same]

/-- The record of a lock: what `inc_lock` returned, where the marked node starts, and the window
references that were added at each position. -/
def newLock (pre after : SWARadixCache) (node : List Token) (uuid : Option Nat) : SWALock where
  node := node
  uuid := uuid
  lo := match uuid with
    | none => 0
    | some _ =>
        match after.tier.nodes.find? fun node => node.data.swaUuid = uuid with
        | none => 0
        | some boundary => boundary.parent.length
  taken := fun i => swaAt after.tier.nodes node i - swaAt pre.tier.nodes node i

variable {locks : List SWALock}

theorem Inv.locking (inv : Inv locks cache) :
    Locking (through (locks.map SWALock.node)) (windowThrough locks) cache :=
  ⟨inv.wf, inv.full.counts, inv.counts, inv.windows.unique, inv.windows.bounded⟩

theorem mem_taken_iff {ps : Nat} {nodes : List RadixTreeNode} (wf : WF ps nodes) (stored : Stored nodes word) {pre rest : List RadixTreeNode}
    {boundary : RadixTreeNode} (parts : pathNodes nodes word = pre ++ [boundary] ++ rest) (mem : node ∈ nodes) :
    node ∈ pre ++ [boundary] ↔ node.path <+: word ∧ boundary.parent.length < node.path.length := by
  have onPath := wf.mem_lineage_iff stored le_rfl node
  have order : (lineage nodes word.length word).Pairwise _ := lineage_pairwise word.length word
  change node ∈ pathNodes nodes word ↔ _ at onPath
  change (pathNodes nodes word).Pairwise _ at order
  rw [parts] at onPath order
  have boundaryMem : boundary ∈ nodes := by
    have : boundary ∈ pathNodes nodes word := by
      rw [parts]
      simp
    exact FullTier.pathNodes_mem this
  have boundaryLonger := wf.positive boundary boundaryMem
  have boundaryPath := boundary.path_length
  constructor
  · intro lt
    refine ⟨(onPath.mp (mem_append_left _ lt)).2, ?_⟩
    rcases mem_append.mp lt with prev | last
    · have split := (pairwise_append.mp (pairwise_append.mp order).1).2.2
      have above := (split node prev boundary (mem_singleton.mpr rfl)).length_le
      have := node.path_length
      omega
    · rw [mem_singleton.mp last]
      omega
  · rintro ⟨onWord, longer⟩
    rcases mem_append.mp (onPath.mpr ⟨mem, onWord⟩) with lt | later
    · exact lt
    · have above := ((pairwise_append.mp order).2.2 boundary (by simp) node later).length_le
      omega

/-- **`inc_lock` adds one outstanding lock**. -/
theorem Inv.incLock (inv : Inv locks cache) {node : List Token}
    (stored : Stored cache.tier.nodes node) :
    Inv (newLock cache (cache.incLock node).1 node (cache.incLock node).2 :: locks)
        (cache.incLock node).1 ∧
      Kept cache.tier.nodes (cache.incLock node).1.tier.nodes ∧
      (cache.incLock node).1.pageSize = cache.pageSize ∧
      (cache.incLock node).1.slidingWindowSize = cache.slidingWindowSize := by
  have inPath : ∀ cur ∈ pathNodes cache.tier.nodes node, cur ∈ cache.tier.nodes :=
    fun _ mem => FullTier.pathNodes_mem mem
  obtain ⟨taken, rest, parts, run, ends⟩ := lock_fold (pathNodes cache.tier.nodes node)
    ⟨cache, 0, none⟩ _ _ inv.locking inPath (FullTier.pathNodes_nodup inv.wf node)
    (through_nonneg _) (windowThrough_nonneg locks) fun _ => rfl
  unfold SWARadixCache.incLock
  generalize (pathNodes cache.tier.nodes node).foldl LockState.step ⟨cache, 0, none⟩ = last at *
  obtain ⟨locking, kept, pageSize, window⟩ := run
  simp only at kept pageSize window
  -- where the window starts, and that the live nodes taken are those that end after it
  have bounds : (newLock cache last.cache node last.swaUuidForLock).Boundary last.cache.tier.nodes ∧
      ∀ old ∈ cache.tier.nodes, (old ∈ taken ↔ old.path <+: node ∧
        (newLock cache last.cache node last.swaUuidForLock).lo < old.path.length) := by
    rcases ends with ⟨covered, _, _⟩ | ⟨_, rfl, unset⟩ | ⟨_, pre, boundary, rfl, live, set, marked,
      markedMem, same, mark⟩
    · exact absurd covered (not_le.mpr inv.windowPositive)
    · rw [unset]
      refine ⟨Or.inl ⟨rfl, rfl⟩, fun old oldMem => ?_⟩
      rw [append_nil] at parts
      have onPath := inv.wf.mem_lineage_iff stored le_rfl old
      change old ∈ pathNodes cache.tier.nodes node ↔ _ at onPath
      rw [← parts, onPath]
      have := inv.wf.positive old oldMem
      have size := old.path_length
      exact ⟨fun both => ⟨both.2, by simp only [newLock]; omega⟩, fun both => ⟨oldMem, both.1⟩⟩
    · have starts : (newLock cache last.cache node last.swaUuidForLock).lo =
          boundary.parent.length := by
        obtain ⟨uuid, has⟩ := Option.ne_none_iff_exists'.mp set
        rw [has] at mark ⊢
        simp only [newLock]
        split
        · next found =>
          have := find?_eq_none.mp found marked markedMem
          simp [mark] at this
        · next other found =>
          have otherMark : other.data.swaUuid = some uuid := by simpa using find?_some found
          rw [locking.unique other (mem_of_find?_eq_some found) marked markedMem
            (by rw [otherMark]; simp) (otherMark.trans mark.symm), strip_parent same]
      have boundaryMem : boundary ∈ pathNodes cache.tier.nodes node := by
        rw [parts]
        simp
      refine ⟨Or.inr ⟨set, marked, markedMem, ?_, mark, ?_, ?_⟩, fun old oldMem => ?_⟩
      · rw [strip_path same]
        exact (lineage_mem boundaryMem).2
      · rw [starts, strip_parent same]
      · rw [strip_tombstone same, live]
      · rw [starts]
        exact mem_taken_iff inv.wf stored parts oldMem
  obtain ⟨boundary, takenIff⟩ := bounds
  generalize entry : newLock cache last.cache node last.swaUuidForLock = lock at *
  have lockNode : lock.node = node := by rw [← entry]; rfl
  have takenNodup : ((taken.filter fun node => node.data.swaTombstone = false).map Seg.path).Nodup := by
    have whole := FullTier.pathNodes_nodup inv.wf node
    rw [parts, map_append] at whole
    exact (nodup_append.mp whole).1.sublist (filter_sublist.map _)
  have takenCount : ∀ old ∈ cache.tier.nodes, old.data.swaTombstone = false →
      ((taken.filter fun node => node.data.swaTombstone = false).map Seg.path).count old.path =
        if old.path <+: node ∧ lock.lo < old.path.length then 1 else 0 := by
    intro old oldMem live
    split
    · next lt =>
      refine count_eq_one_of_mem takenNodup (mem_map.mpr ⟨old, ?_, rfl⟩)
      exact mem_filter.mpr ⟨(takenIff old oldMem).mpr lt, by simp [live]⟩
    · next outside =>
      refine count_eq_zero_of_not_mem fun lt => outside ?_
      obtain ⟨other, otherMem, same⟩ := mem_map.mp lt
      have otherTaken := (mem_filter.mp otherMem).1
      have inTree := inPath other (parts ▸ mem_append_left _ otherTaken)
      rw [← inv.wf.eq_of_path inTree oldMem same]
      exact (takenIff other inTree).mp otherTaken
  have full : last.cache.tier.Inv last.cache.pageSize (node :: locks.map SWALock.node) := by
    refine ⟨locking.wf, fun word mem => ?_, locking.counts.congr fun new newMem => ?_⟩
    · refine kept.mem_of_strip ?_
      rcases mem_cons.mp mem with rfl | mem
      · exact stored
      · exact inv.full.stored word mem
    · obtain ⟨old, oldMem, same⟩ := kept.old newMem
      have count := FullTier.count_pathNodes inv.wf stored oldMem
      rw [strip_path same] at count
      rw [count, through_cons]
      split <;> rfl
  have counts : WindowCounts (windowThrough (lock :: locks)) last.cache.tier.nodes
      last.cache.swaEvictable last.cache.swaProtected := by
    refine locking.window.congr fun new newMem live => ?_
    obtain ⟨old, oldMem, same⟩ := kept.old newMem
    have count := takenCount old oldMem ((strip_tombstone same).trans live)
    rw [strip_path same] at count
    rw [count, windowThrough_cons, lockNode]
    split <;> rfl
  have accounts : lock.Accounts last.cache.tier.nodes := by
    intro new newMem onPath i low high
    rw [lockNode] at onPath
    obtain ⟨old, oldMem, same⟩ := kept.old newMem
    have after := swaAt_eq locking.wf newMem onPath low high
    have pre := swaAt_eq inv.wf oldMem ((strip_path same).symm ▸ onPath)
      ((strip_parent same).symm ▸ low) ((strip_path same).symm ▸ high)
    have newCount := counts.swaRef new newMem
    have oldCount := inv.counts.swaRef old oldMem
    have taken : lock.taken i = new.data.swaRefCount - old.data.swaRefCount := by
      rw [← after, ← pre, ← entry]
      rfl
    rw [taken, newCount, oldCount, strip_tombstone same, strip_path same, windowThrough_cons,
      lockNode]
    unfold SWALock.holds
    by_cases dead : new.data.swaTombstone = true
    · simp [dead]
    · simp [dead, onPath]
  have windows : Windows (lock :: locks) last.cache.tier.nodes last.cache.uuid := by
    refine ⟨locking.unique, locking.bounded, fun other otherMem => ?_, fun other otherMem => ?_⟩
    · rcases mem_cons.mp otherMem with rfl | otherMem
      · exact boundary
      · refine (inv.windows.boundary other otherMem).imp_right fun ⟨set, old, oldMem, onPath,
          mark, starts, live⟩ => ⟨set, ?_⟩
        obtain ⟨new, newMem, same, newMark⟩ := kept.marks old oldMem (mark ▸ set)
        exact ⟨new, newMem, (strip_path same).symm ▸ onPath, newMark.trans mark,
          (strip_parent same).symm ▸ starts, (strip_tombstone same).trans live⟩
    · rcases mem_cons.mp otherMem with rfl | otherMem
      · exact accounts
      · intro new newMem onPath i low high
        obtain ⟨old, oldMem, same⟩ := kept.old newMem
        rw [inv.windows.accounts other otherMem old oldMem ((strip_path same).symm ▸ onPath) i
          ((strip_parent same).symm ▸ low) ((strip_path same).symm ▸ high)]
        refine if_congr ?_ rfl rfl
        unfold SWALock.holds
        rw [strip_tombstone same, strip_path same]
  refine ⟨⟨?_, ?_, ?_, counts, windows⟩, kept, pageSize, window⟩
  · rw [pageSize]
    exact inv.pagePositive
  · rw [window]
    exact inv.windowPositive
  · rw [map_cons, lockNode]
    exact full

/-! ### The loop of `dec_lock` -/

theorem Locking.unpinNode (locking : Locking refs swaRefs cache) (mem : cur ∈ cache.tier.nodes)
    (locked : 0 < refs cur.path) :
    ∃ tier, cache.tier.unpinNode cur = .ok tier ∧
      Locking (fun word => refs word - if word = cur.path then 1 else 0) swaRefs
        { cache with tier := tier } ∧
      Kept cache.tier.nodes tier.nodes ∧
      tier.nodes = modify cache.tier.nodes cur.path fun node =>
        { node.data with refCount := node.data.refCount - 1 } := by
  obtain ⟨tier, stepped, shape, counts⟩ := locking.counts.unpinNode locking.wf mem locked
  have marks := marks_modify cur.path
    (fun node => { node.data with refCount := node.data.refCount - 1 }) (fun _ => rfl)
    locking.unique locking.bounded
  refine ⟨tier, stepped, ⟨?_, counts, ?_, ?_, ?_⟩, ?_, shape⟩
  · exact shape ▸ locking.wf.modify _ _
  · exact shape ▸ locking.window.modify_same _ _ (fun _ => rfl) fun _ => rfl
  · exact shape ▸ marks.1
  · exact shape ▸ marks.2
  · exact shape ▸ Kept.modify _ _ _ (fun _ => rfl) fun _ _ _ _ => rfl

def releaseWindow (cache : SWARadixCache) (cur : RadixTreeNode) : SWARadixCache :=
  let released := cache.withNodes (modify cache.tier.nodes cur.path fun node =>
    { node.data with swaRefCount := node.data.swaRefCount - 1 })
  if cur.data.swaRefCount - 1 = 0 then
    { released with
      swaEvictable := released.swaEvictable + cur.length
      swaProtected := released.swaProtected - cur.length }
  else released

theorem releaseWindow_nodes (cache : SWARadixCache) (cur : RadixTreeNode) :
    (cache.releaseWindow cur).tier.nodes = modify cache.tier.nodes cur.path fun node =>
      { node.data with swaRefCount := node.data.swaRefCount - 1 } := by
  unfold releaseWindow
  split <;> rfl

theorem Locking.releaseWindow (locking : Locking refs swaRefs cache)
    (mem : cur ∈ cache.tier.nodes) (live : cur.data.swaTombstone = false)
    (locked : 0 < swaRefs cur.path) :
    Locking refs (fun word => swaRefs word - if word = cur.path then 1 else 0)
        (cache.releaseWindow cur) ∧
      Kept cache.tier.nodes (cache.releaseWindow cur).tier.nodes := by
  have here := locking.window.swaRef cur mem
  rw [live, if_neg (by simp)] at here
  have marks := marks_modify cur.path
    (fun node => { node.data with swaRefCount := node.data.swaRefCount - 1 }) (fun _ => rfl)
    locking.unique locking.bounded
  have window := locking.window.modify_node locking.wf mem
    (fun node => { node.data with swaRefCount := node.data.swaRefCount - 1 })
    (fun word => swaRefs word - if word = cur.path then 1 else 0) (by simp [live, here])
    (fun word ne => by simp [ne])
  have full := locking.counts.modify_same cur.path
    (fun node => { node.data with swaRefCount := node.data.swaRefCount - 1 }) fun _ => rfl
  have held : cur.data.swaRefCount ≠ 0 := by omega
  constructor
  · unfold SWARadixCache.releaseWindow
    by_cases last : cur.data.swaRefCount - 1 = 0
    · simp only [if_pos last]
      have sizes := window.sizes (cache.swaEvictable + cur.length) (cache.swaProtected - cur.length)
        (by simp [liveIdle, live, held, last]) (by simp [liveLocked, live, held, last])
      exact ⟨locking.wf.modify _ _, full, sizes, marks.1, marks.2⟩
    · simp only [if_neg last]
      have sizes := window.sizes cache.swaEvictable cache.swaProtected
        (by simp [liveIdle, live, held, last]) (by simp [liveLocked, live, held, last])
      exact ⟨locking.wf.modify _ _, full, sizes, marks.1, marks.2⟩
  · rw [releaseWindow_nodes]
    exact Kept.modify _ _ _ (fun _ => rfl) fun _ _ _ _ => rfl

theorem unlock_fold_full (path : List RadixTreeNode) :
    ∀ (cache : SWARadixCache) (refs swaRefs : List Token → Int), Locking refs swaRefs cache →
      (∀ node ∈ path, node ∈ cache.tier.nodes) → (path.map Seg.path).Nodup →
      (∀ node ∈ path, 0 < refs node.path) →
      ∃ res, path.foldlM (unlockStep uuid) (cache, false) = .ok (res, false) ∧
        Locking (fun word => refs word - (path.map Seg.path).count word) swaRefs res ∧
        Kept cache.tier.nodes res.tier.nodes ∧ res.pageSize = cache.pageSize ∧
        res.slidingWindowSize = cache.slidingWindowSize := by
  induction path with
  | nil =>
    intro cache refs swaRefs locking _ _ _
    exact ⟨cache, rfl, by simpa using locking, Kept.refl _, rfl, rfl⟩
  | cons cur path ih =>
    intro cache refs swaRefs locking inTree nodup locked
    obtain ⟨apart, nodup⟩ := nodup_cons.mp nodup
    have ne : ∀ other ∈ path, other.path ≠ cur.path := fun other otherMem same =>
      apart (mem_map.mpr ⟨other, otherMem, same⟩)
    obtain ⟨tier, stepped, unpinned, kept, shape⟩ := locking.unpinNode
      (inTree cur mem_cons_self) (locked cur mem_cons_self)
    have step : unlockStep uuid (cache, false) cur = .ok ({ cache with tier := tier }, false) := by
      unfold unlockStep unlockWindow
      rw [stepped]
      rfl
    obtain ⟨res, run, locking', kept', pageSize, window⟩ := ih { cache with tier := tier } _ _
      unpinned (fun other otherMem => by
        rw [shape]
        exact FullTier.mem_modify_of_ne (inTree other (mem_cons_of_mem _ otherMem))
          (ne other otherMem))
      nodup fun other otherMem => by
        have := locked other (mem_cons_of_mem _ otherMem)
        rw [if_neg (ne other otherMem)]
        omega
    refine ⟨res, ?_, ?_, kept.trans kept', pageSize, window⟩
    · rw [foldlM_cons, step]
      exact run
    · simp only [sub_count_path]
      exact locking'

/-- The window still open at a path: it reaches to the root, or its marked boundary lies ahead. -/
def Ahead (lo : Nat) (path : List RadixTreeNode) : Prop :=
  (uuid = none ∧ lo = 0) ∨
    (uuid ≠ none ∧ ∃ boundary ∈ path, boundary.data.swaUuid = uuid ∧ boundary.parent.length = lo ∧
      boundary.data.swaTombstone = false)

/-- The live nodes of a path that end after `lo`. -/
def covered (lo : Nat) (path : List RadixTreeNode) : List RadixTreeNode :=
  path.filter fun node => node.data.swaTombstone = false ∧ lo < node.path.length

/-- **The loop of `dec_lock`** while the window is open. -/
theorem unlock_fold (lo : Nat) (path : List RadixTreeNode) :
    ∀ (cache : SWARadixCache) (refs swaRefs : List Token → Int), Locking refs swaRefs cache →
      (∀ node ∈ path, node ∈ cache.tier.nodes) → (path.map Seg.path).Nodup →
      (path.Pairwise fun lower upper => upper.path <+: lower.parent) →
      (∀ node ∈ path, 0 < refs node.path) → (∀ node ∈ covered lo path, 0 < swaRefs node.path) →
      Ahead uuid lo path →
      ∃ res flag, path.foldlM (unlockStep uuid) (cache, true) = .ok (res, flag) ∧
        Locking (fun word => refs word - (path.map Seg.path).count word)
          (fun word => swaRefs word - ((covered lo path).map Seg.path).count word) res ∧
        Kept cache.tier.nodes res.tier.nodes ∧ res.pageSize = cache.pageSize ∧
        res.slidingWindowSize = cache.slidingWindowSize := by
  induction path with
  | nil =>
    intro cache refs swaRefs locking _ _ _ _ _ _
    exact ⟨cache, true, rfl, by simpa [covered] using locking, Kept.refl _, rfl, rfl⟩
  | cons cur path ih =>
    intro cache refs swaRefs locking inTree nodup order locked swaLocked ahead
    obtain ⟨apart, nodup⟩ := nodup_cons.mp nodup
    obtain ⟨above, order⟩ := pairwise_cons.mp order
    have mem := inTree cur mem_cons_self
    have ne : ∀ other ∈ path, other.path ≠ cur.path := fun other otherMem same =>
      apart (mem_map.mpr ⟨other, otherMem, same⟩)
    have counted := fun base => sub_count_path base cur
    obtain ⟨tier, stepped, unpinned, keptPin, shape⟩ := locking.unpinNode mem
      (locked cur mem_cons_self)
    have still : ∀ other ∈ path, other ∈ tier.nodes := by
      intro other otherMem
      rw [shape]
      exact FullTier.mem_modify_of_ne (inTree other (mem_cons_of_mem _ otherMem))
        (ne other otherMem)
    have lockedRest : ∀ other ∈ path, 0 < refs other.path - if other.path = cur.path then 1 else 0 := by
      intro other otherMem
      have := locked other (mem_cons_of_mem _ otherMem)
      rw [if_neg (ne other otherMem)]
      omega
    have step : unlockStep uuid (cache, true) cur =
        .ok (unlockWindow uuid { cache with tier := tier } true cur) := by
      unfold unlockStep
      rw [stepped]
      rfl
    rw [foldlM_cons, step]
    by_cases dead : cur.data.swaTombstone = true
    · -- a tombstone has no window reference to give back, and is not the boundary
      have kept : unlockWindow uuid { cache with tier := tier } true cur =
          ({ cache with tier := tier }, true) := by
        unfold unlockWindow
        rw [if_neg (by simp [dead])]
      have same : covered lo (cur :: path) = covered lo path := filter_cons_of_neg (by simp [dead])
      rw [same] at swaLocked ⊢
      have ahead' : Ahead uuid lo path := by
        refine ahead.imp_right fun ⟨set, boundary, inPath, mark, starts, live⟩ =>
          ⟨set, boundary, ?_, mark, starts, live⟩
        rcases mem_cons.mp inPath with rfl | later
        · rw [dead] at live
          cases live
        · exact later
      obtain ⟨res, flag, run, locking', kept', pageSize, window⟩ := ih
        { cache with tier := tier } _ _ unpinned still nodup order lockedRest swaLocked ahead'
      refine ⟨res, flag, ?_, ?_, keptPin.trans kept', pageSize, window⟩
      · rw [kept]
        exact run
      · simp only [counted]
        exact locking'
    · have live : cur.data.swaTombstone = false := by simpa using dead
      -- the boundary is here or ahead, so this node ends after the window's start
      have lt : lo < cur.path.length := by
        have longer := locking.wf.positive cur mem
        have size := cur.path_length
        rcases ahead with ⟨_, root⟩ | ⟨_, boundary, inPath, _, starts, _⟩
        · omega
        · rcases mem_cons.mp inPath with rfl | later
          · omega
          · have short := (above boundary later).length_le
            have boundarySize := boundary.path_length
            omega
      have first : covered lo (cur :: path) = cur :: covered lo path :=
        filter_cons_of_pos (decide_eq_true ⟨live, lt⟩)
      rw [first] at swaLocked ⊢
      have held : 0 < cur.data.swaRefCount := by
        have := swaLocked cur mem_cons_self
        rw [locking.window.swaRef cur mem, live, if_neg (by simp)]
        exact this
      let next : RadixTreeNode :=
        { cur with data := { cur.data with refCount := cur.data.refCount - 1 } }
      have nextMem : next ∈ tier.nodes := by
        rw [shape]
        exact mem_modify.mpr ⟨cur, mem, (if_pos rfl).symm⟩
      obtain ⟨released, keptWindow⟩ := unpinned.releaseWindow nextMem live
        (swaLocked cur mem_cons_self)
      have stillThere : ∀ other ∈ path,
          other ∈ (releaseWindow { cache with tier := tier } next).tier.nodes := by
        intro other otherMem
        rw [releaseWindow_nodes]
        exact FullTier.mem_modify_of_ne (still other otherMem) (ne other otherMem)
      have sizes : (releaseWindow { cache with tier := tier } next).pageSize = cache.pageSize ∧
          (releaseWindow { cache with tier := tier } next).slidingWindowSize =
            cache.slidingWindowSize := by
        unfold releaseWindow
        split <;> exact ⟨rfl, rfl⟩
      have done : unlockWindow uuid { cache with tier := tier } true cur =
          (releaseWindow { cache with tier := tier } next,
            !(uuid.isSome ∧ cur.data.swaUuid = uuid : Bool)) := by
        unfold unlockWindow
        rw [if_pos ⟨rfl, live, held⟩]
        rfl
      rw [done]
      by_cases reached : uuid.isSome = true ∧ cur.data.swaUuid = uuid
      · -- the boundary is here: the nodes above it end before the window
        have none : covered lo path = [] := by
          rcases ahead with ⟨unset, _⟩ | ⟨set, boundary, inPath, mark, starts, _⟩
          · rw [unset] at reached
            exact absurd reached.1 (by simp)
          · have same := locking.unique boundary (inTree boundary inPath) cur mem
              (mark ▸ set) (mark.trans reached.2.symm)
            subst same
            refine filter_eq_nil_iff.mpr fun other otherMem => ?_
            have := (above other otherMem).length_le
            simp only [decide_eq_true_eq, not_and]
            omega
        obtain ⟨res, run, locking', kept', pageSize, window⟩ := unlock_fold_full uuid path _ _ _
          released stillThere nodup lockedRest
        refine ⟨res, false, ?_, ?_, (keptPin.trans keptWindow).trans kept',
          pageSize.trans sizes.1, window.trans sizes.2⟩
        · simp only [reached, and_self, decide_true, Bool.not_true]
          exact run
        · rw [none]
          simp only [counted, map_nil, count_nil, Nat.cast_zero, sub_zero]
          exact locking'
      · have ahead' : Ahead uuid lo path := by
          refine ahead.imp_right fun ⟨set, boundary, inPath, mark, starts, liveThere⟩ =>
            ⟨set, boundary, ?_, mark, starts, liveThere⟩
          rcases mem_cons.mp inPath with rfl | later
          · exact absurd ⟨Option.isSome_iff_ne_none.mpr set, mark⟩ reached
          · exact later
        obtain ⟨res, flag, run, locking', kept', pageSize, window⟩ := ih _ _ _ released
          stillThere nodup order lockedRest
          (fun other otherMem => by
            have := swaLocked other (mem_cons_of_mem _ otherMem)
            change 0 < swaRefs other.path - if other.path = cur.path then 1 else 0
            rw [if_neg (ne other (mem_filter.mp otherMem).1)]
            omega)
          ahead'
        refine ⟨res, flag, ?_, ?_, (keptPin.trans keptWindow).trans kept',
          pageSize.trans sizes.1, window.trans sizes.2⟩
        · simp only [reached, decide_false, Bool.not_false]
          exact run
        · simp only [counted]
          exact locking'

/-- **`dec_lock` never fails on an outstanding lock and takes exactly that lock away**. -/
theorem Inv.decLock (inv : Inv locks cache) {lock : SWALock} {rest : List SWALock}
    (outstanding : locks.Perm (lock :: rest)) :
    ∃ res, cache.decLock lock.node lock.uuid = .ok res ∧ Inv rest res ∧
      Kept cache.tier.nodes res.tier.nodes ∧ res.pageSize = cache.pageSize ∧
      res.slidingWindowSize = cache.slidingWindowSize := by
  have mem : lock ∈ locks := outstanding.mem_iff.mpr mem_cons_self
  have stored := inv.stored mem
  have inPath : ∀ cur ∈ pathNodes cache.tier.nodes lock.node, cur ∈ cache.tier.nodes :=
    fun _ curMem => FullTier.pathNodes_mem curMem
  have onPath := fun cur => inv.wf.mem_lineage_iff stored le_rfl cur
  have ahead : Ahead lock.uuid lock.lo (pathNodes cache.tier.nodes lock.node) :=
    (inv.windows.boundary lock mem).imp_right
      fun ⟨set, boundary, boundaryMem, boundaryOn, rest⟩ =>
        ⟨set, boundary, (onPath boundary).mpr ⟨boundaryMem, boundaryOn⟩, rest⟩
  obtain ⟨res, flag, run, locking, kept, pageSize, window⟩ := unlock_fold lock.uuid lock.lo
    (pathNodes cache.tier.nodes lock.node) cache _ _ inv.locking inPath
    (FullTier.pathNodes_nodup inv.wf lock.node) (lineage_pairwise _ _)
    (fun cur curMem => through_pos (mem_map_of_mem mem) (lineage_mem curMem).2)
    (fun cur curMem => by
      obtain ⟨curPath, lt⟩ := mem_filter.mp curMem
      simp only [decide_eq_true_eq] at lt
      exact windowThrough_pos mem (lineage_mem curPath).2 lt.2)
    ahead
  refine ⟨res, ?_, ?_, kept, pageSize, window⟩
  · unfold SWARadixCache.decLock
    simp only [Bool.not_false, run]
    rfl
  have inRest : ∀ other ∈ rest, other ∈ locks := fun other otherMem =>
    outstanding.mem_iff.mpr (mem_cons_of_mem _ otherMem)
  have coveredCount : ∀ old ∈ cache.tier.nodes, old.data.swaTombstone = false →
      ((covered lock.lo (pathNodes cache.tier.nodes lock.node)).map Seg.path).count old.path =
        if old.path <+: lock.node ∧ lock.lo < old.path.length then 1 else 0 := by
    intro old oldMem live
    have nodup : ((covered lock.lo (pathNodes cache.tier.nodes lock.node)).map Seg.path).Nodup :=
      (FullTier.pathNodes_nodup inv.wf lock.node).sublist (filter_sublist.map _)
    split
    · next lt =>
      refine count_eq_one_of_mem nodup (mem_map.mpr ⟨old, ?_, rfl⟩)
      exact mem_filter.mpr ⟨(onPath old).mpr ⟨oldMem, lt.1⟩, decide_eq_true ⟨live, lt.2⟩⟩
    · next outside =>
      refine count_eq_zero_of_not_mem fun lt => outside ?_
      obtain ⟨other, otherMem, same⟩ := mem_map.mp lt
      obtain ⟨otherPath, otherInside⟩ := mem_filter.mp otherMem
      simp only [decide_eq_true_eq] at otherInside
      rw [← same]
      exact ⟨(lineage_mem otherPath).2, otherInside.2⟩
  refine ⟨pageSize ▸ inv.pagePositive, window ▸ inv.windowPositive, ?_, ?_, ?_⟩
  · refine ⟨locking.wf, fun word wordMem => ?_, locking.counts.congr fun new newMem => ?_⟩
    · obtain ⟨other, otherMem, rfl⟩ := mem_map.mp wordMem
      exact kept.mem_of_strip (inv.stored (inRest other otherMem))
    · obtain ⟨old, oldMem, same⟩ := kept.old newMem
      have count := FullTier.count_pathNodes inv.wf stored oldMem
      have whole := through_perm (outstanding.map SWALock.node) new.path
      rw [map_cons, through_cons] at whole
      rw [strip_path same] at count
      rw [count, whole]
      split <;> simp
  · refine locking.window.congr fun new newMem live => ?_
    obtain ⟨old, oldMem, same⟩ := kept.old newMem
    have count := coveredCount old oldMem ((strip_tombstone same).trans live)
    have whole := windowThrough_perm outstanding new.path
    rw [windowThrough_cons] at whole
    rw [strip_path same] at count
    rw [count, whole]
    split <;> simp
  · refine ⟨locking.unique, locking.bounded, fun other otherMem => ?_, fun other otherMem => ?_⟩
    · refine (inv.windows.boundary other (inRest other otherMem)).imp_right
        fun ⟨set, old, oldMem, oldOn, mark, starts, live⟩ => ⟨set, ?_⟩
      obtain ⟨new, newMem, same, newMark⟩ := kept.marks old oldMem (mark ▸ set)
      exact ⟨new, newMem, (strip_path same).symm ▸ oldOn, newMark.trans mark,
        (strip_parent same).symm ▸ starts, (strip_tombstone same).trans live⟩
    · intro new newMem newOn i low high
      obtain ⟨old, oldMem, same⟩ := kept.old newMem
      rw [inv.windows.accounts other (inRest other otherMem) old oldMem
        ((strip_path same).symm ▸ newOn) i ((strip_parent same).symm ▸ low)
        ((strip_path same).symm ▸ high)]
      refine if_congr ?_ rfl rfl
      unfold SWALock.holds
      rw [strip_tombstone same, strip_path same]

end SWARadixCache

end FreeToken
