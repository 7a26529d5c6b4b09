/-
**The reference counts of the full tier.**

* `FullTier.Counts refs`: every node's reference count is what `refs` says for its word, and the two
  token counts are the sums over the unlocked and the locked nodes;
* `Inv.stamp`, `Inv.split`, `Inv.insertLeaf`, `Inv.remove`: the other changes keep the invariant.
-/

import FreeToken.KVCache.RadixTreeNode
import Mathlib.Data.List.Nodup

namespace FreeToken

open PageTree List

/-- How many of the outstanding locks pass through a node. -/
def through (locks : List (List Token)) (word : List Token) : Int :=
  (locks.countP fun lock => decide (word <+: lock) : Nat)

theorem through_nonneg (locks : List (List Token)) (word : List Token) : 0 ≤ through locks word :=
  Int.natCast_nonneg _

theorem through_cons (lock : List Token) (locks : List (List Token)) (word : List Token) :
    through (lock :: locks) word = through locks word + if word <+: lock then 1 else 0 := by
  unfold through
  rw [countP_cons]
  split <;> simp_all

theorem through_pos {locks : List (List Token)} {word lock : List Token} (mem : lock ∈ locks)
    (below : word <+: lock) : 0 < through locks word := by
  have : 0 < locks.countP fun lock => decide (word <+: lock) :=
    countP_pos_iff.mpr ⟨lock, mem, decide_eq_true below⟩
  exact Int.natCast_pos.mpr this

theorem through_eq_zero {locks : List (List Token)} {word : List Token}
    (none : ∀ lock ∈ locks, ¬word <+: lock) : through locks word = 0 := by
  unfold through
  rw [countP_eq_zero.mpr fun lock mem => by simpa using none lock mem]
  rfl

theorem through_perm {locks other : List (List Token)} (same : locks.Perm other)
    (word : List Token) : through locks word = through other word := by
  unfold through
  rw [same.countP_eq]

variable (node : RadixTreeNode)

def idle : Int := if node.data.refCount = 0 then node.length else 0

def pinned : Int := if node.data.refCount = 0 then 0 else node.length

theorem idle_nonneg : 0 ≤ idle node := by
  unfold idle
  split <;> omega

variable {nodes : List RadixTreeNode}

namespace FullTier

/-- The counts of a tier are what `refs` says. -/
structure Counts (refs : List Token → Int) (tier : FullTier) : Prop where
  refCount : ∀ node ∈ tier.nodes, node.data.refCount = refs node.path
  evictable : tier.evictableSize = total idle tier.nodes
  protect : tier.protectedSize = total pinned tier.nodes

variable {ps : Nat} {refs : List Token → Int} {tier : FullTier}

theorem Counts.congr (counts : Counts refs tier) {other : List Token → Int}
    (same : ∀ node ∈ tier.nodes, refs node.path = other node.path) : Counts other tier :=
  ⟨fun node mem => (counts.refCount node mem).trans (same node mem), counts.evictable,
    counts.protect⟩

theorem Counts.modify_same (counts : Counts refs tier) (word : List Token)
    (change : RadixTreeNode → NodeData)
    (same : ∀ node : RadixTreeNode, (change node).refCount = node.data.refCount) :
    Counts refs { tier with nodes := modify tier.nodes word change } where
  refCount := by
    intro node mem
    obtain ⟨old, oldMem, rfl⟩ := mem_modify.mp mem
    have := counts.refCount old oldMem
    split
    · rw [Seg.path_with_data, ← this]
      exact same old
    · exact this
  evictable := by
    rw [counts.evictable]
    exact (total_modify_same idle tier.nodes word change fun node _ => by
      simp only [idle, same, Seg.length_with_data]).symm
  protect := by
    rw [counts.protect]
    exact (total_modify_same pinned tier.nodes word change fun node _ => by
      simp only [pinned, same, Seg.length_with_data]).symm

theorem splitHead_length {node : RadixTreeNode} {pos : Nat} (lt : pos < node.length) :
    (splitHead node pos).length = pos := by
  unfold splitHead Seg.length
  rw [length_take]
  exact min_eq_left lt.le

theorem splitTail_length (pos : Nat) : (splitTail node pos).length = node.length - pos := by
  unfold splitTail Seg.length
  rw [length_drop]

theorem splitTail_path (pos : Nat) : (splitTail node pos).path = node.path := by
  simp [splitTail, Seg.path]

theorem splitHead_path (pos : Nat) :
    (splitHead node pos).path = node.parent ++ node.key.take pos := rfl

theorem mem_splitNode {tree : List RadixTreeNode} (wf : WF ps tree) {node : RadixTreeNode}
    (mem : node ∈ tree) {pos : Nat} {new : RadixTreeNode} :
    new ∈ splitNode tree node pos ↔
      new = splitHead node pos ∨ new = splitTail node pos ∨ new ∈ tree ∧ new.path ≠ node.path := by
  have focus := wf.focus_splitAt mem pos (NodeData.splitHead pos) (NodeData.splitTail pos)
  rw [splitNode, focus.mem_iff, mem_cons, mem_cons, mem_remove]
  rfl

theorem Counts.split (wf : WF ps tier.nodes) (counts : Counts refs tier) {node : RadixTreeNode}
    (mem : node ∈ tier.nodes) {pos : Nat} (lt : pos < node.length)
    (same : refs (splitHead node pos).path = refs node.path) :
    Counts refs { tier with nodes := splitNode tier.nodes node pos } where
  refCount := by
    intro new newMem
    have old := counts.refCount node mem
    rcases (mem_splitNode wf mem).mp newMem with rfl | rfl | ⟨kept, _⟩
    · rw [same, ← old]
      rfl
    · rw [splitTail_path, ← old]
      rfl
    · exact counts.refCount new kept
  evictable := by
    have moved := wf.total_splitAt idle mem pos (NodeData.splitHead pos) (NodeData.splitTail pos)
    have shared : idle (splitHead node pos) + idle (splitTail node pos) = idle node := by
      simp only [idle, splitHead_refCount, splitTail_refCount, splitHead_length lt,
        splitTail_length]
      split <;> omega
    change _ = _ - _ + idle (splitHead node pos) + idle (splitTail node pos) at moved
    rw [counts.evictable]
    exact (moved.trans (by linarith)).symm
  protect := by
    have moved := wf.total_splitAt pinned mem pos (NodeData.splitHead pos)
      (NodeData.splitTail pos)
    have shared : pinned (splitHead node pos) + pinned (splitTail node pos) = pinned node := by
      simp only [pinned, splitHead_refCount, splitTail_refCount, splitHead_length lt,
        splitTail_length]
      split <;> omega
    change _ = _ - _ + pinned (splitHead node pos) + pinned (splitTail node pos) at moved
    rw [counts.protect]
    exact (moved.trans (by linarith)).symm

theorem Counts.insertLeaf (counts : Counts refs tier) (word key : List Token) (data : NodeData)
    (unlocked : data.refCount = 0) (none : refs (word ++ key) = 0) :
    Counts refs { tier with
      nodes := PageTree.insertLeaf tier.nodes word key data
      evictableSize := tier.evictableSize + key.length } where
  refCount := by
    intro node mem
    rcases mem_append.mp mem with old | new
    · exact counts.refCount node old
    · rw [mem_singleton.mp new]
      exact unlocked.trans none.symm
  evictable := by
    rw [counts.evictable, total_insertLeaf]
    simp [idle, unlocked, Seg.length]
  protect := by
    rw [counts.protect, total_insertLeaf]
    simp [pinned, unlocked]

theorem Counts.remove (wf : WF ps tier.nodes) (counts : Counts refs tier) {node : RadixTreeNode}
    (mem : node ∈ tier.nodes) (unlocked : node.data.refCount = 0) :
    Counts refs { tier with
      nodes := PageTree.remove tier.nodes node.path
      evictableSize := tier.evictableSize - node.length } where
  refCount := fun other otherMem => counts.refCount other (mem_remove.mp otherMem).1
  evictable := by
    rw [counts.evictable, wf.total_remove idle mem]
    simp [idle, unlocked]
  protect := by
    rw [counts.protect, wf.total_remove pinned mem]
    simp [pinned, unlocked]

theorem Counts.pinNode (wf : WF ps tier.nodes) (counts : Counts refs tier) {cur : RadixTreeNode}
    (mem : cur ∈ tier.nodes) (nonneg : 0 ≤ refs cur.path) :
    Counts (fun word => refs word + if word = cur.path then 1 else 0) (tier.pinNode cur) := by
  have here := counts.refCount cur mem
  have idleMoved := wf.total_modify idle mem fun node =>
    { node.data with refCount := node.data.refCount + 1 }
  have pinnedMoved := wf.total_modify pinned mem fun node =>
    { node.data with refCount := node.data.refCount + 1 }
  have shape : (tier.pinNode cur).nodes = modify tier.nodes cur.path fun node =>
      { node.data with refCount := node.data.refCount + 1 } := by
    unfold FullTier.pinNode
    split <;> rfl
  refine ⟨?_, ?_, ?_⟩
  · intro node nodeMem
    rw [shape] at nodeMem
    obtain ⟨old, oldMem, rfl⟩ := mem_modify.mp nodeMem
    have := counts.refCount old oldMem
    by_cases same : old.path = cur.path
    · simp [same, this]
    · simp [same, this]
  · rw [shape, idleMoved, ← counts.evictable]
    unfold FullTier.pinNode idle
    simp only [Seg.length_with_data]
    split <;> split <;> simp <;> omega
  · rw [shape, pinnedMoved, ← counts.protect]
    unfold FullTier.pinNode pinned
    simp only [Seg.length_with_data]
    split <;> split <;> simp <;> omega

theorem Counts.unpinNode (wf : WF ps tier.nodes) (counts : Counts refs tier) {cur : RadixTreeNode}
    (mem : cur ∈ tier.nodes) (locked : 0 < refs cur.path) :
    ∃ res, tier.unpinNode cur = .ok res ∧ res.nodes = modify tier.nodes cur.path (fun node =>
        { node.data with refCount := node.data.refCount - 1 }) ∧
      Counts (fun word => refs word - if word = cur.path then 1 else 0) res := by
  have here := counts.refCount cur mem
  have idleMoved := wf.total_modify idle mem fun node =>
    { node.data with refCount := node.data.refCount - 1 }
  have pinnedMoved := wf.total_modify pinned mem fun node =>
    { node.data with refCount := node.data.refCount - 1 }
  have passes : 0 ≤ cur.data.refCount - 1 := by omega
  have refCounts : ∀ node ∈ modify tier.nodes cur.path (fun node =>
      { node.data with refCount := node.data.refCount - 1 }),
      node.data.refCount = refs node.path - if node.path = cur.path then 1 else 0 := by
    intro node nodeMem
    obtain ⟨old, oldMem, rfl⟩ := mem_modify.mp nodeMem
    have := counts.refCount old oldMem
    by_cases same : old.path = cur.path
    · simp [same, this]
    · simp [same, this]
  unfold FullTier.unpinNode
  rw [ensure_of passes]
  simp only [bind, Except.bind, pure, Except.pure]
  by_cases last : cur.data.refCount - 1 = 0
  · rw [if_pos last]
    refine ⟨_, rfl, rfl, refCounts, ?_, ?_⟩
    · rw [idleMoved, ← counts.evictable]
      simp only [idle, Seg.length_with_data, last, if_true]
      rw [if_neg (by omega)]
      ring
    · rw [pinnedMoved, ← counts.protect]
      simp only [pinned, Seg.length_with_data, last, if_true]
      rw [if_neg (by omega)]
      ring
  · rw [if_neg last]
    refine ⟨_, rfl, rfl, refCounts, ?_, ?_⟩
    · rw [idleMoved, ← counts.evictable]
      simp only [idle, Seg.length_with_data]
      rw [if_neg (by omega), if_neg last]
      ring
    · rw [pinnedMoved, ← counts.protect]
      simp only [pinned, Seg.length_with_data]
      rw [if_neg (by omega), if_neg last]
      ring

/-! ### Locks on a path -/

/-- A node without its reference count: what taking and giving back a lock leaves as it is. -/
def unref : RadixTreeNode := { node with data := { node.data with refCount := 0 } }

theorem map_unref_modify (nodes : List RadixTreeNode) (word : List Token)
    (change : RadixTreeNode → NodeData)
    (same : ∀ node, unref { node with data := change node } = unref node) :
    (modify nodes word change).map unref = nodes.map unref := by
  rw [PageTree.modify, map_map]
  refine map_congr_left fun node _ => ?_
  simp only [Function.comp_apply]
  split
  · exact same node
  · rfl

theorem mem_modify_of_ne {word : List Token}
    {change : RadixTreeNode → NodeData} {node : RadixTreeNode} (mem : node ∈ nodes)
    (ne : node.path ≠ word) : node ∈ modify nodes word change :=
  mem_modify.mpr ⟨node, mem, (if_neg ne).symm⟩

theorem pathNodes_mem {word : List Token} {node : RadixTreeNode}
    (mem : node ∈ pathNodes nodes word) : node ∈ nodes := (lineage_mem mem).1

theorem pathNodes_nodup (wf : WF ps nodes) (word : List Token) :
    ((pathNodes nodes word).map Seg.path).Nodup := by
  rw [nodup_iff_pairwise_ne, pairwise_map]
  refine (lineage_pairwise word.length word).imp_of_mem fun {lower upper} lowerMem _ above same => ?_
  have := above.length_le
  have := wf.positive lower (pathNodes_mem lowerMem)
  rw [← same, Seg.path_length] at *
  omega

theorem count_pathNodes (wf : WF ps nodes) {word : List Token}
    (stored : word = [] ∨ ∃ last ∈ nodes, last.path = word) {node : RadixTreeNode}
    (mem : node ∈ nodes) :
    ((pathNodes nodes word).map Seg.path).count node.path = if node.path <+: word then 1 else 0 := by
  have onPath := wf.mem_lineage_iff stored le_rfl node
  split
  · next above =>
    refine count_eq_one_of_mem (pathNodes_nodup wf word) ?_
    exact mem_map.mpr ⟨node, onPath.mpr ⟨mem, above⟩, rfl⟩
  · next aside =>
    refine count_eq_zero_of_not_mem fun lt => aside ?_
    obtain ⟨cur, curMem, same⟩ := mem_map.mp lt
    rw [← same]
    exact (lineage_mem curMem).2

theorem Counts.foldl_pinNode (cur : List RadixTreeNode) :
    ∀ (tier : FullTier) (refs : List Token → Int), WF ps tier.nodes → Counts refs tier →
      (∀ node ∈ cur, node ∈ tier.nodes) → (cur.map Seg.path).Nodup → (∀ word, 0 ≤ refs word) →
      WF ps (cur.foldl FullTier.pinNode tier).nodes ∧
      Counts (fun word => refs word + (cur.map Seg.path).count word)
        (cur.foldl FullTier.pinNode tier) ∧
      (cur.foldl FullTier.pinNode tier).nodes.map unref = tier.nodes.map unref := by
  induction cur with
  | nil =>
    intro tier refs wf counts _ _ _
    exact ⟨wf, counts.congr fun _ _ => by simp, rfl⟩
  | cons node rest ih =>
    intro tier refs wf counts inTree nodup nonneg
    obtain ⟨apart, nodup⟩ := nodup_cons.mp nodup
    have shape : (tier.pinNode node).nodes = modify tier.nodes node.path fun node =>
        { node.data with refCount := node.data.refCount + 1 } := by
      unfold FullTier.pinNode
      split <;> rfl
    have step := counts.pinNode wf (inTree node mem_cons_self) (nonneg node.path)
    have still : ∀ other ∈ rest, other ∈ (tier.pinNode node).nodes := by
      intro other mem
      rw [shape]
      refine mem_modify_of_ne (inTree other (mem_cons_of_mem _ mem)) fun same => apart ?_
      exact mem_map.mpr ⟨other, mem, same⟩
    have wfStep : WF ps (tier.pinNode node).nodes := by
      rw [shape]
      exact wf.modify _ _
    obtain ⟨wfEnd, countsEnd, frame⟩ := ih (tier.pinNode node) _ wfStep step still nodup
      fun word => by
        have := nonneg word
        split <;> omega
    refine ⟨wfEnd, countsEnd.congr fun other _ => ?_, frame.trans ?_⟩
    · rw [map_cons, count_cons]
      by_cases same : other.path = node.path
      · simp [same]
        ring
      · simp [same, Ne.symm same]
    · rw [shape]
      exact map_unref_modify _ _ _ fun _ => rfl

theorem Counts.foldlM_unpinNode (cur : List RadixTreeNode) :
    ∀ (tier : FullTier) (refs : List Token → Int), WF ps tier.nodes → Counts refs tier →
      (∀ node ∈ cur, node ∈ tier.nodes) → (cur.map Seg.path).Nodup →
      (∀ node ∈ cur, 0 < refs node.path) →
      ∃ res, cur.foldlM FullTier.unpinNode tier = .ok res ∧ WF ps res.nodes ∧
        Counts (fun word => refs word - (cur.map Seg.path).count word) res ∧
        res.nodes.map unref = tier.nodes.map unref := by
  induction cur with
  | nil =>
    intro tier refs wf counts _ _ _
    exact ⟨tier, rfl, wf, counts.congr fun _ _ => by simp, rfl⟩
  | cons node rest ih =>
    intro tier refs wf counts inTree nodup locked
    obtain ⟨apart, nodup⟩ := nodup_cons.mp nodup
    obtain ⟨next, stepped, shape, step⟩ := counts.unpinNode wf (inTree node mem_cons_self)
      (locked node mem_cons_self)
    have ne : ∀ other ∈ rest, other.path ≠ node.path := fun other mem same =>
      apart (mem_map.mpr ⟨other, mem, same⟩)
    have still : ∀ other ∈ rest, other ∈ next.nodes := by
      intro other mem
      rw [shape]
      exact mem_modify_of_ne (inTree other (mem_cons_of_mem _ mem)) (ne other mem)
    have wfStep : WF ps next.nodes := by
      rw [shape]
      exact wf.modify _ _
    obtain ⟨res, run, wfEnd, countsEnd, frame⟩ := ih next _ wfStep step still nodup
      fun other mem => by
        have := locked other (mem_cons_of_mem _ mem)
        rw [if_neg (ne other mem)]
        omega
    refine ⟨res, ?_, wfEnd, countsEnd.congr fun other _ => ?_, frame.trans ?_⟩
    · rw [foldlM_cons, stepped]
      exact run
    · rw [map_cons, count_cons]
      by_cases same : other.path = node.path
      · simp [same]
        ring
      · simp [same, Ne.symm same]
    · rw [shape]
      exact map_unref_modify _ _ _ fun _ => rfl

/-- **The invariant of the full tier**: the tree is well formed, every locked word ends at a node or
at the root, and every reference count is the number of locks through its node. -/
structure Inv (ps : Nat) (locks : List (List Token)) (tier : FullTier) : Prop where
  wf : WF ps tier.nodes
  stored : ∀ lock ∈ locks, lock = [] ∨ ∃ node ∈ tier.nodes, node.path = lock
  counts : Counts (through locks) tier

variable {locks : List (List Token)}

theorem Inv.empty (ps : Nat) : Inv ps [] FullTier.empty where
  wf := WF.nil ps
  stored := by simp
  counts := ⟨by simp [FullTier.empty], rfl, rfl⟩

theorem stored_of_frame {nodes other : List RadixTreeNode}
    (frame : other.map unref = nodes.map unref) {word : List Token}
    (stored : word = [] ∨ ∃ node ∈ nodes, node.path = word) :
    word = [] ∨ ∃ node ∈ other, node.path = word := by
  refine stored.imp_right fun ⟨node, mem, path⟩ => ?_
  have : unref node ∈ other.map unref := frame ▸ mem_map_of_mem mem
  obtain ⟨new, newMem, same⟩ := mem_map.mp this
  exact ⟨new, newMem, (congrArg Seg.path same).trans path⟩

theorem path_of_unref {node other : RadixTreeNode} (same : unref node = unref other) :
    node.path = other.path := by
  have words := congrArg Seg.path same
  exact words

theorem exists_of_frame {nodes other : List RadixTreeNode}
    (frame : other.map unref = nodes.map unref) {node : RadixTreeNode} (mem : node ∈ other) :
    ∃ old ∈ nodes, unref old = unref node := by
  have : unref node ∈ nodes.map unref := frame ▸ mem_map_of_mem mem
  exact mem_map.mp this

theorem Inv.pin (inv : Inv ps locks tier) {word : List Token}
    (stored : word = [] ∨ ∃ node ∈ tier.nodes, node.path = word) :
    Inv ps (word :: locks) (tier.pin word) ∧
      (tier.pin word).nodes.map unref = tier.nodes.map unref := by
  obtain ⟨wf, counts, frame⟩ := inv.counts.foldl_pinNode (pathNodes tier.nodes word) tier _ inv.wf
    (fun _ mem => pathNodes_mem mem) (pathNodes_nodup inv.wf word) (through_nonneg locks)
  refine ⟨⟨wf, ?_, counts.congr fun node mem => ?_⟩, frame⟩
  · intro lock mem
    refine stored_of_frame frame ?_
    rcases mem_cons.mp mem with rfl | mem
    · exact stored
    · exact inv.stored lock mem
  · obtain ⟨old, oldMem, same⟩ := exists_of_frame frame mem
    have path : old.path = node.path := path_of_unref same
    have count := count_pathNodes inv.wf stored oldMem
    rw [path] at count
    rw [count, through_cons]
    split <;> rfl

theorem Inv.unpin (inv : Inv ps locks tier) {word : List Token} (locked : word ∈ locks) :
    ∃ res, tier.unpin word = .ok res ∧ Inv ps (locks.erase word) res ∧
      res.nodes.map unref = tier.nodes.map unref := by
  have stored := inv.stored word locked
  obtain ⟨res, run, wf, counts, frame⟩ := inv.counts.foldlM_unpinNode
    (pathNodes tier.nodes word) tier _ inv.wf (fun _ mem => pathNodes_mem mem)
    (pathNodes_nodup inv.wf word) fun node mem => through_pos locked (lineage_mem mem).2
  refine ⟨res, run, ⟨wf, ?_, counts.congr fun node mem => ?_⟩, frame⟩
  · intro lock mem
    exact stored_of_frame frame (inv.stored lock (mem_of_mem_erase mem))
  · obtain ⟨old, oldMem, same⟩ := exists_of_frame frame mem
    have path : old.path = node.path := path_of_unref same
    have count := count_pathNodes inv.wf stored oldMem
    rw [path] at count
    have whole := through_perm (perm_cons_erase locked) node.path
    rw [through_cons] at whole
    rw [count, whole]
    split <;> simp

theorem Inv.modify_same (inv : Inv ps locks tier) (word : List Token)
    (change : RadixTreeNode → NodeData)
    (same : ∀ node : RadixTreeNode, (change node).refCount = node.data.refCount) :
    Inv ps locks { tier with nodes := modify tier.nodes word change } where
  wf := inv.wf.modify word change
  stored := by
    intro lock mem
    refine (inv.stored lock mem).imp_right fun ⟨node, nodeMem, path⟩ => ?_
    refine ⟨_, mem_modify.mpr ⟨node, nodeMem, rfl⟩, ?_⟩
    split <;> exact path
  counts := inv.counts.modify_same word change same

theorem Inv.split (inv : Inv ps locks tier) {node : RadixTreeNode} (mem : node ∈ tier.nodes)
    {pos : Nat} (positive : 0 < pos) (lt : pos < node.length) (aligned : ps ∣ pos) :
    Inv ps locks { tier with nodes := splitNode tier.nodes node pos } where
  wf := inv.wf.splitAt mem positive lt aligned _ _
  stored := by
    intro lock lockMem
    refine (inv.stored lock lockMem).imp_right fun ⟨last, lastMem, path⟩ => ?_
    by_cases same : last.path = node.path
    · refine ⟨splitTail node pos, (mem_splitNode inv.wf mem).mpr (Or.inr (Or.inl rfl)), ?_⟩
      rw [splitTail_path, ← same, path]
    · exact ⟨last, (mem_splitNode inv.wf mem).mpr (Or.inr (Or.inr ⟨lastMem, same⟩)), path⟩
  counts := by
    refine inv.counts.split inv.wf mem lt ?_
    refine congrArg Nat.cast (countP_congr fun lock lockMem => ?_)
    simp only [decide_eq_true_eq]
    exact inv.wf.head_prefix_iff mem positive aligned (inv.stored lock lockMem)

theorem Inv.not_locked_of_fresh (inv : Inv ps locks tier) {word key : List Token}
    (positive : 0 < key.length) (aligned : ps ∣ key.length)
    (stored : word = [] ∨ ∃ node ∈ tier.nodes, node.path = word)
    (fresh : child? ps tier.nodes word key = none) :
    ∀ lock ∈ locks, ¬word ++ key <+: lock := by
  intro lock mem above
  rcases inv.stored lock mem with rfl | ⟨node, nodeMem, rfl⟩
  · have := (append_eq_nil_iff.mp (prefix_nil.mp above)).2
    rw [this] at positive
    simp at positive
  · have pageOn : word ++ key.take ps <+: node.path :=
      ((prefix_append_right_inj _).mpr (List.take_prefix _ _)).trans above
    have fits : ps ≤ key.length := Nat.le_of_dvd positive aligned
    have pagePos : 0 < ps := Nat.pos_of_dvd_of_pos aligned positive
    exact inv.wf.not_prefix_of_page stored (by simp [fits]) pagePos
      (fun child childMem hangs => child?_none fresh childMem hangs) nodeMem pageOn

theorem Inv.insertLeaf (inv : Inv ps locks tier) {word key : List Token}
    (positive : 0 < key.length) (aligned : ps ∣ key.length)
    (stored : word = [] ∨ ∃ node ∈ tier.nodes, node.path = word)
    (fresh : child? ps tier.nodes word key = none) (data : NodeData)
    (unlocked : data.refCount = 0) :
    Inv ps locks { tier with
      nodes := PageTree.insertLeaf tier.nodes word key data
      evictableSize := tier.evictableSize + key.length } where
  wf := inv.wf.insertLeaf positive aligned stored fresh data
  stored := by
    intro lock mem
    exact (inv.stored lock mem).imp_right fun ⟨node, nodeMem, path⟩ =>
      ⟨node, mem_append_left _ nodeMem, path⟩
  counts := inv.counts.insertLeaf word key data unlocked
    (through_eq_zero (inv.not_locked_of_fresh positive aligned stored fresh))

theorem Inv.remove (inv : Inv ps locks tier) {node : RadixTreeNode} (mem : node ∈ tier.nodes)
    (leaf : isLeaf tier.nodes node.path = true) (unlocked : node.data.refCount = 0) :
    Inv ps locks { tier with
      nodes := PageTree.remove tier.nodes node.path
      evictableSize := tier.evictableSize - node.length } where
  wf := inv.wf.remove leaf
  stored := by
    intro lock lockMem
    refine (inv.stored lock lockMem).imp_right fun ⟨last, lastMem, path⟩ => ?_
    refine ⟨last, mem_remove.mpr ⟨lastMem, fun same => ?_⟩, path⟩
    have count := inv.counts.refCount node mem
    have below : node.path <+: lock := by rw [← path, same]
    have := through_pos lockMem below
    omega
  counts := inv.counts.remove inv.wf mem unlocked

end FullTier

end FreeToken
