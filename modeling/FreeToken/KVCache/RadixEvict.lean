/-
**Eviction from the plain radix cache.**
-/

import FreeToken.KVCache.Walk
import FreeToken.Lib.PageMap

namespace FreeToken

open PageTree List

def storedPages (ps : Nat) (nodes : List RadixTreeNode) : List Token → Option (List Nat) :=
  pageAt ps NodeData.value nodes

def FullNodes (nodes : List RadixTreeNode) : Prop :=
  ∀ node ∈ nodes, node.data.value.length = node.length

/-- The page-aligned words that lie in a node, and `nodeWords_value`: its indices are their
pages. -/
def nodeWords (ps : Nat) (node : RadixTreeNode) : List (List Token) :=
  (List.range (node.length / ps)).map fun page =>
    node.path.take (node.parent.length + (page + 1) * ps)

variable {ps : Nat} {nodes : List RadixTreeNode} {locks : List (List Token)} {tier : FullTier}
variable {word : List Token}

section Words

variable {node : RadixTreeNode}

theorem nodeWord_length (wf : WF ps nodes) (mem : node ∈ nodes) {page : Nat}
    (bound : page < node.length / ps) :
    (node.path.take (node.parent.length + (page + 1) * ps)).length =
      node.parent.length + (page + 1) * ps := by
  obtain ⟨own, size⟩ := wf.aligned node mem
  rw [size, Nat.mul_div_cancel_left _ (wf.page_positive mem)] at bound
  have fits : (page + 1) * ps ≤ own * ps := Nat.mul_le_mul_right _ bound
  rw [length_take, Seg.path_length, size, Nat.mul_comm ps own]
  omega

theorem mem_nodeWords (wf : WF ps nodes) (mem : node ∈ nodes) :
    word ∈ nodeWords ps node ↔ Covers ps node word := by
  have pos := wf.page_positive mem
  constructor
  · intro lt
    obtain ⟨page, bound, rfl⟩ := mem_map.mp lt
    have size := nodeWord_length wf mem (mem_range.mp bound)
    refine ⟨?_, ?_, take_prefix _ _⟩
    · rw [size]
      exact Nat.dvd_add (wf.parent_dvd mem) (Nat.dvd_mul_left _ _)
    · rw [size, Nat.succ_mul]
      omega
  · rintro ⟨aligned, longer, onPath⟩
    obtain ⟨own, ownSize⟩ := wf.aligned node mem
    obtain ⟨above, parentSize⟩ := wf.parent_dvd mem
    obtain ⟨count, wordSize⟩ := aligned
    have bound := onPath.length_le
    rw [Seg.path_length, ownSize, parentSize, wordSize, ← Nat.mul_add] at bound
    rw [parentSize, wordSize] at longer
    have low : above < count := Nat.lt_of_mul_lt_mul_left longer
    have high : count ≤ above + own := Nat.le_of_mul_le_mul_left bound pos
    refine mem_map.mpr ⟨count - above - 1, mem_range.mpr ?_, ?_⟩
    · rw [ownSize, Nat.mul_div_cancel_left _ pos]
      omega
    · have total : node.parent.length + (count - above - 1 + 1) * ps = word.length := by
        rw [parentSize, wordSize, Nat.mul_comm _ ps, ← Nat.mul_add]
        congr 1
        omega
      rw [total]
      exact prefix_eq_take onPath

theorem nodeWords_nodup (wf : WF ps nodes) (mem : node ∈ nodes) : (nodeWords ps node).Nodup := by
  have pos := wf.page_positive mem
  refine Nodup.map_on ?_ nodup_range
  intro first left second right same
  have lengths := congrArg length same
  rw [nodeWord_length wf mem (mem_range.mp left),
    nodeWord_length wf mem (mem_range.mp right)] at lengths
  have pages := Nat.eq_of_mul_eq_mul_right pos (add_left_cancel lengths)
  omega

theorem nodeWords_value (wf : WF ps nodes) (full : FullNodes nodes) (mem : node ∈ nodes) :
    (nodeWords ps node).flatMap (fun word => (storedPages ps nodes word).getD []) =
      node.data.value := by
  obtain ⟨own, ownSize⟩ := wf.aligned node mem
  have pos := wf.page_positive mem
  unfold nodeWords
  rw [flatMap_map]
  refine Eq.trans (flatMap_congr fun page lt => ?_)
    (@flatMap_pages _ ps node.data.value (node.length / ps) ?_)
  · have bound := mem_range.mp lt
    have covers := (mem_nodeWords wf mem).mp (mem_map_of_mem
      (f := fun page => node.path.take (node.parent.length + (page + 1) * ps)) lt)
    unfold storedPages
    rw [wf.pageAt_eq mem covers, Option.getD_some]
    unfold pageIn
    rw [nodeWord_length wf mem bound, Nat.succ_mul]
    congr 2
    omega
  · rw [full node mem, ownSize, Nat.mul_div_cancel_left _ pos, Nat.mul_comm]

theorem covers_prefix_iff (wf : WF ps nodes) (mem : node ∈ nodes)
    (covers : Covers ps node word) {lock : List Token} (stored : Stored nodes lock) :
    word <+: lock ↔ node.path <+: lock := by
  have longer := covers.2.1
  have size := covers.2.2.length_le
  rw [Seg.path_length] at size
  have cut : word = node.parent ++ node.key.take (word.length - node.parent.length) := by
    conv_lhs => rw [← prefix_eq_take covers.2.2]
    unfold Seg.path
    rw [take_append, take_of_length_le longer.le]
  have aligned : ps ∣ word.length - node.parent.length := Nat.dvd_sub covers.1 (wf.parent_dvd mem)
  rw [cut]
  exact wf.head_prefix_iff mem (by omega) aligned stored

end Words

/-! ### Unlocked leaves -/

namespace FullTier

theorem Inv.unlocked_below (inv : Inv ps locks tier) {node child : RadixTreeNode}
    (mem : node ∈ tier.nodes) (unlocked : node.data.refCount = 0)
    (childMem : child ∈ tier.nodes) (below : node.path <+: child.path) :
    child.data.refCount = 0 := by
  rw [inv.counts.refCount child childMem]
  refine through_eq_zero fun lock lockMem onLock => ?_
  have pos := through_pos lockMem (below.trans onLock)
  rw [← inv.counts.refCount node mem] at pos
  omega

theorem Inv.exists_freeLeaf (inv : Inv ps locks tier) (some : 0 < tier.evictableSize) :
    ∃ node ∈ tier.nodes, isLeaf tier.nodes node.path = true ∧ node.data.refCount = 0 := by
  by_contra none
  push Not at none
  have start : ∃ node ∈ tier.nodes, node.data.refCount = 0 := by
    by_contra locked
    push Not at locked
    have zero : total idle tier.nodes = 0 := by
      have weightless : ∀ node ∈ tier.nodes, idle node = (fun _ => 0) node := by
        intro node mem
        exact if_neg (locked node mem)
      rw [total_congr weightless]
      refine sum_eq_zero fun weight lt => ?_
      obtain ⟨_, _, zero⟩ := mem_map.mp lt
      exact zero.symm
    rw [inv.counts.evictable, zero] at some
    exact absurd some (lt_irrefl _)
  have deep : ∀ depth, ∃ node ∈ tier.nodes, node.data.refCount = 0 ∧ depth ≤ node.path.length := by
    intro depth
    induction depth with
    | zero =>
      obtain ⟨node, mem, unlocked⟩ := start
      exact ⟨node, mem, unlocked, Nat.zero_le _⟩
    | succ depth ih =>
      obtain ⟨node, mem, unlocked, reach⟩ := ih
      have inner : ¬isLeaf tier.nodes node.path = true := fun leaf => none node mem leaf unlocked
      rw [isLeaf_iff] at inner
      push Not at inner
      obtain ⟨child, childMem, hangs⟩ := inner
      have below : node.path <+: child.path := hangs ▸ child.parent_isPrefix
      refine ⟨child, childMem, inv.unlocked_below mem unlocked childMem below, ?_⟩
      have pos := inv.wf.positive child childMem
      rw [Seg.path_length, hangs]
      omega
  obtain ⟨node, mem, _, reach⟩ := deep ((tier.nodes.map fun node => node.path.length).sum + 1)
  have bound := single_le_sum (fun length _ => Nat.zero_le length) _
    (mem_map_of_mem (f := fun node : RadixTreeNode => node.path.length) mem)
  omega

end FullTier

/-! ### The heap -/

/-- The heap holds the unlocked leaves, and a round keeps it so. -/
structure LeafHeap (nodes heap : List RadixTreeNode) : Prop where
  members : ∀ node, node ∈ heap ↔
    node ∈ nodes ∧ isLeaf nodes node.path = true ∧ node.data.refCount = 0
  distinct : heap.Nodup

theorem leafHeap_collect (wf : WF ps nodes) :
    LeafHeap nodes (RadixPrefixCache.collectLeaveNodesForEvict nodes) where
  members := by
    intro node
    unfold RadixPrefixCache.collectLeaveNodesForEvict
    rw [mem_filter, decide_eq_true_iff]
  distinct := (Nodup.of_map _ wf.paths_nodup).filter _

def exposeParent (nodes : List RadixTreeNode) (parent : List Token) (heap : List RadixTreeNode) :
    List RadixTreeNode :=
  match node? nodes parent with
  | some up => if isLeaf nodes up.path ∧ up.data.refCount = 0 then up :: heap else heap
  | none => heap

theorem isLeaf_remove (at_ : List Token) (leaf : isLeaf nodes word = true) :
    isLeaf (remove nodes at_) word = true :=
  isLeaf_iff.mpr fun node mem => isLeaf_iff.mp leaf node (mem_remove.mp mem).1

variable {node : RadixTreeNode}

/-- **A round keeps the heap.** -/
theorem LeafHeap.unlink (wf : WF ps nodes) {rest : List RadixTreeNode}
    (heap : LeafHeap nodes (node :: rest)) :
    LeafHeap (remove nodes node.path)
      (exposeParent (remove nodes node.path) node.parent rest) := by
  obtain ⟨mem, leaf, _⟩ := (heap.members node).mp mem_cons_self
  have wfRest := wf.remove leaf
  obtain ⟨fresh, distinct⟩ := nodup_cons.mp heap.distinct
  have kept : ∀ other, other ∈ rest ↔ other ∈ remove nodes node.path ∧
      isLeaf nodes other.path = true ∧ other.data.refCount = 0 := by
    intro other
    constructor
    · intro inRest
      obtain ⟨inTree, isLeaf', unlocked⟩ := (heap.members other).mp (mem_cons_of_mem _ inRest)
      refine ⟨mem_remove.mpr ⟨inTree, fun same => ?_⟩, isLeaf', unlocked⟩
      exact fresh (wf.eq_of_path inTree mem same ▸ inRest)
    · rintro ⟨inRemoved, isLeaf', unlocked⟩
      obtain ⟨inTree, differs⟩ := mem_remove.mp inRemoved
      rcases mem_cons.mp ((heap.members other).mpr ⟨inTree, isLeaf', unlocked⟩) with same | later
      · exact absurd (congrArg Seg.path same) differs
      · exact later
  -- A node that is a leaf only now is the parent of the one that was unlinked.
  have exposed : ∀ other ∈ remove nodes node.path, isLeaf (remove nodes node.path) other.path = true →
      isLeaf nodes other.path = true ∨ other.path = node.parent := by
    intro other _ leafNow
    by_cases leafBefore : isLeaf nodes other.path = true
    · exact .inl leafBefore
    · rw [isLeaf_iff] at leafBefore
      push Not at leafBefore
      obtain ⟨child, childMem, hangs⟩ := leafBefore
      refine .inr ?_
      by_cases same : child.path = node.path
      · rw [← wf.eq_of_path childMem mem same, hangs]
      · exact absurd hangs (isLeaf_iff.mp leafNow child (mem_remove.mpr ⟨childMem, same⟩))
  have parentInner : isLeaf nodes node.parent = false := by
    rw [Bool.eq_false_iff]
    exact fun leaf' => isLeaf_iff.mp leaf' node mem rfl
  have plain : (∀ up, node? (remove nodes node.path) node.parent = some up →
      ¬(isLeaf (remove nodes node.path) up.path = true ∧ up.data.refCount = 0)) →
      LeafHeap (remove nodes node.path) rest := by
    intro closed
    refine ⟨fun other => ?_, distinct⟩
    rw [kept]
    constructor
    · rintro ⟨lt, leaf', unlocked⟩
      exact ⟨lt, isLeaf_remove _ leaf', unlocked⟩
    · rintro ⟨lt, leafNow, unlocked⟩
      rcases exposed other lt leafNow with leaf' | isParent
      · exact ⟨lt, leaf', unlocked⟩
      · exact absurd ⟨leafNow, unlocked⟩
          (closed other (wfRest.node?_eq_of_path lt isParent))
  unfold exposeParent
  split
  · rename_i up found
    have upMem := node?_mem found
    have upPath := node?_path found
    split
    · rename_i opens
      refine ⟨fun other => ?_, nodup_cons.mpr ⟨fun again => ?_, distinct⟩⟩
      · rw [mem_cons, kept]
        constructor
        · rintro (rfl | ⟨lt, leaf', unlocked⟩)
          · exact ⟨upMem, opens⟩
          · exact ⟨lt, isLeaf_remove _ leaf', unlocked⟩
        · rintro ⟨lt, leafNow, unlocked⟩
          rcases exposed other lt leafNow with leaf' | isParent
          · exact .inr ⟨lt, leaf', unlocked⟩
          · exact .inl (wfRest.eq_of_path lt upMem (isParent.trans upPath.symm))
      · have leaf' := ((kept up).mp again).2.1
        rw [upPath, parentInner] at leaf'
        cases leaf'
    · rename_i closed
      refine plain fun other otherFound => ?_
      rw [found] at otherFound
      cases otherFound
      exact closed
  · rename_i missing
    refine plain fun other found => ?_
    rw [missing] at found
    cases found

theorem LeafHeap.perm {heap other : List RadixTreeNode} (holds : LeafHeap nodes heap)
    (same : heap.Perm other) : LeafHeap nodes other :=
  ⟨fun node => same.mem_iff.symm.trans (holds.members node), same.nodup_iff.mp holds.distinct⟩

/-! ### The rounds -/

structure OldestLeaf (nodes : List RadixTreeNode) (node : RadixTreeNode) : Prop where
  member : node ∈ nodes
  leaf : isLeaf nodes node.path = true
  unlocked : node.data.refCount = 0
  oldest : ∀ other ∈ nodes, isLeaf nodes other.path = true → other.data.refCount = 0 →
    node.data.timestamp ≤ other.data.timestamp

/-- **Nodes taken out one after another**, each the oldest unlocked leaf of what is there by then. -/
def Peeled : List RadixTreeNode → List RadixTreeNode → List RadixTreeNode → Prop
  | nodes, [], after => after = nodes
  | nodes, node :: rest, after => OldestLeaf nodes node ∧ Peeled (remove nodes node.path) rest after

theorem Peeled.parts {order after : List RadixTreeNode} (wf : WF ps nodes)
    (peeled : Peeled nodes order after) :
    nodes.Perm (order ++ after) ∧ ∀ node ∈ order, node.data.refCount = 0 := by
  induction order generalizing nodes with
  | nil =>
    obtain rfl : after = nodes := peeled
    exact ⟨.refl _, fun _ lt => by cases lt⟩
  | cons node order ih =>
    obtain ⟨first, later⟩ := peeled
    obtain ⟨parts, unlocked⟩ := ih (wf.remove first.leaf) later
    exact ⟨(wf.focus first.member).trans (parts.cons node),
      forall_mem_cons.mpr ⟨first.unlocked, unlocked⟩⟩

theorem LeafHeap.oldest {heap rest : List RadixTreeNode}
    (leaves : LeafHeap nodes heap) (popped : popOldest heap = some (node, rest)) :
    OldestLeaf nodes node := by
  obtain ⟨mem, leaf, unlocked⟩ := (leaves.members node).mp
    ((popOldest_perm popped).mem_iff.mpr mem_cons_self)
  exact ⟨mem, leaf, unlocked, fun other lt leaf' unlocked' =>
    popOldest_le popped other ((leaves.members other).mpr ⟨lt, leaf', unlocked'⟩)⟩

/-- **What an eviction leaves**: `words` were stored and below no lock, `freed` are their pages, and
nothing else is gone. -/
structure Evicted (ps : Nat) (locks : List (List Token)) (tier after : FullTier)
    (freed : List Nat) (words : List (List Token)) : Prop where
  inv : FullTier.Inv ps locks after
  full : FullNodes after.nodes
  sub : ∀ node ∈ after.nodes, node ∈ tier.nodes
  nodup : words.Nodup
  stored : ∀ word ∈ words, (storedPages ps tier.nodes word).isSome = true
  unlocked : ∀ word ∈ words, ∀ lock ∈ locks, ¬word <+: lock
  pages : freed = words.flatMap fun word => (storedPages ps tier.nodes word).getD []
  map : ∀ word, storedPages ps after.nodes word =
    if word ∈ words then none else storedPages ps tier.nodes word

theorem Evicted.refl (inv : FullTier.Inv ps locks tier) (full : FullNodes tier.nodes) :
    Evicted ps locks tier tier [] [] where
  inv := inv
  full := full
  sub := fun _ mem => mem
  nodup := nodup_nil
  stored := by simp
  unlocked := by simp
  pages := rfl
  map := by simp

theorem Evicted.trans {between after : FullTier} {first second : List Nat}
    {early late : List (List Token)} (left : Evicted ps locks tier between first early)
    (right : Evicted ps locks between after second late) :
    Evicted ps locks tier after (first ++ second) (early ++ late) := by
  have apart : ∀ word ∈ late, word ∉ early := by
    intro word later prev
    have here := right.stored word later
    rw [left.map, if_pos prev] at here
    cases here
  have same : ∀ word ∈ late, storedPages ps between.nodes word = storedPages ps tier.nodes word := by
    intro word later
    rw [left.map, if_neg (apart word later)]
  refine ⟨right.inv, right.full, fun node mem => left.sub node (right.sub node mem), ?_, ?_,
    ?_, ?_, ?_⟩
  · refine nodup_append.mpr ⟨left.nodup, right.nodup, ?_⟩
    rintro word prev other later rfl
    exact apart word later prev
  · intro word lt
    rcases mem_append.mp lt with prev | later
    · exact left.stored word prev
    · rw [← same word later]
      exact right.stored word later
  · intro word lt
    rcases mem_append.mp lt with prev | later
    · exact left.unlocked word prev
    · exact right.unlocked word later
  · rw [left.pages, right.pages, flatMap_append]
    congr 1
    exact flatMap_congr fun word later => by rw [same word later]
  · intro word
    rw [right.map, left.map]
    by_cases later : word ∈ late
    · rw [if_pos later, if_pos (mem_append_right _ later)]
    · rw [if_neg later]
      simp only [mem_append, later, or_false]

theorem Evicted.leaf (inv : FullTier.Inv ps locks tier) (full : FullNodes tier.nodes) (mem : node ∈ tier.nodes)
    (leaf : isLeaf tier.nodes node.path = true) (unlocked : node.data.refCount = 0) :
    Evicted ps locks tier
      { tier with
        nodes := remove tier.nodes node.path
        evictableSize := tier.evictableSize - node.length }
      node.data.value (nodeWords ps node) where
  inv := inv.remove mem leaf unlocked
  full := fun other lt => full other (mem_remove.mp lt).1
  sub := fun _ lt => (mem_remove.mp lt).1
  nodup := nodeWords_nodup inv.wf mem
  stored := by
    intro word lt
    exact inv.wf.pageAt_isSome_iff.mpr ⟨node, mem, (mem_nodeWords inv.wf mem).mp lt⟩
  unlocked := by
    intro word lt lock lockMem onLock
    have covers := (mem_nodeWords inv.wf mem).mp lt
    have below := (covers_prefix_iff inv.wf mem covers (inv.stored lock lockMem)).mp onLock
    have pos := through_pos lockMem below
    rw [← inv.counts.refCount node mem, unlocked] at pos
    exact lt_irrefl _ pos
  pages := (nodeWords_value inv.wf full mem).symm
  map := by
    intro word
    show pageAt ps NodeData.value (remove tier.nodes node.path) word = _
    rw [pageAt_remove inv.wf mem (inv.wf.remove leaf)]
    by_cases covers : Covers ps node word
    · rw [if_pos covers, if_pos ((mem_nodeWords inv.wf mem).mpr covers)]
    · rw [if_neg covers, if_neg fun lt => covers ((mem_nodeWords inv.wf mem).mp lt)]
      rfl

/-- **The loop of `evict` gets its tokens**: with as many rounds as nodes, and as many unlocked
tokens as are still missing, it ends without an assertion. -/
theorem evictFrom_spec (size : Nat) :
    ∀ (fuel : Nat) (tier : FullTier) (heap : List RadixTreeNode) (evictedSize : Nat)
      (evicted : List Nat), FullTier.Inv ps locks tier → FullNodes tier.nodes →
      LeafHeap tier.nodes heap → tier.nodes.length < fuel →
      (size : Int) ≤ evictedSize + tier.evictableSize →
      ∃ after freed words order,
        RadixPrefixCache.evictFrom size fuel tier heap evictedSize evicted =
          .ok (after, evicted ++ freed) ∧
        Evicted ps locks tier after freed words ∧ size ≤ evictedSize + freed.length ∧
        Peeled tier.nodes order after.nodes ∧ freed = order.flatMap (fun node => node.data.value) ∧
        after.evictableSize = tier.evictableSize - freed.length ∧
        after.protectedSize = tier.protectedSize := by
  intro fuel
  induction fuel with
  | zero =>
    intro tier heap evictedSize evicted _ _ _ rounds
    exact absurd rounds (Nat.not_lt_zero _)
  | succ fuel ih =>
    intro tier heap evictedSize evicted inv full leaves rounds enough
    rw [RadixPrefixCache.evictFrom]
    by_cases done : size ≤ evictedSize
    · rw [if_pos done]
      refine ⟨tier, [], [], [], ?_, Evicted.refl inv full, ?_, rfl, rfl, (sub_zero _).symm, rfl⟩
      · rw [append_nil]
      · exact le_add_right done
    rw [if_neg done]
    -- the tokens that are missing are in unlocked nodes, so there is a leaf to take
    obtain ⟨free, freeMem, freeLeaf, freeUnlocked⟩ := inv.exists_freeLeaf (by omega)
    have free := (leaves.members free).mpr ⟨freeMem, freeLeaf, freeUnlocked⟩
    rcases popped : popOldest heap with _ | ⟨node, rest⟩
    · rw [popOldest_eq_none popped] at free
      cases free
    have heapNext := leaves.perm (popOldest_perm popped)
    have first := leaves.oldest popped
    obtain ⟨mem, leaf, unlocked, -⟩ := id first
    have step := Evicted.leaf inv full mem leaf unlocked
    have fewer : (remove tier.nodes node.path).length < tier.nodes.length :=
      length_filter_lt_length_iff_exists.mpr ⟨node, mem, by simp⟩
    obtain ⟨after, freed, words, order, run, later, reach, peeled, values, evictable, protect⟩ := ih _
      (exposeParent (remove tier.nodes node.path) node.parent rest) (evictedSize + node.length)
      (evicted ++ node.data.value) step.inv step.full (heapNext.unlink inv.wf)
      (show (remove tier.nodes node.path).length < fuel by omega)
      (show (size : Int) ≤ (evictedSize + node.length : Nat) +
        (tier.evictableSize - node.length) by push_cast; omega)
    refine ⟨after, node.data.value ++ freed, nodeWords ps node ++ words, node :: order, ?_,
      step.trans later, ?_, ⟨first, peeled⟩, ?_, ?_, protect⟩
    · dsimp only
      rw [ensure_of ⟨unlocked, leaf⟩]
      rw [append_assoc] at run
      exact run
    · rw [length_append, full node mem]
      omega
    · rw [values]
      rfl
    · rw [evictable, length_append, full node mem]
      push_cast
      omega

end FreeToken
