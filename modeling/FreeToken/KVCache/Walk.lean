/-
**One round of a walk down a tree, and the whole walk of the plain and the hybrid cache.**

* `treeWalk_induction`, `treeWalk_spec`: the tree after a walk is reached by stamps and by splits at
  page boundaries, the walk ends at a stored prefix of the ids, and no longer prefix is stored.
-/

import FreeToken.KVCache.RadixCache
import FreeToken.KVCache.FullTier

namespace FreeToken

open PageTree List

/-! ### The common prefix -/

variable (key ids : List Token)

theorem getMatchLen_le_key : getMatchLen key ids ≤ key.length := by
  induction key generalizing ids with
  | nil => simp [getMatchLen]
  | cons letter key ih =>
    cases ids with
    | nil => simp [getMatchLen]
    | cons id ids =>
      rw [getMatchLen]
      split
      · have := ih ids
        rw [length_cons]
        omega
      · omega

theorem getMatchLen_le_ids : getMatchLen key ids ≤ ids.length := by
  induction key generalizing ids with
  | nil => simp [getMatchLen]
  | cons letter key ih =>
    cases ids with
    | nil => simp [getMatchLen]
    | cons id ids =>
      rw [getMatchLen]
      split
      · have := ih ids
        rw [length_cons]
        omega
      · omega

theorem getMatchLen_take {size : Nat} (short : size ≤ getMatchLen key ids) :
    key.take size = ids.take size := by
  induction key generalizing ids size with
  | nil =>
    have : size = 0 := by simpa [getMatchLen] using short
    simp [this]
  | cons letter key ih =>
    cases ids with
    | nil =>
      have : size = 0 := by simpa [getMatchLen] using short
      simp [this]
    | cons id ids =>
      rw [getMatchLen] at short
      cases size with
      | zero => simp
      | succ size =>
        split at short
        · next same => rw [take_succ_cons, take_succ_cons, same, ih ids (by omega)]
        · omega

/-- The match is the longest common prefix. -/
theorem le_getMatchLen {size : Nat} (same : key.take size = ids.take size)
    (fitsKey : size ≤ key.length) (fitsIds : size ≤ ids.length) : size ≤ getMatchLen key ids := by
  induction key generalizing ids size with
  | nil =>
    rw [length_nil] at fitsKey
    omega
  | cons letter key ih =>
    cases ids with
    | nil =>
      rw [length_nil] at fitsIds
      omega
    | cons id ids =>
      cases size with
      | zero => omega
      | succ size =>
        rw [take_succ_cons, take_succ_cons, cons.injEq] at same
        rw [length_cons] at fitsKey fitsIds
        rw [getMatchLen, if_pos same.1]
        have := ih ids same.2 (by omega) (by omega)
        omega

/-! ### Stored words -/

/-- A word that ends at a node or at the root, kept by every change. -/
def Stored (tree : List RadixTreeNode) (word : List Token) : Prop :=
  word = [] ∨ ∃ node ∈ tree, node.path = word

theorem Stored.root (tree : List RadixTreeNode) : Stored tree [] := Or.inl rfl

theorem Stored.of_mem {tree : List RadixTreeNode} {node : RadixTreeNode} (mem : node ∈ tree) :
    Stored tree node.path := Or.inr ⟨node, mem, rfl⟩

variable {ps : Nat} {tree : List RadixTreeNode}

theorem Stored.dvd (wf : WF ps tree) {word : List Token} (stored : Stored tree word) :
    ps ∣ word.length := by
  rcases stored with rfl | ⟨node, mem, rfl⟩
  · exact dvd_zero ps
  · exact wf.path_dvd mem

theorem Stored.modify {word : List Token} (stored : Stored tree word) (at_ : List Token)
    (change : RadixTreeNode → NodeData) : Stored (modify tree at_ change) word := by
  refine stored.imp_right fun ⟨node, mem, path⟩ => ?_
  refine ⟨_, mem_modify.mpr ⟨node, mem, rfl⟩, ?_⟩
  split <;> exact path

theorem Stored.split (wf : WF ps tree) {word : List Token} (stored : Stored tree word)
    {node : RadixTreeNode} (mem : node ∈ tree) (pos : Nat) :
    Stored (splitNode tree node pos) word := by
  refine stored.imp_right fun ⟨last, lastMem, path⟩ => ?_
  by_cases same : last.path = node.path
  · refine ⟨splitTail node pos, (FullTier.mem_splitNode wf mem).mpr (Or.inr (Or.inl rfl)), ?_⟩
    rw [FullTier.splitTail_path, ← same, path]
  · exact ⟨last, (FullTier.mem_splitNode wf mem).mpr (Or.inr (Or.inr ⟨lastMem, same⟩)), path⟩

theorem stored_splitHead (wf : WF ps tree) {node : RadixTreeNode} (mem : node ∈ tree)
    (pos : Nat) : Stored (splitNode tree node pos) (splitHead node pos).path :=
  Stored.of_mem ((FullTier.mem_splitNode wf mem).mpr (Or.inl rfl))

/-! ### One round -/

section Round

variable {word rest : List Token} {child : RadixTreeNode}

theorem page_le_matchLen (wf : WF ps tree) (found : child? ps tree word rest = some child) :
    ps ≤ alignDown (getMatchLen child.key rest) ps := by
  have fitsKey : ps ≤ child.key.length := wf.page_le (child?_mem found)
  have samePage := (child?_spec found).2
  have fitsRest : ps ≤ rest.length := by
    have lengths := congrArg length samePage
    rw [length_take, length_take] at lengths
    omega
  exact le_alignDown (dvd_refl ps) (le_getMatchLen child.key rest samePage fitsKey fitsRest)

theorem matchLen_le (child : RadixTreeNode) (rest : List Token) (ps : Nat) :
    alignDown (getMatchLen child.key rest) ps ≤ child.length :=
  (alignDown_le _ _).trans (getMatchLen_le_key _ _)

theorem matchLen_le_rest (child : RadixTreeNode) (rest : List Token) (ps : Nat) :
    alignDown (getMatchLen child.key rest) ps ≤ rest.length :=
  (alignDown_le _ _).trans (getMatchLen_le_ids _ _)

theorem matchLen_pos (wf : WF ps tree) (found : child? ps tree word rest = some child) :
    0 < alignDown (getMatchLen child.key rest) ps :=
  lt_of_lt_of_le (wf.page_positive (child?_mem found)) (page_le_matchLen wf found)

theorem matched_take (child : RadixTreeNode) (rest : List Token) (ps : Nat) :
    child.key.take (alignDown (getMatchLen child.key rest) ps) =
      rest.take (alignDown (getMatchLen child.key rest) ps) :=
  getMatchLen_take _ _ (alignDown_le _ _)

theorem path_of_full (found : child? ps tree word rest = some child)
    (full : alignDown (getMatchLen child.key rest) ps = child.length) :
    child.path = word ++ rest.take child.length := by
  have parent := (child?_spec found).1
  have same := matched_take child rest ps
  rw [full] at same
  rw [Seg.path, parent, ← same]
  unfold Seg.length
  rw [take_length]

theorem splitHead_path_of_found (found : child? ps tree word rest = some child) :
    (splitHead child (alignDown (getMatchLen child.key rest) ps)).path =
      word ++ rest.take (alignDown (getMatchLen child.key rest) ps) := by
  rw [FullTier.splitHead_path, (child?_spec found).1, matched_take]

/-- **After a split the rest of the ids has no child to go on with**. -/
theorem child?_splitHead (wf : WF ps tree) (found : child? ps tree word rest = some child)
    (partial_ : alignDown (getMatchLen child.key rest) ps < child.length) :
    child? ps (splitNode tree child (alignDown (getMatchLen child.key rest) ps))
      (splitHead child (alignDown (getMatchLen child.key rest) ps)).path
      (rest.drop (alignDown (getMatchLen child.key rest) ps)) = none := by
  have mem := child?_mem found
  have pagePos := wf.page_positive mem
  have positive := matchLen_pos wf found
  have aligned := dvd_alignDown (getMatchLen child.key rest) ps
  have same := matched_take child rest ps
  have below := lt_alignDown_add (getMatchLen child.key rest) pagePos
  generalize alignDown (getMatchLen child.key rest) ps = pos at *
  have wfCut := wf.splitAt mem positive partial_ aligned (NodeData.splitHead pos)
    (NodeData.splitTail pos)
  refine find?_eq_none.mpr fun node nodeMem => ?_
  simp only [decide_eq_true_eq, not_and]
  intro hangs samePage
  rcases (FullTier.mem_splitNode wf mem).mp nodeMem with rfl | rfl | ⟨old, ne⟩
  · -- the head does not hang from itself
    have := wfCut.positive _ nodeMem
    have lengths := congrArg length hangs
    rw [Seg.path_length] at lengths
    omega
  · -- the tail differs from the ids in its first page, else the match were longer
    have tailFits := wfCut.page_le nodeMem
    unfold splitTail Seg.length at tailFits
    rw [length_drop] at tailFits
    have restFits : ps ≤ (rest.drop pos).length := by
      have lengths := congrArg length samePage
      unfold splitTail at lengths
      rw [length_take, length_take, length_drop] at lengths
      omega
    rw [length_drop] at restFits
    have longer : child.key.take (pos + ps) = rest.take (pos + ps) := by
      rw [take_add, take_add, same]
      exact congrArg _ samePage
    have := le_getMatchLen child.key rest longer (by omega) (by omega)
    omega
  · -- no other node hangs from the middle of the node that was cut
    have headMem := (@FullTier.mem_splitNode _ _ wf _ mem pos _).mpr (Or.inl rfl)
    have headOn : (splitHead child pos).path <+: node.path := hangs ▸ node.parent_isPrefix
    have onChild := (wf.head_prefix_iff mem positive aligned (Stored.of_mem old)).mp
      (by rw [← FullTier.splitHead_path]; exact headOn)
    have tailMem := (@FullTier.mem_splitNode _ _ wf _ mem pos _).mpr (Or.inr (Or.inl rfl))
    have parents : (splitTail child pos).parent = node.parent := hangs.symm
    have nodeLonger := wfCut.positive _ nodeMem
    have tailOn : (splitTail child pos).path <+: node.path := by
      rw [FullTier.splitTail_path]
      exact onChild
    have pages : (splitTail child pos).key.take ps = node.key.take ps := by
      have left := ((splitTail child pos).pageWord_isPrefix ps).trans tailOn
      have right := node.pageWord_isPrefix ps
      have words := prefix_eq_of_length left right (by
        rw [wfCut.pageWord_length tailMem, wfCut.pageWord_length nodeMem, parents])
      unfold Seg.pageWord at words
      rw [parents] at words
      exact append_cancel_left words
    have merged := wfCut.eq_of_page tailMem nodeMem parents pages
    rw [← merged, FullTier.splitTail_path] at ne
    exact ne rfl

theorem child?_modify {word rest : List Token} (at_ : List Token)
    (change : RadixTreeNode → NodeData) (missing : child? ps tree word rest = none) :
    child? ps (modify tree at_ change) word rest = none := by
  refine find?_eq_none.mpr fun node mem => ?_
  obtain ⟨old, oldMem, rfl⟩ := mem_modify.mp mem
  have := child?_none missing oldMem
  simp only [decide_eq_true_eq, not_and]
  split <;> exact this

theorem child?_splitNode (wf : WF ps tree) (mem : child ∈ tree) {pos : Nat}
    (lt : pos < child.length) (missing : child? ps tree child.path rest = none) :
    child? ps (splitNode tree child pos) child.path rest = none := by
  refine find?_eq_none.mpr fun node nodeMem => ?_
  simp only [decide_eq_true_eq, not_and]
  intro hangs
  have size := child.path_length
  rcases (FullTier.mem_splitNode wf mem).mp nodeMem with rfl | rfl | ⟨old, _⟩
  · have lengths := congrArg length hangs
    have : (splitHead child pos).parent.length = child.parent.length := rfl
    omega
  · have lengths := congrArg length hangs
    have parent : (splitTail child pos).parent = (splitHead child pos).path := rfl
    have headLength := FullTier.splitHead_length lt
    have headPath := (splitHead child pos).path_length
    have : (splitHead child pos).parent.length = child.parent.length := rfl
    rw [parent] at lengths
    omega
  · exact child?_none missing old hangs

theorem child?_insertLeaf (wf : WF ps tree) {key : List Token} (positive : 0 < key.length)
    (aligned : ps ∣ key.length) (stored : Stored tree word)
    (fresh : child? ps tree word key = none) (data : NodeData) (next : List Token) :
    child? ps (insertLeaf tree word key data) (word ++ key) next = none := by
  refine find?_eq_none.mpr fun node nodeMem => ?_
  simp only [decide_eq_true_eq, not_and]
  intro hangs
  exfalso
  rcases mem_append.mp nodeMem with old | new
  · rcases wf.closed node old with root | ⟨up, upMem, upPath⟩
    · rw [root] at hangs
      have lengths := congrArg length hangs
      simp only [length_nil, length_append] at lengths
      omega
    · have fits : ps ≤ key.length := Nat.le_of_dvd positive aligned
      have pagePos : 0 < ps := Nat.pos_of_dvd_of_pos aligned positive
      refine wf.not_prefix_of_page stored (by simp [fits]) pagePos
        (fun child childMem hangs => child?_none fresh childMem hangs) upMem
        (?_ : word ++ key.take ps <+: up.path)
      rw [upPath, hangs]
      exact (prefix_append_right_inj _).mpr (List.take_prefix _ _)
  · rw [mem_singleton.mp new] at hangs
    have lengths := congrArg length hangs
    simp only [length_append] at lengths
    omega

end Round

/-! ### The whole walk -/

/-- A property of trees that stamps and splits at page boundaries keep. -/
structure KeptByWalk (ps : Nat) (P : List RadixTreeNode → Prop) : Prop where
  stamp : ∀ tree word time, P tree → P (stampNode tree word time)
  split : ∀ (tree : List RadixTreeNode) (node : RadixTreeNode) (pos : Nat), WF ps tree → P tree →
    node ∈ tree → 0 < pos → pos < node.length → ps ∣ pos → P (splitNode tree node pos)

theorem treeWalkFrom_spec {P : List RadixTreeNode → Prop} (kept : KeptByWalk ps P) (tic : Int) :
    ∀ (fuel : Nat) (tree : List RadixTreeNode) (word rest : List Token), WF ps tree → P tree →
      Stored tree word → rest.length ≤ fuel →
      WF ps (treeWalkFrom ps tic fuel tree word rest).1 ∧
      P (treeWalkFrom ps tic fuel tree word rest).1 ∧
      Stored (treeWalkFrom ps tic fuel tree word rest).1
        (treeWalkFrom ps tic fuel tree word rest).2 ∧
      ∃ size ≤ rest.length, (treeWalkFrom ps tic fuel tree word rest).2 = word ++ rest.take size ∧
        (rest.drop size = [] ∨ child? ps (treeWalkFrom ps tic fuel tree word rest).1
          (treeWalkFrom ps tic fuel tree word rest).2 (rest.drop size) = none) := by
  intro fuel
  induction fuel with
  | zero =>
    intro tree word rest wf holds stored enough
    have empty : rest = [] := length_eq_zero_iff.mp (Nat.le_zero.mp enough)
    exact ⟨wf, holds, stored, 0, Nat.zero_le _, by simp [treeWalkFrom], Or.inl (by simp [empty])⟩
  | succ fuel ih =>
    intro tree word rest wf holds stored enough
    rw [treeWalkFrom]
    by_cases empty : rest = []
    · rw [if_pos empty]
      exact ⟨wf, holds, stored, 0, Nat.zero_le _, by simp, Or.inl (by simp [empty])⟩
    rw [if_neg empty]
    rcases found : child? ps tree word rest with _ | child
    · exact ⟨wf, holds, stored, 0, Nat.zero_le _, by simp, Or.inr (by simpa using found)⟩
    have mem := child?_mem found
    have positive := matchLen_pos wf found
    have fits := matchLen_le_rest child rest ps
    have upper := matchLen_le child rest ps
    have aligned := dvd_alignDown (getMatchLen child.key rest) ps
    by_cases full : alignDown (getMatchLen child.key rest) ps = child.length
    · simp only [full, ne_eq, not_true_eq_false, if_false]
      have restSize : (rest.drop child.length).length ≤ fuel := by
        rw [length_drop]
        omega
      obtain ⟨wfEnd, holdsEnd, storedEnd, size, within, path, stop⟩ := ih
        (stampNode tree child.path tic) child.path (rest.drop child.length)
        (wf.modify _ _) (kept.stamp _ _ _ holds) ((Stored.of_mem mem).modify _ _) restSize
      rw [length_drop] at within
      refine ⟨wfEnd, holdsEnd, storedEnd, child.length + size, by omega, ?_, ?_⟩
      · rw [path, path_of_full found full, append_assoc, take_add]
      · rwa [drop_drop] at stop
    · simp only [ne_eq, full, not_false_eq_true, if_true]
      have partial_ : alignDown (getMatchLen child.key rest) ps < child.length :=
        lt_of_le_of_ne upper full
      have wfCut := wf.splitAt mem positive partial_ aligned
        (NodeData.splitHead (alignDown (getMatchLen child.key rest) ps))
        (NodeData.splitTail (alignDown (getMatchLen child.key rest) ps))
      refine ⟨wfCut.modify _ _, ?_, (stored_splitHead wf mem _).modify _ _, _, fits,
        splitHead_path_of_found found, Or.inr ?_⟩
      · exact kept.stamp _ _ _ (kept.split tree child _ wf holds mem positive partial_ aligned)
      · exact child?_modify _ _ (child?_splitHead wf found partial_)

theorem treeWalk_spec {P : List RadixTreeNode → Prop} (kept : KeptByWalk ps P) (tic : Int)
    {tree : List RadixTreeNode} (wf : WF ps tree) (holds : P tree) (inputIds : List Token) :
    WF ps (treeWalk ps tic tree inputIds).1 ∧ P (treeWalk ps tic tree inputIds).1 ∧
    Stored (treeWalk ps tic tree inputIds).1 (treeWalk ps tic tree inputIds).2 ∧
    (treeWalk ps tic tree inputIds).2 <+: inputIds ∧
    ((treeWalk ps tic tree inputIds).2 = inputIds ∨
      child? ps (treeWalk ps tic tree inputIds).1 (treeWalk ps tic tree inputIds).2
        (inputIds.drop (treeWalk ps tic tree inputIds).2.length) = none) := by
  obtain ⟨wfEnd, holdsEnd, storedEnd, size, within, path, stop⟩ := treeWalkFrom_spec kept tic
    inputIds.length tree [] inputIds wf holds (Stored.root tree) le_rfl
  rw [nil_append] at path
  refine ⟨wfEnd, holdsEnd, storedEnd, ?_, ?_⟩
  · rw [treeWalk, path]
    exact take_prefix _ _
  · have length : (treeWalk ps tic tree inputIds).2.length = size := by
      rw [treeWalk, path, length_take, min_eq_left within]
    rw [length]
    refine stop.imp_left fun done => ?_
    rw [treeWalk, path]
    have all : inputIds.length ≤ size := drop_eq_nil_iff.mp done
    exact take_of_length_le all

/-! ### The heap -/

theorem popOldest_eq_none {nodes : List RadixTreeNode} (empty : popOldest nodes = none) :
    nodes = [] := by
  cases nodes with
  | nil => rfl
  | cons node nodes =>
    rw [popOldest] at empty
    split at empty
    · cases empty
    · split at empty <;> cases empty

theorem popOldest_perm {nodes rest : List RadixTreeNode} {oldest : RadixTreeNode}
    (popped : popOldest nodes = some (oldest, rest)) : nodes.Perm (oldest :: rest) := by
  induction nodes generalizing oldest rest with
  | nil => simp [popOldest] at popped
  | cons node nodes ih =>
    rw [popOldest] at popped
    rcases below : popOldest nodes with _ | ⟨other, others⟩
    · rw [below] at popped
      obtain ⟨rfl, rfl⟩ := by simpa using popped
      rw [popOldest_eq_none below]
    · rw [below] at popped
      simp only at popped
      have rest' := ih below
      split at popped
      · obtain ⟨rfl, rfl⟩ := by simpa using popped
        exact Perm.refl _
      · obtain ⟨rfl, rfl⟩ := by simpa using popped
        exact (rest'.cons node).trans (Perm.swap _ _ _)

/-- Popping the oldest node loses none. -/
theorem popOldest_le {nodes rest : List RadixTreeNode} {oldest : RadixTreeNode}
    (popped : popOldest nodes = some (oldest, rest)) :
    ∀ other ∈ nodes, oldest.data.timestamp ≤ other.data.timestamp := by
  induction nodes generalizing oldest rest with
  | nil => cases popped
  | cons node nodes ih =>
    rw [popOldest] at popped
    intro other lt
    rcases below : popOldest nodes with _ | ⟨first, others⟩
    · rw [below] at popped
      obtain ⟨rfl, -⟩ := Prod.mk.inj (Option.some.inj popped)
      rw [popOldest_eq_none below, mem_singleton] at lt
      rw [lt]
    · rw [below] at popped
      dsimp only at popped
      have least := ih below
      split at popped <;> obtain ⟨rfl, -⟩ := Prod.mk.inj (Option.some.inj popped) <;>
        rcases mem_cons.mp lt with rfl | later
      · exact le_rfl
      · exact le_trans (by assumption) (least other later)
      · omega
      · exact least other later

end FreeToken
