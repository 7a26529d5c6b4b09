/-
**What a match of the sliding-window tree returns.**
-/

import FreeToken.KVCache.SWAFilled

namespace FreeToken

open PageTree List

/-! ### The prefix that can be reused -/

def DeadPage (ps : Nat) (nodes : List RadixTreeNode) (word : List Token) : Prop :=
  ∃ node ∈ nodes, Covers ps node word ∧ node.data.swaTombstone = true

/-- A token that lies in a tombstone. -/
def Dead (ps : Nat) (nodes : List RadixTreeNode) (inputIds : List Token) (position : Nat) : Prop :=
  DeadPage ps nodes (inputIds.take ((position / ps + 1) * ps))

/-- **A prefix that can be reused**: it is stored, and all tokens of the window before its end are
live. -/
structure Reusable (ps window : Nat) (nodes : List RadixTreeNode) (inputIds : List Token)
    (size : Nat) : Prop where
  within : size ≤ inputIds.length
  aligned : ps ∣ size
  stored : size = 0 ∨ (storedPages ps nodes (inputIds.take size)).isSome = true
  live : ∀ position, size - window ≤ position → position < size → ¬Dead ps nodes inputIds position

structure LongestReusable (ps window : Nat) (nodes : List RadixTreeNode) (inputIds : List Token)
    (size : Nat) : Prop where
  reusable : Reusable ps window nodes inputIds size
  longest : ∀ other, Reusable ps window nodes inputIds other → other ≤ size

section Reuse

variable {ps window : Nat} {nodes : List RadixTreeNode} {inputIds : List Token}

theorem reusable_zero : Reusable ps window nodes inputIds 0 :=
  ⟨Nat.zero_le _, dvd_zero _, .inl rfl, fun _ _ absurd => (Nat.not_lt_zero _ absurd).elim⟩

theorem LongestReusable.unique {first second : Nat}
    (one : LongestReusable ps window nodes inputIds first)
    (two : LongestReusable ps window nodes inputIds second) : first = second :=
  le_antisymm (two.longest first one.reusable) (one.longest second two.reusable)

end Reuse

/-! ### The matching loop -/

namespace SWARadixCache

def RunOf (ps : Nat) (nodes : List RadixTreeNode) (inputIds : List Token) (size : Nat) :
    Option Nat → Prop
  | none => ∀ position, position < size → ¬Dead ps nodes inputIds position
  | some run => run < size ∧ Dead ps nodes inputIds (size - run - 1) ∧
      ∀ position, size - run ≤ position → position < size → ¬Dead ps nodes inputIds position

/-- **The invariant of the matching loop**: how many live tokens lie behind the current node, and
that the best node so far is the longest that can be reused up to the last tombstone. -/
structure Walked (ps window : Nat) (nodes : List RadixTreeNode) (inputIds : List Token)
    (st : MatchState) : Prop where
  onIds : st.node <+: inputIds
  aligned : ps ∣ st.node.length
  stored : st.node.length = 0 ∨ (storedPages ps nodes st.node).isSome = true
  value : st.value.flatten = pagesUpTo ps (storedPages ps nodes) st.node
  size : st.value.flatten.length = st.node.length
  run : RunOf ps nodes inputIds st.node.length st.matchSinceTomb
  bestOn : st.bestNode <+: inputIds
  best : Reusable ps window nodes inputIds st.bestNode.length
  bestLen : st.bestValueLen ≤ st.value.length
  bestValue : (st.value.take st.bestValueLen).flatten =
    pagesUpTo ps (storedPages ps nodes) st.bestNode
  bestSize : (st.value.take st.bestValueLen).flatten.length = st.bestNode.length
  behind : ∀ run, st.matchSinceTomb = some run → ∀ other,
    Reusable ps window nodes inputIds other → other + run ≤ st.node.length →
      other ≤ st.bestNode.length

section Loop

variable {ps window : Nat} {nodes : List RadixTreeNode} {inputIds : List Token} {st : MatchState}

theorem take_of_onIds {word : List Token} (onIds : word <+: inputIds) :
    inputIds.take word.length = word := prefix_eq_take onIds

/-- **A commit** takes the current node if the window before it is live, and else no node after the
last tombstone can be reused. -/
theorem Walked.commit (walked : Walked ps window nodes inputIds st) :
    Walked ps window nodes inputIds (st.commit window) ∧
      ∀ other, Reusable ps window nodes inputIds other → other ≤ st.node.length →
        other ≤ (st.commit window).bestNode.length := by
  unfold MatchState.commit
  by_cases covered : covers window st.matchSinceTomb = true
  · rw [if_pos covered]
    have live : ∀ position, st.node.length - window ≤ position → position < st.node.length →
        ¬Dead ps nodes inputIds position := by
      intro position low high
      have run := walked.run
      cases since : st.matchSinceTomb with
      | none =>
        rw [since] at run
        exact run position high
      | some count =>
        rw [since] at run covered
        have enough : window ≤ count := of_decide_eq_true covered
        exact run.2.2 position (by omega) high
    have reusable : Reusable ps window nodes inputIds st.node.length := by
      refine ⟨walked.onIds.length_le, walked.aligned, ?_, live⟩
      rw [take_of_onIds walked.onIds]
      exact walked.stored
    refine ⟨⟨walked.onIds, walked.aligned, walked.stored, walked.value, walked.size, walked.run,
      walked.onIds, reusable, le_rfl, ?_, ?_, fun run _ other _ below => ?_⟩, fun _ _ below => below⟩
    · rw [take_length]
      exact walked.value
    · rw [take_length]
      exact walked.size
    · exact (Nat.le_add_right _ _).trans below
  · rw [if_neg covered]
    refine ⟨walked, fun other reusable below => ?_⟩
    cases since : st.matchSinceTomb with
    | none =>
      rw [since] at covered
      exact absurd rfl covered
    | some count =>
      have run := walked.run
      rw [since] at run covered
      have short : ¬window ≤ count := fun enough => covered (decide_eq_true enough)
      have lt := run.1
      by_cases early : other + count ≤ st.node.length
      · exact walked.behind count since other reusable early
      · exact absurd run.2.1 (reusable.live _ (by omega) (by omega))

structure Part (ps : Nat) (nodes : List RadixTreeNode) (inputIds word : List Token)
    (child part : RadixTreeNode) : Prop where
  member : child ∈ nodes
  parent : child.parent = word
  path : part.path <+: child.path
  onIds : part.path <+: inputIds
  positive : 0 < part.length
  length : part.path.length = word.length + part.length
  aligned : ps ∣ part.path.length
  tombstone : part.data.swaTombstone = child.data.swaTombstone
  pages : pagesUpTo ps (storedPages ps nodes) part.path =
    pagesUpTo ps (storedPages ps nodes) word ++ part.data.value
  full : part.data.value.length = part.length

namespace Part

variable {word : List Token} {child part : RadixTreeNode} (wf : WF ps nodes)
  (here : Part ps nodes inputIds word child part)

include wf here

theorem dead_iff {position : Nat} (low : word.length ≤ position)
    (high : position < part.path.length) :
    Dead ps nodes inputIds position ↔ child.data.swaTombstone = true := by
  have pagePos := wf.page_positive here.member
  have below : (position / ps + 1) * ps ≤ part.path.length := by
    obtain ⟨pages, size⟩ := here.aligned
    have lt : position / ps < pages :=
      (Nat.div_lt_iff_lt_mul pagePos).mpr (by rwa [Nat.mul_comm, ← size])
    rw [size, Nat.mul_comm]
    exact Nat.mul_le_mul_left _ lt
  have above : word.length < (position / ps + 1) * ps := by
    have next := Nat.lt_mul_div_succ position pagePos
    rw [Nat.mul_comm]
    omega
  have onPart : inputIds.take ((position / ps + 1) * ps) <+: part.path := by
    refine prefix_of_le (List.take_prefix _ _) here.onIds ?_
    rw [length_take]
    omega
  have long : (inputIds.take ((position / ps + 1) * ps)).length = (position / ps + 1) * ps := by
    rw [length_take]
    have within := here.onIds.length_le
    omega
  have covers : Covers ps child (inputIds.take ((position / ps + 1) * ps)) := by
    refine ⟨?_, ?_, onPart.trans here.path⟩
    · rw [long]
      exact Nat.dvd_mul_left _ _
    · rwa [long, here.parent]
  constructor
  · rintro ⟨node, mem, nodeCovers, dead⟩
    rw [wf.covers_unique here.member mem covers nodeCovers]
    exact dead
  · exact fun dead => ⟨child, here.member, covers, dead⟩

theorem stored : (storedPages ps nodes part.path).isSome = true := by
  refine wf.pageAt_isSome_iff.mpr ⟨child, here.member, here.aligned, ?_, here.path⟩
  have positive := here.positive
  rw [here.length, here.parent]
  omega

end Part

theorem Walked.append (wf : WF ps nodes) (walked : Walked ps window nodes inputIds st)
    {child part : RadixTreeNode} (here : Part ps nodes inputIds st.node child part)
    (since : Option Nat) (run : RunOf ps nodes inputIds part.path.length since)
    (behind : ∀ run, since = some run → ∀ other, Reusable ps window nodes inputIds other →
      other + run ≤ part.path.length → other ≤ st.bestNode.length) :
    Walked ps window nodes inputIds { st with
      node := part.path
      value := st.value ++ [part.data.value]
      matchSinceTomb := since } := by
  have values : (st.value ++ [part.data.value]).flatten = st.value.flatten ++ part.data.value := by
    rw [flatten_append, flatten_singleton]
  have kept : (st.value ++ [part.data.value]).take st.bestValueLen =
      st.value.take st.bestValueLen := take_append_of_le_length walked.bestLen
  refine ⟨here.onIds, here.aligned, .inr (here.stored wf), ?_, ?_, run, walked.bestOn, walked.best,
    ?_, ?_, ?_, behind⟩
  · rw [values, walked.value]
    exact here.pages.symm
  · rw [values, length_append, walked.size, here.full, here.length]
  · rw [length_append]
    exact walked.bestLen.trans (Nat.le_add_right _ _)
  · exact (congrArg flatten kept).trans walked.bestValue
  · exact (congrArg (fun values => values.flatten.length) kept).trans walked.bestSize

/-- **One step**: a tombstone ends the run of live tokens, a live node lengthens it. -/
theorem Walked.enter (wf : WF ps nodes) (windowPos : 0 < window)
    (walked : Walked ps window nodes inputIds st) {child part : RadixTreeNode}
    (here : Part ps nodes inputIds st.node child part) :
    Walked ps window nodes inputIds ((st.meet window child).enter part) := by
  have positive := here.positive
  have length := here.length
  have tombstone := here.tombstone
  have inPart : ∀ position, st.node.length ≤ position → position < part.path.length →
      (Dead ps nodes inputIds position ↔ child.data.swaTombstone = true) :=
    fun _ low high => here.dead_iff wf low high
  unfold MatchState.meet
  by_cases dead : child.data.swaTombstone = true
  · rw [if_pos dead]
    obtain ⟨committed, up⟩ := walked.commit
    have sameNode : (st.commit window).node = st.node := by
      unfold MatchState.commit
      split <;> rfl
    have isPart : Part ps nodes inputIds (st.commit window).node child part := by
      rw [sameNode]
      exact here
    have entered := committed.append wf isPart (some 0) ?_ ?_
    · unfold MatchState.enter
      rw [tombstone, if_pos dead]
      exact entered
    · refine ⟨by omega, (inPart _ (by omega) (by omega)).mpr dead, fun position low high => ?_⟩
      exact absurd low (by omega)
    · intro run isRun other reusable below
      cases isRun
      by_cases lt : other ≤ st.node.length
      · exact up other reusable lt
      · exact absurd ((inPart (other - 1) (by omega) (by omega)).mpr dead)
          (reusable.live _ (by omega) (by omega))
  · rw [if_neg dead]
    have live : ∀ position, st.node.length ≤ position → position < part.path.length →
        ¬Dead ps nodes inputIds position :=
      fun position low high isDead => dead ((inPart position low high).mp isDead)
    have entered := walked.append wf here (st.matchSinceTomb.map (· + part.length)) ?_ ?_
    · unfold MatchState.enter
      rw [tombstone, if_neg dead]
      exact entered
    · have run := walked.run
      cases since : st.matchSinceTomb with
      | none =>
        rw [since] at run
        intro position high
        by_cases old : position < st.node.length
        · exact run position old
        · exact live position (not_lt.mp old) high
      | some count =>
        rw [since] at run
        obtain ⟨lt, last, pre⟩ := run
        have start : part.path.length - (count + part.length) = st.node.length - count := by omega
        refine ⟨show count + part.length < part.path.length by omega, by rwa [start],
          fun position low high => ?_⟩
        rw [start] at low
        by_cases old : position < st.node.length
        · exact pre position low old
        · exact live position (not_lt.mp old) high
    · intro run isRun other reusable below
      obtain ⟨count, since, rfl⟩ := Option.map_eq_some_iff.mp isRun
      have below : other + (count + part.length) ≤ part.path.length := below
      exact walked.behind count since other reusable (by omega)

theorem Walked.withTree (walked : Walked ps window nodes inputIds st)
    (tree : List RadixTreeNode) : Walked ps window nodes inputIds { st with tree := tree } :=
  ⟨walked.onIds, walked.aligned, walked.stored, walked.value, walked.size, walked.run,
    walked.bestOn, walked.best, walked.bestLen, walked.bestValue, walked.bestSize, walked.behind⟩

def Cut (ps : Nat) (nodes tree : List RadixTreeNode) : Prop :=
  tree = nodes ∨ ∃ child ∈ nodes, ∃ pos, 0 < pos ∧ pos < child.length ∧ ps ∣ pos ∧
    tree = splitNode nodes child pos

section Parts

variable {word : List Token} {child : RadixTreeNode} (wf : WF ps nodes) (full : FullNodes nodes)
  (onIds : word <+: inputIds)
  (found : child? ps nodes word (inputIds.drop word.length) = some child)

include onIds in
theorem step_onIds (size : Nat) : word ++ (inputIds.drop word.length).take size <+: inputIds := by
  have whole : word ++ inputIds.drop word.length = inputIds := by
    conv_rhs => rw [← take_append_drop word.length inputIds, take_of_onIds onIds]
  conv_rhs => rw [← whole]
  exact (prefix_append_right_inj _).mpr (List.take_prefix _ _)

include wf full onIds found

theorem part_whole (whole : alignDown (getMatchLen child.key (inputIds.drop word.length)) ps =
    child.length) : Part ps nodes inputIds word child child := by
  have mem := child?_mem found
  have parent := (child?_spec found).1
  refine ⟨mem, parent, prefix_refl _, ?_, wf.positive child mem, ?_,
    wf.path_dvd mem, rfl, ?_, full child mem⟩
  · rw [path_of_full found whole]
    exact step_onIds onIds _
  · rw [child.path_length, parent]
  · have pages : pagesUpTo ps (storedPages ps nodes) child.path =
        pagesUpTo ps (storedPages ps nodes) child.parent ++ child.data.value :=
      pagesUpTo_node wf mem (full child mem)
    rw [parent] at pages
    exact pages

theorem part_head {pos : Nat}
    (isPos : alignDown (getMatchLen child.key (inputIds.drop word.length)) ps = pos)
    (lt : pos < child.length) : Part ps nodes inputIds word child (splitHead child pos) := by
  have mem := child?_mem found
  have parent := (child?_spec found).1
  have positive : 0 < pos := isPos ▸ matchLen_pos wf found
  have aligned : ps ∣ pos := isPos ▸ dvd_alignDown _ _
  have length := FullTier.splitHead_length lt
  have path := splitHead_path_of_found found
  have size : (splitHead child pos).path.length = word.length + (splitHead child pos).length := by
    rw [Seg.path_length]
    exact congrArg (·.length + _) parent
  have fullCut := fullNodes_split wf full mem lt
  have wfCut := wf.splitAt mem positive lt aligned
    (NodeData.splitHead pos) (NodeData.splitTail pos)
  have headMem := (@FullTier.mem_splitNode _ _ wf _ mem pos _).mpr (.inl rfl)
  refine ⟨mem, parent, ?_, ?_, by rwa [length], size, wfCut.path_dvd headMem, rfl, ?_,
    fullCut _ headMem⟩
  · exact (prefix_append_right_inj _).mpr (List.take_prefix _ _)
  · rw [← isPos, path]
    exact step_onIds onIds _
  · have pages := @pagesUpTo_node _ _ _ _ _ NodeData.value _ wfCut _ headMem
      (fullCut _ headMem)
    have same : storedPages ps (splitNode nodes child _) = storedPages ps nodes :=
      pageAt_splitAt wf mem positive lt aligned (fun _ => rfl) fun _ => rfl
    have parentHead : (splitHead child pos).parent = word := parent
    rw [parentHead] at pages
    rw [← same]
    exact pages

end Parts

/-- **The matching loop** keeps the invariant, cuts one node at most, and ends at the longest stored
prefix. -/
theorem matchFrom_spec (positive : 0 < ps) (wf : WF ps nodes) (full : FullNodes nodes)
    (windowPos : 0 < window) :
    ∀ (fuel : Nat) (st : MatchState) (rest : List Token), st.tree = nodes →
      Walked ps window nodes inputIds st → Stored nodes st.node →
      rest = inputIds.drop st.node.length → rest.length ≤ fuel →
      Walked ps window nodes inputIds (matchFrom ps window fuel st rest) ∧
      Cut ps nodes (matchFrom ps window fuel st rest).tree ∧
      ∀ other, other <+: inputIds → (storedPages ps nodes other).isSome = true →
        other.length ≤ (matchFrom ps window fuel st rest).node.length := by
  have stops : ∀ st : MatchState, Walked ps window nodes inputIds st → Stored nodes st.node →
      (st.node = inputIds ∨ child? ps nodes st.node (inputIds.drop st.node.length) = none) →
      ∀ other, other <+: inputIds → (storedPages ps nodes other).isSome = true →
        other.length ≤ st.node.length :=
    fun st walked stored stop => (longestStored_of_stop positive wf stored walked.onIds stop).longest
  have done : ∀ st : MatchState, Walked ps window nodes inputIds st →
      inputIds.drop st.node.length = [] → st.node = inputIds := by
    intro st walked empty
    have long := drop_eq_nil_iff.mp empty
    exact walked.onIds.eq_of_length_le long
  intro fuel
  induction fuel with
  | zero =>
    intro st rest tree walked stored isRest enough
    have empty : rest = [] := length_eq_zero_iff.mp (Nat.le_zero.mp enough)
    exact ⟨walked, .inl tree, stops st walked stored (.inl (done st walked (isRest ▸ empty)))⟩
  | succ fuel ih =>
    intro st rest tree walked stored isRest enough
    rw [matchFrom]
    by_cases empty : rest = []
    · rw [if_pos empty]
      exact ⟨walked, .inl tree, stops st walked stored (.inl (done st walked (isRest ▸ empty)))⟩
    rw [if_neg empty, tree]
    rcases found : child? ps nodes st.node rest with _ | child
    · exact ⟨walked, .inl tree, stops st walked stored (.inr (isRest ▸ found))⟩
    have isPositive := matchLen_pos wf found
    have upper := matchLen_le child rest ps
    simp only
    rw [if_neg (by omega)]
    have meets : (if child.data.swaTombstone = true then
        { st.commit window with matchSinceTomb := some 0 } else st) = st.meet window child := rfl
    rw [meets]
    by_cases cut : alignDown (getMatchLen child.key rest) ps < child.length
    · rw [if_pos cut, meet_tree, tree]
      subst isRest
      have aligned := dvd_alignDown (getMatchLen child.key (inputIds.drop st.node.length)) ps
      have mem := child?_mem found
      have here := part_head wf full walked.onIds found rfl cut
      have entered := (walked.enter wf windowPos here).withTree
        (splitNode nodes child
          (alignDown (getMatchLen child.key (inputIds.drop st.node.length)) ps))
      refine ⟨entered, .inr ⟨child, mem, _, isPositive, cut, aligned, rfl⟩, ?_⟩
      have wfCut := wf.splitAt mem isPositive cut aligned
        (NodeData.splitHead (alignDown (getMatchLen child.key (inputIds.drop st.node.length)) ps))
        (NodeData.splitTail (alignDown (getMatchLen child.key (inputIds.drop st.node.length)) ps))
      have same : storedPages ps (splitNode nodes child
          (alignDown (getMatchLen child.key (inputIds.drop st.node.length)) ps)) =
          storedPages ps nodes :=
        pageAt_splitAt wf mem isPositive cut aligned (fun _ => rfl) fun _ => rfl
      have stop := child?_splitHead wf found cut
      have depth := here.length
      rw [FullTier.splitHead_length cut] at depth
      rw [drop_drop, ← depth] at stop
      intro other otherOn isStored
      rw [← same] at isStored
      exact (longestStored_of_stop positive wfCut (stored_splitHead wf mem _) here.onIds
        (.inr stop)).longest other otherOn isStored
    · rw [if_neg cut]
      have whole : alignDown (getMatchLen child.key rest) ps = child.length := by omega
      have mem := child?_mem found
      have path := path_of_full found whole
      rw [whole]
      subst isRest
      have here := part_whole wf full walked.onIds found whole
      have parent := (child?_spec found).1
      refine ih _ _ ((meet_tree child).trans tree) (walked.enter wf windowPos here)
        (Stored.of_mem mem) ?_ ?_
      · show (inputIds.drop st.node.length).drop child.length = inputIds.drop child.path.length
        rw [drop_drop, child.path_length, parent]
      · have some_ := wf.positive child mem
        rw [length_drop]
        omega

theorem walked_start : Walked ps window nodes inputIds ⟨nodes, [], [], none, 0, []⟩ := by
  have empty : pagesUpTo ps (storedPages ps nodes) [] = [] := by
    unfold pagesUpTo
    rw [length_nil, Nat.zero_div]
    rfl
  refine ⟨List.nil_prefix, dvd_zero _, .inl rfl, empty.symm, rfl,
    fun _ absurd => (Nat.not_lt_zero _ absurd).elim, nil_prefix, reusable_zero, le_rfl,
    empty.symm, rfl, fun _ absurd => ?_⟩
  cases absurd

end Loop

/-! ### The answer -/

section Answer

variable {cache : SWARadixCache} (positive : 0 < cache.pageSize)
  (windowPos : 0 < cache.slidingWindowSize) (wf : WF cache.pageSize cache.tier.nodes)
  (full : FullNodes cache.tier.nodes) (inputIds : List Token)

include positive windowPos wf full

/-- A match returns the longest reusable prefix and its slots. -/
theorem matchPrefix_longest :
    LongestReusable cache.pageSize cache.slidingWindowSize cache.tier.nodes inputIds
      (cache.matchPrefix inputIds).2.cachedLen ∧
    (cache.matchPrefix inputIds).2.kvIndices =
      pagesUpTo cache.pageSize (storedPages cache.pageSize cache.tier.nodes)
        (inputIds.take (cache.matchPrefix inputIds).2.cachedLen) ∧
    (cache.matchPrefix inputIds).2.node =
      inputIds.take (cache.matchPrefix inputIds).2.cachedLen := by
  obtain ⟨walked, -, stop⟩ := matchFrom_spec positive wf full windowPos inputIds.length
    ⟨cache.tier.nodes, [], [], none, 0, []⟩ inputIds rfl walked_start (Stored.root _) rfl le_rfl
  obtain ⟨committed, up⟩ := walked.commit
  unfold SWARadixCache.matchPrefix
  dsimp only
  generalize matchFrom cache.pageSize cache.slidingWindowSize inputIds.length
    ⟨cache.tier.nodes, [], [], none, 0, []⟩ inputIds = last at *
  rw [committed.bestSize, take_of_onIds committed.bestOn]
  refine ⟨⟨committed.best, fun other reusable => up other reusable ?_⟩, committed.bestValue, rfl⟩
  rcases reusable.stored with rfl | isStored
  · exact Nat.zero_le _
  · have below := stop _ (List.take_prefix _ _) isStored
    rwa [length_take, Nat.min_eq_left reusable.within] at below

theorem matchPrefix_cut : ∃ tree, Cut cache.pageSize cache.tier.nodes tree ∧
    (cache.matchPrefix inputIds).1 = (cache.withNodes tree).stampPath
      (cache.matchPrefix inputIds).2.node := by
  obtain ⟨-, cut, -⟩ := matchFrom_spec positive wf full windowPos inputIds.length
    ⟨cache.tier.nodes, [], [], none, 0, []⟩ inputIds rfl walked_start (Stored.root _) rfl le_rfl
  refine ⟨_, cut, ?_⟩
  unfold SWARadixCache.matchPrefix
  dsimp only
  have same : ((matchFrom cache.pageSize cache.slidingWindowSize inputIds.length
      ⟨cache.tier.nodes, [], [], none, 0, []⟩ inputIds).commit cache.slidingWindowSize).tree =
      (matchFrom cache.pageSize cache.slidingWindowSize inputIds.length
        ⟨cache.tier.nodes, [], [], none, 0, []⟩ inputIds).tree := by
    unfold MatchState.commit
    split <;> rfl
  rw [same]

end Answer

/-! ### Later answers -/

def tombs (data : NodeData) : List Bool := data.value.map fun _ => data.swaTombstone

/-- The slots of a node, each with the mark of the node. -/
def cells (data : NodeData) : List (Nat × Bool) :=
  data.value.map fun slot => (slot, data.swaTombstone)

section Cells

variable {ps : Nat} {nodes : List RadixTreeNode} {word : List Token}

theorem pages_of_cells : storedPages ps nodes word =
    (pageAt ps cells nodes word).map (List.map Prod.fst) := by
  have slots : NodeData.value = fun data => (cells data).map Prod.fst := by
    funext data
    unfold cells
    rw [map_map]
    exact (map_id _).symm
  unfold storedPages
  rw [slots]
  exact pageAt_map Prod.fst

theorem tombs_of_cells : pageAt ps tombs nodes word =
    (pageAt ps cells nodes word).map (List.map Prod.snd) := by
  have marks : tombs = fun data => (cells data).map Prod.snd := by
    funext data
    unfold cells tombs
    rw [map_map]
    rfl
  rw [marks]
  exact pageAt_map Prod.snd

theorem cells_split (wf : WF ps nodes) {child : RadixTreeNode} (mem : child ∈ nodes) {pos : Nat}
    (positive : 0 < pos) (lt : pos < child.length) (aligned : ps ∣ pos) :
    pageAt ps cells (splitNode nodes child pos) = pageAt ps cells nodes :=
  pageAt_splitAt wf mem positive lt aligned (fun _ => map_take) fun _ => map_drop

end Cells

theorem pageIn_tombs {ps : Nat} {nodes : List RadixTreeNode} (wf : WF ps nodes)
    (full : FullNodes nodes) {node : RadixTreeNode} (mem : node ∈ nodes) {word : List Token}
    (covers : Covers ps node word) :
    pageIn ps tombs node word = replicate ps node.data.swaTombstone := by
  have lt := page_between (wf.parent_dvd mem) covers.1 covers.2.1
  have within := covers.2.2.length_le
  rw [node.path_length] at within
  unfold pageIn tombs
  rw [map_const', drop_replicate, take_replicate, full node mem]
  congr 1
  omega

theorem dead_iff_page {ps : Nat} {nodes : List RadixTreeNode} {word : List Token}
    (wf : WF ps nodes) (full : FullNodes nodes) :
    DeadPage ps nodes word ↔ ∃ page, pageAt ps tombs nodes word = some page ∧ true ∈ page := by
  constructor
  · rintro ⟨node, mem, covers, dead⟩
    refine ⟨_, wf.pageAt_eq mem covers, ?_⟩
    rw [pageIn_tombs wf full mem covers, dead]
    exact mem_replicate.mpr ⟨(wf.page_positive mem).ne', rfl⟩
  · rintro ⟨page, here, dead⟩
    obtain ⟨node, mem, covers, rfl⟩ := pageAt_some here
    rw [pageIn_tombs wf full mem covers] at dead
    exact ⟨node, mem, covers, (eq_of_mem_replicate dead).symm⟩

theorem pageAt_kept {ps : Nat} {β : Type} {slots : NodeData → List β}
    {nodes other : List RadixTreeNode} (kept : Kept nodes other)
    (same : ∀ node, slots (strip node).data = slots node.data) :
    pageAt ps slots other = pageAt ps slots nodes := by
  have stripped : ∀ nodes : List RadixTreeNode,
      pageAt ps slots (nodes.map strip) = pageAt ps slots nodes := by
    intro nodes
    funext word
    unfold pageAt
    rw [find?_map, Option.map_map]
    refine congrArg (Option.map · _) (funext fun node => ?_)
    unfold pageIn
    rw [Function.comp_apply, same]
    rfl
  rw [← stripped other, kept.same, stripped]

/-- **Two trees that answer alike**: they store the same words, slots and tombstones, whatever the
bounds of their nodes. -/
structure SameAnswers (cache other : SWARadixCache) : Prop where
  pageSize : other.pageSize = cache.pageSize
  window : other.slidingWindowSize = cache.slidingWindowSize
  wf : WF cache.pageSize other.tier.nodes
  full : FullNodes other.tier.nodes
  cells : pageAt cache.pageSize cells other.tier.nodes =
    pageAt cache.pageSize cells cache.tier.nodes

namespace SameAnswers

variable {cache other : SWARadixCache} (positive : 0 < cache.pageSize)
  (windowPos : 0 < cache.slidingWindowSize) (wf : WF cache.pageSize cache.tier.nodes)
  (full : FullNodes cache.tier.nodes) (same : SameAnswers cache other)

theorem refl {cache : SWARadixCache} (wf : WF cache.pageSize cache.tier.nodes)
    (full : FullNodes cache.tier.nodes) : SameAnswers cache cache := ⟨rfl, rfl, wf, full, rfl⟩

include same in
theorem pages : storedPages cache.pageSize other.tier.nodes =
    storedPages cache.pageSize cache.tier.nodes := by
  funext word
  rw [pages_of_cells, pages_of_cells, same.cells]

include same in
theorem dead : pageAt cache.pageSize tombs other.tier.nodes =
    pageAt cache.pageSize tombs cache.tier.nodes := by
  funext word
  rw [tombs_of_cells, tombs_of_cells, same.cells]

include same in
theorem withNodes {tree : List RadixTreeNode} (cut : Cut cache.pageSize other.tier.nodes tree) :
    SameAnswers cache (other.withNodes tree) := by
  rcases cut with rfl | ⟨child, mem, pos, isPositive, lt, aligned, rfl⟩
  · exact ⟨same.pageSize, same.window, same.wf, same.full, same.cells⟩
  · refine ⟨same.pageSize, same.window, same.wf.splitAt mem isPositive lt aligned _ _,
      fullNodes_split same.wf same.full mem lt, ?_⟩
    rw [← same.cells]
    exact cells_split same.wf mem isPositive lt aligned

include same in
theorem stampPath (node : List Token) : SameAnswers cache (other.stampPath node) := by
  have stamps : ∀ (path : List RadixTreeNode) (off : Nat) (tree : List RadixTreeNode),
      SameAnswers cache (other.tick.withNodes tree) →
        SameAnswers cache (other.tick.withNodes (stampFrom other.tick.time path off tree)) := by
    intro path
    induction path with
    | nil => exact fun _ _ pre => pre
    | cons cur path ih =>
      intro off tree pre
      refine ih (off + 1) _ ⟨pre.pageSize, pre.window, pre.wf.modify _ _,
        fullNodes_modify pre.full _ fun _ => rfl, ?_⟩
      rw [← pre.cells]
      exact pageAt_modify pre.wf _ fun _ => rfl
  exact stamps _ 0 _ ⟨same.pageSize, same.window, same.wf, same.full, same.cells⟩

include same in
theorem kept {next : SWARadixCache} {locks : List SWALock} (inv : Inv locks next)
    (kept : Kept other.tier.nodes next.tier.nodes) (sizes : next.pageSize = other.pageSize ∧
      next.slidingWindowSize = other.slidingWindowSize) : SameAnswers cache next where
  pageSize := sizes.1.trans same.pageSize
  window := sizes.2.trans same.window
  wf := (sizes.1.trans same.pageSize) ▸ inv.wf
  full := fullNodes_kept same.full kept
  cells := (pageAt_kept kept fun _ => rfl).trans same.cells

include positive windowPos same in
theorem matchPrefix (inputIds : List Token) : SameAnswers cache (other.matchPrefix inputIds).1 := by
  have page := same.pageSize
  obtain ⟨tree, cut, after⟩ := @matchPrefix_cut other (page.symm ▸ positive)
    (same.window.symm ▸ windowPos) (page.symm ▸ same.wf) same.full inputIds
  rw [after]
  exact (same.withNodes (page ▸ cut)).stampPath _

include wf full same in
theorem reusable_iff {inputIds : List Token} {size : Nat} :
    Reusable cache.pageSize cache.slidingWindowSize other.tier.nodes inputIds size ↔
      Reusable cache.pageSize cache.slidingWindowSize cache.tier.nodes inputIds size := by
  have dead : ∀ position, Dead cache.pageSize other.tier.nodes inputIds position ↔
      Dead cache.pageSize cache.tier.nodes inputIds position := by
    intro position
    unfold Dead
    rw [dead_iff_page same.wf same.full, dead_iff_page wf full, same.dead]
  constructor
  · rintro ⟨within, aligned, stored, live⟩
    refine ⟨within, aligned, by rwa [same.pages] at stored, fun position low high isDead => ?_⟩
    exact live position low high ((dead position).mpr isDead)
  · rintro ⟨within, aligned, stored, live⟩
    refine ⟨within, aligned, by rwa [same.pages], fun position low high isDead => ?_⟩
    exact live position low high ((dead position).mp isDead)

include positive windowPos wf full same in
theorem answer (inputIds : List Token) :
    (other.matchPrefix inputIds).2 = (cache.matchPrefix inputIds).2 := by
  have page := same.pageSize
  obtain ⟨otherLongest, otherKv, otherNode⟩ := @matchPrefix_longest other
    (page.symm ▸ positive) (same.window.symm ▸ windowPos) (page.symm ▸ same.wf) same.full
    inputIds
  obtain ⟨longest, kv, node⟩ := matchPrefix_longest positive windowPos wf full inputIds
  rw [page, same.window] at otherLongest
  rw [page, same.pages] at otherKv
  have moved : LongestReusable cache.pageSize cache.slidingWindowSize cache.tier.nodes inputIds
      (other.matchPrefix inputIds).2.cachedLen :=
    ⟨(same.reusable_iff wf full).mp otherLongest.reusable, fun size reusable =>
      otherLongest.longest size ((same.reusable_iff wf full).mpr reusable)⟩
  have size := moved.unique longest
  rw [size] at otherKv otherNode
  have equal : ∀ first second : SWAMatch, first.kvIndices = second.kvIndices →
      first.cachedLen = second.cachedLen → first.node = second.node → first = second := by
    rintro ⟨_, _, _⟩ ⟨_, _, _⟩ rfl rfl rfl
    rfl
  exact equal _ _ (otherKv.trans kv.symm) size (otherNode.trans node.symm)

end SameAnswers

end SWARadixCache

end FreeToken
