/-
**What a page tree stores: a map from page-aligned words to pages.**

Every node carries one slot for each of its letters. A page-aligned word lies in one node, and its
page is the part of that node's slots that belongs to its last letters.
-/

import FreeToken.Lib.PageTree

set_option linter.unusedSectionVars false

namespace PageTree

open List

variable {α π β : Type}

/-- The words that lie in a node. -/
def Covers (ps : Nat) (node : Seg α π) (word : List α) : Prop :=
  ps ∣ word.length ∧ node.parent.length < word.length ∧ word <+: node.path

instance [DecidableEq α] (ps : Nat) (node : Seg α π) (word : List α) :
    Decidable (Covers ps node word) :=
  inferInstanceAs (Decidable (_ ∧ _ ∧ _))

def pageIn (ps : Nat) (slots : π → List β) (node : Seg α π) (word : List α) : List β :=
  ((slots node.data).drop (word.length - ps - node.parent.length)).take ps

/-- The page of a word. -/
def pageAt [DecidableEq α] (ps : Nat) (slots : π → List β) (tree : List (Seg α π))
    (word : List α) : Option (List β) :=
  (tree.find? fun node => Covers ps node word).map fun node => pageIn ps slots node word

def pagesUpTo (ps : Nat) (pages : List α → Option (List β)) (word : List α) : List β :=
  (List.range (word.length / ps)).flatMap fun page => (pages (word.take ((page + 1) * ps))).getD []

section Map

variable [DecidableEq α] {ps : Nat} {slots : π → List β} {tree : List (Seg α π)} {word : List α}

theorem covers_self (wf : WF ps tree) {node : Seg α π} (mem : node ∈ tree) :
    Covers ps node node.path := by
  have positive := wf.positive node mem
  refine ⟨wf.path_dvd mem, ?_, prefix_refl _⟩
  rw [Seg.path_length]
  omega

theorem Covers.page (wf : WF ps tree) {node : Seg α π} (mem : node ∈ tree)
    (covers : Covers ps node word) : node.pageWord ps <+: word := by
  refine prefix_of_le (node.pageWord_isPrefix ps) covers.2.2 ?_
  rw [wf.pageWord_length mem]
  exact page_between (wf.parent_dvd mem) covers.1 covers.2.1

theorem WF.covers_unique (wf : WF ps tree) {first second : Seg α π} (left : first ∈ tree)
    (right : second ∈ tree) (firstCovers : Covers ps first word)
    (secondCovers : Covers ps second word) : first = second := by
  have forth := wf.path_prefix_of_page left right ((firstCovers.page wf left).trans secondCovers.2.2)
  have back := wf.path_prefix_of_page right left ((secondCovers.page wf right).trans firstCovers.2.2)
  exact wf.eq_of_path left right (forth.eq_of_length_le back.length_le)

theorem WF.pageAt_eq (wf : WF ps tree) {node : Seg α π} (mem : node ∈ tree)
    (covers : Covers ps node word) : pageAt ps slots tree word = some (pageIn ps slots node word) := by
  unfold pageAt
  cases found : tree.find? fun node => Covers ps node word with
  | none => exact absurd covers (by simpa using find?_eq_none.mp found node mem)
  | some other =>
    have otherCovers : Covers ps other word := by simpa using find?_some found
    rw [wf.covers_unique (mem_of_find?_eq_some found) mem otherCovers covers]
    rfl

theorem pageAt_some {page : List β} (here : pageAt ps slots tree word = some page) :
    ∃ node ∈ tree, Covers ps node word ∧ page = pageIn ps slots node word := by
  obtain ⟨node, found, same⟩ := Option.map_eq_some_iff.mp here
  exact ⟨node, mem_of_find?_eq_some found, by simpa using find?_some found, same.symm⟩

theorem pageAt_none (uncovered : ∀ node ∈ tree, ¬Covers ps node word) :
    pageAt ps slots tree word = none := by
  unfold pageAt
  rw [find?_eq_none.mpr fun node mem => by simpa using uncovered node mem]
  rfl

theorem WF.pageAt_isSome_iff (wf : WF ps tree) :
    (pageAt ps slots tree word).isSome = true ↔ ∃ node ∈ tree, Covers ps node word := by
  constructor
  · intro here
    obtain ⟨page, here⟩ := Option.isSome_iff_exists.mp here
    obtain ⟨node, mem, covers, _⟩ := pageAt_some here
    exact ⟨node, mem, covers⟩
  · rintro ⟨node, mem, covers⟩
    rw [wf.pageAt_eq mem covers]
    rfl

theorem pageAt_map {γ : Type} (f : β → γ) : pageAt ps (fun data => (slots data).map f) tree word =
      (pageAt ps slots tree word).map (List.map f) := by
  unfold pageAt
  rw [Option.map_map]
  refine congrArg (Option.map · _) (funext fun node => ?_)
  unfold pageIn
  rw [Function.comp_apply, map_take, map_drop]

theorem pageAt_congr {other : List (Seg α π)} (wf : WF ps tree) (otherWf : WF ps other)
    (forth : ∀ node ∈ tree, Covers ps node word → ∃ copy ∈ other, Covers ps copy word ∧
      pageIn ps slots copy word = pageIn ps slots node word)
    (back : ∀ copy ∈ other, Covers ps copy word → ∃ node ∈ tree, Covers ps node word) :
    pageAt ps slots other word = pageAt ps slots tree word := by
  by_cases covered : ∃ node ∈ tree, Covers ps node word
  · obtain ⟨node, mem, covers⟩ := covered
    obtain ⟨copy, copyMem, copyCovers, same⟩ := forth node mem covers
    rw [otherWf.pageAt_eq copyMem copyCovers, wf.pageAt_eq mem covers, same]
  · rw [pageAt_none fun node mem covers => covered ⟨node, mem, covers⟩]
    exact pageAt_none fun copy mem covers => covered (back copy mem covers)

/-! ### Changes -/

theorem pageAt_modify (wf : WF ps tree) (at_ : List α) {change : Seg α π → π}
    (same : ∀ node, slots (change node) = slots node.data) :
    pageAt ps slots (modify tree at_ change) = pageAt ps slots tree := by
  funext word
  refine pageAt_congr wf (wf.modify at_ change) ?_ ?_
  · intro node mem covers
    refine ⟨_, mem_modify.mpr ⟨node, mem, rfl⟩, ?_⟩
    split
    · refine ⟨covers, ?_⟩
      unfold pageIn
      rw [same]
    · exact ⟨covers, rfl⟩
  · intro copy mem covers
    obtain ⟨old, oldMem, rfl⟩ := mem_modify.mp mem
    refine ⟨old, oldMem, ?_⟩
    split at covers
    · exact covers
    · exact covers

/-- New data of a node show in the words that lie in it. -/
theorem pageAt_modify_self (wf : WF ps tree) {node : Seg α π} (mem : node ∈ tree)
    (change : Seg α π → π) :
    pageAt ps slots (modify tree node.path change) word =
      if Covers ps node word then some (pageIn ps slots { node with data := change node } word)
      else pageAt ps slots tree word := by
  have wfNew := wf.modify node.path change
  split
  · rename_i covers
    refine wfNew.pageAt_eq (mem_modify.mpr ⟨node, mem, ?_⟩) covers
    rw [if_pos rfl]
  · rename_i apart
    refine pageAt_congr wf wfNew ?_ ?_
    · intro old oldMem covers
      refine ⟨old, mem_modify.mpr ⟨old, oldMem, ?_⟩, covers, rfl⟩
      rw [if_neg fun here => apart (wf.eq_of_path oldMem mem here ▸ covers)]
    · intro copy copyMem covers
      obtain ⟨old, oldMem, rfl⟩ := mem_modify.mp copyMem
      refine ⟨old, oldMem, ?_⟩
      split at covers
      · exact covers
      · exact covers

theorem pageAt_splitAt (wf : WF ps tree) {node : Seg α π} (mem : node ∈ tree) {pos : Nat}
    (positive : 0 < pos) (lt : pos < node.length) (aligned : ps ∣ pos) {head tail : π → π}
    (headSlots : ∀ data, slots (head data) = (slots data).take pos)
    (tailSlots : ∀ data, slots (tail data) = (slots data).drop pos) :
    pageAt ps slots (splitAt tree node.path pos head tail) = pageAt ps slots tree := by
  funext word
  have headLength : (node.key.take pos).length = pos := by
    unfold Seg.length at lt
    rw [length_take]
    omega
  refine pageAt_congr wf (wf.splitAt mem positive lt aligned head tail) ?_ ?_
  · intro old oldMem covers
    by_cases cut : old.path = node.path
    · have same := wf.eq_of_path oldMem mem cut
      subst same
      by_cases low : word.length ≤ old.parent.length + pos
      · -- the word ends in the head
        refine ⟨⟨old.parent, old.key.take pos, head old.data⟩, mem_splitAt.mpr
          ⟨old, mem, by rw [if_pos rfl]; exact .inl rfl⟩, ⟨covers.1, covers.2.1, ?_⟩, ?_⟩
        · refine prefix_of_le covers.2.2 ?_ ?_
          · exact (prefix_append_right_inj _).mpr (List.take_prefix _ _)
          · unfold Seg.path
            rw [length_append, headLength]
            exact low
        · unfold pageIn
          dsimp only
          have fits := page_between (wf.parent_dvd mem) covers.1 covers.2.1
          rw [headSlots, drop_take, take_take]
          congr 1
          omega
      · -- the word ends in the tail
        have high : old.parent.length + pos < word.length := by omega
        refine ⟨⟨old.parent ++ old.key.take pos, old.key.drop pos, tail old.data⟩, mem_splitAt.mpr
          ⟨old, mem, by rw [if_pos rfl]; exact .inr rfl⟩, ⟨covers.1, ?_, ?_⟩, ?_⟩
        · rw [length_append, headLength]
          exact high
        · have whole : (⟨old.parent ++ old.key.take pos, old.key.drop pos, tail old.data⟩ :
              Seg α π).path = old.path := by
            unfold Seg.path
            rw [append_assoc, take_append_drop]
          rw [whole]
          exact covers.2.2
        · unfold pageIn
          have fits := page_between (Nat.dvd_add (wf.parent_dvd mem) aligned) covers.1 high
          rw [tailSlots, drop_drop, length_append, headLength]
          congr 2
          omega
    · exact ⟨old, mem_splitAt.mpr ⟨old, oldMem, by rw [if_neg cut]⟩, covers, rfl⟩
  · intro copy copyMem covers
    obtain ⟨old, oldMem, shape⟩ := mem_splitAt.mp copyMem
    refine ⟨old, oldMem, covers.1, ?_⟩
    split at shape
    · rcases shape with rfl | rfl
      · refine ⟨covers.2.1, IsPrefix.trans covers.2.2 ?_⟩
        exact (prefix_append_right_inj _).mpr (List.take_prefix _ _)
      · have longer := covers.2.1
        rw [length_append] at longer
        refine ⟨by omega, ?_⟩
        have onPath := covers.2.2
        unfold Seg.path at onPath ⊢
        rw [append_assoc, take_append_drop] at onPath
        exact onPath
    · subst shape
      exact covers.2

theorem pageAt_insertLeaf (key : List α) (data : π) (up : List α)
    (wf : WF ps (insertLeaf tree up key data)) :
    pageAt ps slots (insertLeaf tree up key data) word =
      if Covers ps ⟨up, key, data⟩ word then some (pageIn ps slots (⟨up, key, data⟩ : Seg α π) word)
      else pageAt ps slots tree word := by
  split
  · rename_i covers
    exact wf.pageAt_eq (mem_append_right _ (mem_singleton_self _)) covers
  · rename_i apart
    unfold pageAt PageTree.insertLeaf
    rw [find?_append, find?_singleton]
    rw [if_neg (by simpa using apart), Option.or_none]

theorem pageAt_insertLeaf_or (key : List α) (data : π) (up : List α) :
    pageAt ps slots (insertLeaf tree up key data) word = (pageAt ps slots tree word).or
      (if Covers ps ⟨up, key, data⟩ word then some (pageIn ps slots (⟨up, key, data⟩ : Seg α π) word)
      else none) := by
  unfold pageAt PageTree.insertLeaf
  rw [find?_append, find?_singleton, Option.map_or]
  split
  · rename_i covers
    rw [if_pos (of_decide_eq_true covers)]
    rfl
  · rename_i apart
    rw [if_neg fun covers => apart (decide_eq_true covers)]
    rfl

theorem pageAt_remove (wf : WF ps tree) {node : Seg α π} (mem : node ∈ tree)
    (wfRest : WF ps (remove tree node.path)) :
    pageAt ps slots (remove tree node.path) word =
      if Covers ps node word then none else pageAt ps slots tree word := by
  split
  · rename_i covers
    refine pageAt_none fun other otherMem otherCovers => ?_
    obtain ⟨inTree, differs⟩ := mem_remove.mp otherMem
    exact differs (by rw [wf.covers_unique inTree mem otherCovers covers])
  · rename_i apart
    refine pageAt_congr wf wfRest ?_ ?_
    · intro other otherMem covers
      refine ⟨other, mem_remove.mpr ⟨otherMem, fun same => apart ?_⟩, covers, rfl⟩
      rw [← wf.eq_of_path otherMem mem same]
      exact covers
    · intro other otherMem covers
      exact ⟨other, (mem_remove.mp otherMem).1, covers⟩

/-! ### Prefixes -/

theorem WF.covered_of_prefix (wf : WF ps tree) :
    ∀ (bound : Nat) {node : Seg α π}, node ∈ tree → node.path.length ≤ bound →
      word <+: node.path → word ≠ [] → ps ∣ word.length → ∃ up ∈ tree, Covers ps up word := by
  intro bound
  induction bound with
  | zero =>
    intro node mem small
    exact absurd (length_eq_zero_iff.mp (Nat.le_zero.mp small)) (wf.path_ne_nil mem)
  | succ bound ih =>
    intro node mem small onPath nonempty aligned
    by_cases lt : node.parent.length < word.length
    · exact ⟨node, mem, aligned, lt, onPath⟩
    · have onParent : word <+: node.parent :=
        prefix_of_le onPath node.parent_isPrefix (by omega)
      rcases wf.closed node mem with root | ⟨up, upMem, upPath⟩
      · rw [root] at onParent
        exact absurd (prefix_nil.mp onParent) nonempty
      · have shorter := wf.positive node mem
        rw [Seg.path_length] at small
        exact ih upMem (by rw [upPath]; omega) (by rw [upPath]; exact onParent) nonempty aligned

/-- No stored word is longer than one at which a walk had to stop. -/
theorem WF.covered_le (wf : WF ps tree) (positive : 0 < ps) {ids other : List α}
    (stored : word = [] ∨ ∃ up ∈ tree, up.path = word) (onIds : word <+: ids)
    (stop : word = ids ∨ child? ps tree word (ids.drop word.length) = none)
    {node : Seg α π} (mem : node ∈ tree) (covers : Covers ps node other)
    (otherOn : other <+: ids) : other.length ≤ word.length := by
  rcases stop with rfl | missing
  · exact otherOn.length_le
  by_contra longer
  have aligned : ps ∣ word.length := by
    rcases stored with rfl | ⟨up, upMem, rfl⟩
    · exact dvd_zero ps
    · exact wf.path_dvd upMem
  have fits := page_between aligned covers.1 (by omega)
  have size : ((ids.drop word.length).take ps).length = ps := by
    have bound := otherOn.length_le
    rw [length_take, length_drop]
    omega
  refine wf.not_prefix_of_page stored size positive
    (fun child childMem hangs => child?_none missing childMem hangs) mem ?_
  have whole : word ++ (ids.drop word.length).take ps <+: ids := by
    conv_rhs => rw [← take_append_drop word.length ids, prefix_eq_take onIds]
    exact (prefix_append_right_inj _).mpr (List.take_prefix _ _)
  refine (prefix_of_le whole otherOn ?_).trans covers.2.2
  rw [length_append, size]
  exact fits

/-! ### The slots of a word -/

theorem flatMap_pages (values : List β) {count : Nat} (size : values.length = count * ps) :
    (List.range count).flatMap (fun page => (values.drop (page * ps)).take ps) = values := by
  induction count generalizing values with
  | zero =>
    rw [Nat.zero_mul] at size
    rw [length_eq_zero_iff.mp size]
    rfl
  | succ count ih =>
    rw [Nat.succ_mul] at size
    have rest := ih (values.drop ps) (by rw [length_drop]; omega)
    rw [range_succ_eq_map, flatMap_cons, flatMap_map, Nat.zero_mul, drop_zero]
    have shift : (fun page => ((values.drop (page.succ * ps)).take ps)) =
        fun page => (((values.drop ps).drop (page * ps)).take ps) := by
      funext page
      rw [drop_drop, Nat.succ_mul, add_comm]
    rw [shift, rest, take_append_drop]

theorem pagesUpTo_node (wf : WF ps tree) {node : Seg α π} (mem : node ∈ tree)
    (full : (slots node.data).length = node.length) :
    pagesUpTo ps (pageAt ps slots tree) node.path =
      pagesUpTo ps (pageAt ps slots tree) node.parent ++ slots node.data := by
  have positive := wf.page_positive mem
  obtain ⟨above, parentSize⟩ := wf.parent_dvd mem
  obtain ⟨own, ownSize⟩ := wf.aligned node mem
  have parentPages : node.parent.length / ps = above := by
    rw [parentSize, Nat.mul_div_cancel_left _ positive]
  have pathPages : node.path.length / ps = above + own := by
    rw [Seg.path_length, parentSize, ownSize, ← Nat.mul_add, Nat.mul_div_cancel_left _ positive]
  unfold pagesUpTo
  rw [pathPages, parentPages, range_add, flatMap_append, flatMap_map]
  congr 1
  · refine flatMap_congr fun page lt => ?_
    have bound := mem_range.mp lt
    have short : (page + 1) * ps ≤ node.parent.length := by
      rw [parentSize, Nat.mul_comm]
      exact Nat.mul_le_mul_left _ bound
    unfold Seg.path
    rw [take_append_of_le_length short]
  · refine Eq.trans ?_ (@flatMap_pages _ _ (slots node.data) own
      (by rw [full, ownSize, Nat.mul_comm]))
    refine flatMap_congr fun page lt => ?_
    have bound := mem_range.mp lt
    have step : (page + 1) * ps ≤ own * ps := Nat.mul_le_mul_right _ bound
    have total : (above + page + 1) * ps = node.parent.length + (page + 1) * ps := by
      rw [parentSize, Nat.mul_comm ps above, ← Nat.add_mul, Nat.add_assoc]
    have size : (node.path.take ((above + page + 1) * ps)).length =
        node.parent.length + (page + 1) * ps := by
      rw [length_take, total, Seg.path_length]
      refine min_eq_left ?_
      rw [ownSize, Nat.mul_comm ps own]
      omega
    have covers : Covers ps node (node.path.take ((above + page + 1) * ps)) := by
      refine ⟨?_, ?_, take_prefix _ _⟩
      · rw [size, ← total]
        exact Nat.dvd_mul_left _ _
      · rw [size, Nat.succ_mul]
        omega
    rw [wf.pageAt_eq mem covers, Option.getD_some]
    unfold pageIn
    rw [size, Nat.succ_mul]
    congr 2
    omega

theorem lineage_slots (wf : WF ps tree)
    (full : ∀ node ∈ tree, (slots node.data).length = node.length) :
    ∀ (fuel : Nat) {word : List α}, (word = [] ∨ ∃ node ∈ tree, node.path = word) →
      word.length ≤ fuel →
      ((lineage tree fuel word).reverse.map fun node => slots node.data).flatten =
        pagesUpTo ps (pageAt ps slots tree) word := by
  intro fuel
  induction fuel with
  | zero =>
    intro word _ enough
    rw [length_eq_zero_iff.mp (Nat.le_zero.mp enough)]
    unfold pagesUpTo
    rw [length_nil, Nat.zero_div]
    rfl
  | succ fuel ih =>
    intro word stored enough
    rw [lineage]
    rcases stored with rfl | ⟨node, mem, rfl⟩
    · have none : node? tree ([] : List α) = none := by
        refine find?_eq_none.mpr fun node mem => ?_
        simpa using wf.path_ne_nil mem
      rw [none]
      unfold pagesUpTo
      rw [length_nil, Nat.zero_div]
      rfl
    · have shorter : node.parent.length ≤ fuel := by
        have positive := wf.positive node mem
        rw [Seg.path_length] at enough
        omega
      rw [wf.node?_eq mem]
      rw [reverse_cons, map_append, flatten_append,
        ih (wf.closed node mem) shorter, pagesUpTo_node wf mem (full node mem),
        map_singleton, flatten_singleton]

theorem lineage_keys (wf : WF ps tree) :
    ∀ (fuel : Nat) {word : List α}, (word = [] ∨ ∃ node ∈ tree, node.path = word) →
      word.length ≤ fuel →
      ((lineage tree fuel word).reverse.map fun node => node.key).flatten = word := by
  intro fuel
  induction fuel with
  | zero =>
    intro word _ enough
    rw [length_eq_zero_iff.mp (Nat.le_zero.mp enough)]
    rfl
  | succ fuel ih =>
    intro word stored enough
    rw [lineage]
    rcases stored with rfl | ⟨node, mem, rfl⟩
    · have none : node? tree ([] : List α) = none := by
        refine find?_eq_none.mpr fun node mem => ?_
        simpa using wf.path_ne_nil mem
      rw [none]
      rfl
    · have shorter : node.parent.length ≤ fuel := by
        have positive := wf.positive node mem
        rw [Seg.path_length] at enough
        omega
      rw [wf.node?_eq mem]
      rw [reverse_cons, map_append, flatten_append,
        ih (wf.closed node mem) shorter, map_singleton, flatten_singleton]
      rfl

theorem pagesUpTo_congr {pages other : List α → Option (List β)} (same : ∀ page < word.length / ps,
      other (word.take ((page + 1) * ps)) = pages (word.take ((page + 1) * ps))) :
    pagesUpTo ps other word = pagesUpTo ps pages word := by
  refine flatMap_congr fun page lt => ?_
  rw [same page (mem_range.mp lt)]

theorem WF.stored_take (wf : WF ps tree) {word : List α}
    (stored : word = [] ∨ ∃ node ∈ tree, node.path = word) {page : Nat}
    (bound : page < word.length / ps) :
    (pageAt ps slots tree (word.take ((page + 1) * ps))).isSome = true := by
  rcases stored with rfl | ⟨node, mem, rfl⟩
  · rw [length_nil, Nat.zero_div] at bound
    exact absurd bound (Nat.not_lt_zero _)
  · have positive := wf.page_positive mem
    have fits : (page + 1) * ps ≤ node.path.length := (Nat.le_div_iff_mul_le positive).mp bound
    have size : (node.path.take ((page + 1) * ps)).length = (page + 1) * ps := by
      rw [length_take, min_eq_left fits]
    refine wf.pageAt_isSome_iff.mpr (wf.covered_of_prefix _ mem le_rfl (List.take_prefix _ _)
      ?_ ?_)
    · intro empty
      rw [empty, length_nil, Nat.succ_mul] at size
      omega
    · rw [size]
      exact Nat.dvd_mul_left _ _

end Map

end PageTree
