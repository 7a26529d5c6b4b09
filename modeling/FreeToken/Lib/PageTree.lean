/-
**Path-compressed prefix trees with page-wide branching.**

A tree is the list of its nodes below the root. A node is named by the word that leads to it: it
keeps the word of its parent, its own key (the part of the word below the parent) and some data.
Keys are whole pages of `ps` letters, and siblings differ in their first page, so a child is looked
up by the first page of the word that is left to read.
-/

import Mathlib.Data.List.Infix
import Mathlib.Data.List.Pairwise
import Mathlib.Algebra.Order.BigOperators.Group.List
import Mathlib.Tactic.Ring
import Mathlib.Tactic.Linarith

set_option linter.unusedSectionVars false

namespace PageTree

open List

variable {α π : Type}

/-- A node below the root: the word of its parent, its own key and its data. -/
structure Seg (α π : Type) where
  parent : List α
  key : List α
  data : π
  deriving DecidableEq

variable (node : Seg α π)

def Seg.path : List α := node.parent ++ node.key

def Seg.length : Nat := node.key.length

@[simp] theorem Seg.path_length : node.path.length = node.parent.length + node.length := by
  simp [Seg.path, Seg.length]

@[simp] theorem Seg.path_with_data (data : π) :
    ({ node with data := data } : Seg α π).path = node.path := rfl

@[simp] theorem Seg.length_with_data (data : π) :
    ({ node with data := data } : Seg α π).length = node.length := rfl

theorem Seg.parent_isPrefix : node.parent <+: node.path := ⟨node.key, rfl⟩

def Seg.pageWord (ps : Nat) (node : Seg α π) : List α := node.parent ++ node.key.take ps

theorem Seg.pageWord_isPrefix (ps : Nat) (node : Seg α π) : node.pageWord ps <+: node.path := by
  exact prefix_append_right_inj _ |>.mpr (List.take_prefix _ _)

theorem prefix_eq_take {first second : List α} (isPrefix : first <+: second) :
    second.take first.length = first := (prefix_iff_eq_take.mp isPrefix).symm

theorem prefix_of_le {first second word : List α} (left : first <+: word) (right : second <+: word)
    (shorter : first.length ≤ second.length) : first <+: second :=
  prefix_of_prefix_length_le left right shorter

theorem prefix_eq_of_length {first second word : List α} (left : first <+: word)
    (right : second <+: word) (same : first.length = second.length) : first = second :=
  (prefix_of_le left right same.le).eq_of_length same

/-- Keys are nonempty and page aligned, every parent is the root or a node, siblings differ in their
first page. -/
structure WF (ps : Nat) (tree : List (Seg α π)) : Prop where
  positive : ∀ node ∈ tree, 0 < node.length
  aligned : ∀ node ∈ tree, ps ∣ node.length
  closed : ∀ node ∈ tree, node.parent = [] ∨ ∃ up ∈ tree, up.path = node.parent
  branch : tree.Pairwise fun first second =>
    first.parent = second.parent → first.key.take ps ≠ second.key.take ps

theorem WF.nil (ps : Nat) : WF ps ([] : List (Seg α π)) :=
  ⟨by simp, by simp, by simp, List.Pairwise.nil⟩

section Facts

variable {ps : Nat} {tree : List (Seg α π)}

theorem WF.eq_of_page (wf : WF ps tree) {first second : Seg α π} (left : first ∈ tree)
    (right : second ∈ tree) (sameParent : first.parent = second.parent)
    (samePage : first.key.take ps = second.key.take ps) : first = second := by
  by_contra ne
  let Apart : Seg α π → Seg α π → Prop := fun first second =>
    first.parent = second.parent → first.key.take ps ≠ second.key.take ps
  have : Std.Symm Apart := ⟨fun _ _ apart same => (apart same.symm).symm⟩
  have apart : tree.Pairwise Apart := wf.branch
  exact apart.forall left right ne sameParent samePage

theorem WF.page_le (wf : WF ps tree) {node : Seg α π} (mem : node ∈ tree) : ps ≤ node.length :=
  Nat.le_of_dvd (wf.positive node mem) (wf.aligned node mem)

theorem WF.page_positive (wf : WF ps tree) {node : Seg α π} (mem : node ∈ tree) : 0 < ps := by
  have positive := wf.positive node mem
  have aligned := wf.aligned node mem
  rcases eq_zero_or_pos ps with zero | positivePage
  · rw [zero, Nat.zero_dvd] at aligned
    omega
  · exact positivePage

theorem WF.pageWord_length (wf : WF ps tree) {node : Seg α π} (mem : node ∈ tree) :
    (node.pageWord ps).length = node.parent.length + ps := by
  have := wf.page_le mem
  unfold Seg.length at this
  simp [Seg.pageWord, length_take, this]

theorem WF.dvd_path (wf : WF ps tree) :
    ∀ (bound : Nat) (node : Seg α π), node ∈ tree → node.path.length ≤ bound →
      ps ∣ node.path.length := by
  intro bound
  induction bound with
  | zero =>
    intro node mem small
    have := wf.positive node mem
    simp only [Seg.path_length] at small
    omega
  | succ bound ih =>
    intro node mem small
    have positive := wf.positive node mem
    have aligned := wf.aligned node mem
    rw [Seg.path_length] at small ⊢
    rcases wf.closed node mem with root | ⟨up, upMem, upPath⟩
    · rw [root, length_nil, Nat.zero_add]
      exact aligned
    · have upDvd := ih up upMem (by rw [upPath]; omega)
      rw [upPath] at upDvd
      exact Nat.dvd_add upDvd aligned

theorem WF.path_dvd (wf : WF ps tree) {node : Seg α π} (mem : node ∈ tree) :
    ps ∣ node.path.length := wf.dvd_path _ node mem le_rfl

theorem WF.parent_dvd (wf : WF ps tree) {node : Seg α π} (mem : node ∈ tree) :
    ps ∣ node.parent.length := by
  have path := wf.path_dvd mem
  rw [Seg.path_length] at path
  exact (Nat.dvd_add_left (wf.aligned node mem)).mp path

theorem page_between {ps low high : Nat} (lowDvd : ps ∣ low) (highDvd : ps ∣ high)
    (below : low < high) : low + ps ≤ high := by
  obtain ⟨a, rfl⟩ := lowDvd
  obtain ⟨b, rfl⟩ := highDvd
  have : a < b := lt_of_mul_lt_mul_left below (Nat.zero_le _)
  calc ps * a + ps = ps * (a + 1) := by ring
    _ ≤ ps * b := Nat.mul_le_mul_left _ this

/-- **A node whose first page lies on a word of the tree lies wholly on that word.** Branching
happens only at nodes, so a word that enters a node's key cannot leave it half way. The induction
is on the joint length of the two words: either the second node hangs below a shorter node that
the first page also reaches, or the roles turn and the first node's parent overshoots. -/
theorem WF.path_prefix_of_page_aux (wf : WF ps tree) :
    ∀ (bound : Nat) (first second : Seg α π), first ∈ tree → second ∈ tree →
      first.path.length + second.path.length ≤ bound →
      first.pageWord ps <+: second.path → first.path <+: second.path := by
  intro bound
  induction bound with
  | zero =>
    intro first second left _ small _
    have := wf.positive first left
    simp only [Seg.path_length] at small
    omega
  | succ bound ih =>
    intro first second left right small onWord
    have firstPos := wf.positive first left
    have secondPos := wf.positive second right
    have reach := onWord.length_le
    rw [wf.pageWord_length left] at reach
    have parentOn : first.parent <+: second.path := (prefix_append _ _).trans onWord
    rcases lt_trichotomy first.parent.length second.parent.length with shorter | equal | longer
    · -- the second node's parent already reaches past the first page
      have fits := page_between (wf.parent_dvd left) (wf.parent_dvd right) shorter
      rcases wf.closed second right with root | ⟨up, upMem, upPath⟩
      · rw [root] at shorter
        simp at shorter
      · have pageOnUp : first.pageWord ps <+: up.path := by
          rw [upPath]
          exact prefix_of_le onWord second.parent_isPrefix (by rw [wf.pageWord_length left]; exact fits)
        have below := ih first up left upMem (by
          rw [upPath]
          have := second.path_length
          omega) pageOnUp
        rw [upPath] at below
        exact below.trans second.parent_isPrefix
    · -- siblings under one parent: the same first page, hence the same node
      have sameParent : first.parent = second.parent :=
        prefix_eq_of_length parentOn second.parent_isPrefix equal
      have secondPage : second.pageWord ps <+: second.path := second.pageWord_isPrefix ps
      have sameWord : first.pageWord ps = second.pageWord ps :=
        prefix_eq_of_length onWord secondPage (by
          rw [wf.pageWord_length left, wf.pageWord_length right, equal])
      have samePage : first.key.take ps = second.key.take ps := by
        unfold Seg.pageWord at sameWord
        rw [sameParent] at sameWord
        exact append_cancel_left sameWord
      rw [wf.eq_of_page left right sameParent samePage]
    · -- the first node's parent would lie strictly inside the second node's key
      exfalso
      have fits := page_between (wf.parent_dvd right) (wf.parent_dvd left) longer
      rcases wf.closed first left with root | ⟨up, upMem, upPath⟩
      · rw [root] at longer
        simp at longer
      · have pageOnUp : second.pageWord ps <+: up.path := by
          rw [upPath]
          exact prefix_of_le (second.pageWord_isPrefix ps) parentOn
            (by rw [wf.pageWord_length right]; exact fits)
        have below := ih second up right upMem (by
          rw [upPath]
          have := first.path_length
          omega) pageOnUp
        rw [upPath] at below
        have tooLong := below.length_le
        have pagePos := wf.page_positive left
        omega

/-- A node whose first page lies on a word of the tree lies wholly on it. -/
theorem WF.path_prefix_of_page (wf : WF ps tree) {first second : Seg α π} (left : first ∈ tree)
    (right : second ∈ tree) (onWord : first.pageWord ps <+: second.path) :
    first.path <+: second.path :=
  wf.path_prefix_of_page_aux _ first second left right le_rfl onWord

theorem WF.path_prefix_of_longer (wf : WF ps tree) {first second : Seg α π} (left : first ∈ tree)
    (right : second ∈ tree) (word : List α) (firstOn : first.path <+: word)
    (secondOn : second.path <+: word) (longer : first.parent.length < second.path.length) :
    first.path <+: second.path := by
  refine wf.path_prefix_of_page left right ?_
  refine prefix_of_le ((first.pageWord_isPrefix ps).trans firstOn) secondOn ?_
  rw [wf.pageWord_length left]
  exact page_between (wf.parent_dvd left) (wf.path_dvd right) longer

theorem WF.eq_of_path (wf : WF ps tree) {first second : Seg α π} (left : first ∈ tree)
    (right : second ∈ tree) (same : first.path = second.path) : first = second := by
  have lengths : first.parent.length + first.length = second.parent.length + second.length := by
    rw [← Seg.path_length, ← Seg.path_length, same]
  have firstPos := wf.positive first left
  have secondPos := wf.positive second right
  have leftOn : first.parent <+: second.path := same ▸ first.parent_isPrefix
  rcases lt_trichotomy first.parent.length second.parent.length with shorter | equal | longer
  · exfalso
    rcases wf.closed second right with root | ⟨up, upMem, upPath⟩
    · rw [root] at shorter
      simp at shorter
    · have lt := wf.path_prefix_of_longer left upMem second.path
        (same ▸ prefix_refl _) (upPath ▸ second.parent_isPrefix) (by rw [upPath]; exact shorter)
      have := lt.length_le
      rw [upPath, Seg.path_length] at this
      omega
  · have sameParent := prefix_eq_of_length leftOn second.parent_isPrefix equal
    refine wf.eq_of_page left right sameParent ?_
    unfold Seg.path at same
    rw [sameParent] at same
    rw [append_cancel_left same]
  · exfalso
    rcases wf.closed first left with root | ⟨up, upMem, upPath⟩
    · rw [root] at longer
      simp at longer
    · have lt := wf.path_prefix_of_longer right upMem first.path
        (same ▸ prefix_refl _) (upPath ▸ first.parent_isPrefix) (by rw [upPath]; exact longer)
      have := lt.length_le
      rw [upPath, Seg.path_length] at this
      omega

theorem WF.path_ne_nil (wf : WF ps tree) {node : Seg α π} (mem : node ∈ tree) : node.path ≠ [] := by
  have := wf.positive node mem
  intro empty
  have lengths := node.path_length
  rw [empty, length_nil] at lengths
  omega

theorem WF.paths_nodup (wf : WF ps tree) : (tree.map Seg.path).Nodup := by
  rw [nodup_iff_pairwise_ne, pairwise_map]
  refine wf.branch.imp_of_mem fun {first second} left right apart same => ?_
  have := wf.eq_of_path left right same
  exact apart (by rw [this]) (by rw [this])

theorem WF.path_prefix_parent (wf : WF ps tree) {node last : Seg α π} (mem : node ∈ tree)
    (lastMem : last ∈ tree) (above : node.path <+: last.path) (ne : node ≠ last) :
    node.path <+: last.parent := by
  refine prefix_of_le above last.parent_isPrefix ?_
  by_contra longer
  have back := wf.path_prefix_of_longer lastMem mem last.path (prefix_refl _) above (by omega)
  exact ne (wf.eq_of_path mem lastMem (above.eq_of_length_le back.length_le))

theorem WF.head_prefix_iff (wf : WF ps tree) {node : Seg α π} (mem : node ∈ tree) {pos : Nat}
    (positive : 0 < pos) (aligned : ps ∣ pos) {word : List α}
    (stored : word = [] ∨ ∃ last ∈ tree, last.path = word) :
    node.parent ++ node.key.take pos <+: word ↔ node.path <+: word := by
  have headOn : node.parent ++ node.key.take pos <+: node.path :=
    (prefix_append_right_inj _).mpr (List.take_prefix _ _)
  refine ⟨fun onWord => ?_, headOn.trans⟩
  rcases stored with rfl | ⟨last, lastMem, rfl⟩
  · have parts := append_eq_nil_iff.mp (prefix_nil.mp onWord)
    have := wf.positive node mem
    have lengths := congrArg length parts.2
    simp only [length_take, length_nil] at lengths
    unfold Seg.length at this
    omega
  · refine wf.path_prefix_of_page mem lastMem ?_
    have pageOn : node.pageWord ps <+: node.parent ++ node.key.take pos := by
      refine (prefix_append_right_inj _).mpr ?_
      have fits : ps ≤ pos := Nat.le_of_dvd positive aligned
      have := take_prefix ps (node.key.take pos)
      rwa [take_take, min_eq_left fits] at this
    exact pageOn.trans onWord

theorem WF.child_toward (wf : WF ps tree) {word : List α}
    (stored : word = [] ∨ ∃ up ∈ tree, up.path = word) :
    ∀ (bound : Nat) (node : Seg α π), node ∈ tree → node.path.length ≤ bound →
      word <+: node.path → word.length < node.path.length →
      ∃ child ∈ tree, child.parent = word ∧ child.path <+: node.path := by
  intro bound
  induction bound with
  | zero =>
    intro node _ small _ longer
    omega
  | succ bound ih =>
    intro node mem small onPath longer
    have positive := wf.positive node mem
    rw [Seg.path_length] at small longer
    rcases lt_trichotomy node.parent.length word.length with above | equal | below
    · -- the word would end inside the node
      exfalso
      rcases stored with rfl | ⟨up, upMem, rfl⟩
      · simp at above
      · have lt := wf.path_prefix_of_longer mem upMem node.path (prefix_refl _)
          onPath above
        have := lt.length_le
        rw [Seg.path_length node] at this
        omega
    · have same : node.parent = word :=
        prefix_eq_of_length node.parent_isPrefix onPath equal
      exact ⟨node, mem, same, prefix_refl _⟩
    · rcases wf.closed node mem with root | ⟨up, upMem, upPath⟩
      · rw [root] at below
        simp at below
      · obtain ⟨child, childMem, hangs, onUp⟩ := ih up upMem (by rw [upPath]; omega)
          (by rw [upPath]; exact prefix_of_le onPath node.parent_isPrefix below.le)
          (by rw [upPath]; exact below)
        rw [upPath] at onUp
        exact ⟨child, childMem, hangs, onUp.trans node.parent_isPrefix⟩

theorem WF.not_prefix_of_page (wf : WF ps tree) {word page : List α}
    (stored : word = [] ∨ ∃ up ∈ tree, up.path = word) (size : page.length = ps)
    (positive : 0 < ps)
    (fresh : ∀ child ∈ tree, child.parent = word → child.key.take ps ≠ page)
    {node : Seg α π} (mem : node ∈ tree) : ¬word ++ page <+: node.path := by
  intro below
  have longer := below.length_le
  rw [length_append, size] at longer
  obtain ⟨child, childMem, hangs, onPath⟩ := wf.child_toward stored _ node mem le_rfl
    ((prefix_append _ _).trans below) (by omega)
  refine fresh child childMem hangs ?_
  have pageOn := (child.pageWord_isPrefix ps).trans onPath
  have same := prefix_eq_of_length pageOn below (by
    rw [wf.pageWord_length childMem, length_append, size, hangs])
  unfold Seg.pageWord at same
  rw [hangs] at same
  exact append_cancel_left same

end Facts

/-! ### Changing a tree -/

variable (weight : Seg α π → Int) {word : List α}

section Change

variable [DecidableEq α]

def node? (tree : List (Seg α π)) (word : List α) : Option (Seg α π) :=
  tree.find? fun node => node.path = word

def child? (ps : Nat) (tree : List (Seg α π)) (word rest : List α) : Option (Seg α π) :=
  tree.find? fun node => node.parent = word ∧ node.key.take ps = rest.take ps

def isLeaf (tree : List (Seg α π)) (word : List α) : Bool := tree.all fun node => node.parent ≠ word

def modify (tree : List (Seg α π)) (word : List α) (change : Seg α π → π) : List (Seg α π) :=
  tree.map fun node => if node.path = word then { node with data := change node } else node

/-- Cut the node that ends at a word in two, `pos` letters below its parent. The tail keeps the
node's word. -/
def splitAt (tree : List (Seg α π)) (word : List α) (pos : Nat) (head tail : π → π) :
    List (Seg α π) :=
  tree.flatMap fun node =>
    if node.path = word then
      [⟨node.parent, node.key.take pos, head node.data⟩,
        ⟨node.parent ++ node.key.take pos, node.key.drop pos, tail node.data⟩]
    else [node]

def insertLeaf (tree : List (Seg α π)) (word key : List α) (data : π) : List (Seg α π) :=
  tree ++ [⟨word, key, data⟩]

def remove (tree : List (Seg α π)) (word : List α) : List (Seg α π) :=
  tree.filter fun node => node.path ≠ word

variable {ps : Nat} {tree : List (Seg α π)}

theorem node?_mem {node : Seg α π} (found : node? tree word = some node) :
    node ∈ tree := mem_of_find?_eq_some found

theorem node?_path {node : Seg α π} (found : node? tree word = some node) :
    node.path = word := by simpa using find?_some found

theorem WF.node?_eq (wf : WF ps tree) {node : Seg α π} (mem : node ∈ tree) :
    node? tree node.path = some node := by
  rcases found : node? tree node.path with _ | other
  · exact absurd (find?_eq_none.mp found node mem) (by simp)
  · rw [wf.eq_of_path (node?_mem found) mem (node?_path found)]

theorem WF.node?_eq_of_path (wf : WF ps tree) {node : Seg α π} (mem : node ∈ tree)
    {word : List α} (ends : node.path = word) : node? tree word = some node :=
  ends ▸ wf.node?_eq mem

theorem child?_mem {word rest : List α} {node : Seg α π}
    (found : child? ps tree word rest = some node) : node ∈ tree :=
  mem_of_find?_eq_some found

theorem child?_spec {word rest : List α} {node : Seg α π}
    (found : child? ps tree word rest = some node) :
    node.parent = word ∧ node.key.take ps = rest.take ps := by
  simpa using find?_some found

theorem child?_none {word rest : List α} (missing : child? ps tree word rest = none)
    {node : Seg α π} (mem : node ∈ tree) (below : node.parent = word) :
    node.key.take ps ≠ rest.take ps := by
  have := find?_eq_none.mp missing node mem
  simp only [decide_eq_true_eq, not_and] at this
  exact this below

theorem isLeaf_iff : isLeaf tree word = true ↔ ∀ node ∈ tree, node.parent ≠ word := by simp [isLeaf]

theorem mem_remove {node : Seg α π} : node ∈ remove tree word ↔ node ∈ tree ∧ node.path ≠ word := by
  simp [remove]

theorem remove_of_notMem (absent : word ∉ tree.map Seg.path) : remove tree word = tree := by
  refine filter_eq_self.mpr fun node mem => ?_
  simpa using fun same => absent (mem_map.mpr ⟨node, mem, same⟩)

theorem WF.focus (wf : WF ps tree) {node : Seg α π} (mem : node ∈ tree) :
    tree.Perm (node :: remove tree node.path) := by
  have nodup := wf.paths_nodup
  clear wf
  induction tree with
  | nil => simp at mem
  | cons head rest ih =>
    rw [map_cons, nodup_cons] at nodup
    rcases mem_cons.mp mem with same | inRest
    · subst same
      have gone : remove (node :: rest) node.path = rest := by
        rw [remove, filter_cons_of_neg (by simp)]
        exact remove_of_notMem nodup.1
      rw [gone]
    · have apart : head.path ≠ node.path := fun same =>
        nodup.1 (mem_map.mpr ⟨node, inRest, same.symm⟩)
      have kept : remove (head :: rest) node.path = head :: remove rest node.path := by
        rw [remove, filter_cons_of_pos (by simpa using apart)]
        rfl
      rw [kept]
      exact ((ih inRest nodup.2).cons head).trans (Perm.swap _ _ _)

theorem modify_of_notMem (absent : word ∉ tree.map Seg.path)
    (change : Seg α π → π) : modify tree word change = tree := by
  refine (map_congr_left fun node mem => ?_).trans (map_id tree)
  exact if_neg fun same => absent (mem_map.mpr ⟨node, mem, same⟩)

theorem splitAt_of_notMem (absent : word ∉ tree.map Seg.path) (pos : Nat)
    (head tail : π → π) : splitAt tree word pos head tail = tree := by
  have : ∀ node ∈ tree, (if node.path = word then
      [(⟨node.parent, node.key.take pos, head node.data⟩ : Seg α π),
        ⟨node.parent ++ node.key.take pos, node.key.drop pos, tail node.data⟩]
      else [node]) = [node] := fun node mem =>
    if_neg fun same => absent (mem_map.mpr ⟨node, mem, same⟩)
  rw [splitAt, flatMap_congr this]
  simp

theorem notMem_remove (tree : List (Seg α π)) (word : List α) : word ∉ (remove tree word).map Seg.path := by
  intro lt
  obtain ⟨node, mem, same⟩ := mem_map.mp lt
  exact (mem_remove.mp mem).2 same

theorem WF.focus_modify (wf : WF ps tree) {node : Seg α π} (mem : node ∈ tree)
    (change : Seg α π → π) :
    (modify tree node.path change).Perm
      ({ node with data := change node } :: remove tree node.path) := by
  refine ((wf.focus mem).map _).trans ?_
  rw [map_cons, if_pos rfl]
  have rest := modify_of_notMem (notMem_remove tree node.path) change
  rw [modify] at rest
  rw [rest]

theorem WF.focus_splitAt (wf : WF ps tree) {node : Seg α π} (mem : node ∈ tree) (pos : Nat)
    (head tail : π → π) :
    (splitAt tree node.path pos head tail).Perm
      (⟨node.parent, node.key.take pos, head node.data⟩ ::
        ⟨node.parent ++ node.key.take pos, node.key.drop pos, tail node.data⟩ ::
        remove tree node.path) := by
  refine ((wf.focus mem).flatMap_right _).trans ?_
  rw [flatMap_cons, if_pos rfl]
  have rest := splitAt_of_notMem (notMem_remove tree node.path) pos head tail
  rw [splitAt] at rest
  rw [rest]
  rfl

theorem mem_modify {change : Seg α π → π} {node : Seg α π} :
    node ∈ modify tree word change ↔ ∃ old ∈ tree,
      node = if old.path = word then { old with data := change old } else old := by
  simp only [modify, mem_map]
  exact exists_congr fun old => and_congr_right fun _ => eq_comm

theorem mem_splitAt {pos : Nat} {head tail : π → π} {node : Seg α π} :
    node ∈ splitAt tree word pos head tail ↔ ∃ old ∈ tree, if old.path = word then
        node = ⟨old.parent, old.key.take pos, head old.data⟩ ∨
        node = ⟨old.parent ++ old.key.take pos, old.key.drop pos, tail old.data⟩
      else node = old := by
  simp only [splitAt, mem_flatMap]
  refine exists_congr fun old => and_congr_right fun _ => ?_
  split <;> simp

/-! ### Every change keeps the tree well formed -/

theorem WF.modify (wf : WF ps tree) (word : List α) (change : Seg α π → π) :
    WF ps (modify tree word change) := by
  have same : ∀ old : Seg α π,
      (if old.path = word then { old with data := change old } else old).parent = old.parent ∧
      (if old.path = word then { old with data := change old } else old).key = old.key := by
    intro old
    split <;> exact ⟨rfl, rfl⟩
  refine ⟨?_, ?_, ?_, ?_⟩
  · intro node mem
    obtain ⟨old, oldMem, rfl⟩ := mem_modify.mp mem
    simpa only [Seg.length, (same old).2] using wf.positive old oldMem
  · intro node mem
    obtain ⟨old, oldMem, rfl⟩ := mem_modify.mp mem
    simpa only [Seg.length, (same old).2] using wf.aligned old oldMem
  · intro node mem
    obtain ⟨old, oldMem, rfl⟩ := mem_modify.mp mem
    rw [(same old).1]
    refine (wf.closed old oldMem).imp_right fun ⟨up, upMem, upPath⟩ => ?_
    refine ⟨_, mem_modify.mpr ⟨up, upMem, rfl⟩, ?_⟩
    rw [Seg.path, (same up).1, (same up).2]
    exact upPath
  · rw [PageTree.modify, pairwise_map]
    refine wf.branch.imp fun {first second} apart sameParent => ?_
    rw [(same first).1, (same second).1] at sameParent
    rw [(same first).2, (same second).2]
    exact apart sameParent

theorem WF.splitAt (wf : WF ps tree) {node : Seg α π} (mem : node ∈ tree) {pos : Nat}
    (positive : 0 < pos) (lt : pos < node.length) (aligned : ps ∣ pos) (head tail : π → π) :
    WF ps (splitAt tree node.path pos head tail) := by
  have pagePos := wf.page_positive mem
  have pageFits : ps ≤ pos := Nat.le_of_dvd positive aligned
  have headLength : (node.key.take pos).length = pos := by
    rw [length_take]
    exact min_eq_left lt.le
  -- no node hangs from the middle of the node that is cut
  have noMiddle : ∀ up ∈ tree, up.path ≠ node.parent ++ node.key.take pos := by
    intro up upMem same
    have onNode : node.parent ++ node.key.take pos <+: node.path :=
      (prefix_append_right_inj _).mpr (List.take_prefix _ _)
    have below := wf.path_prefix_of_longer mem upMem node.path
      (prefix_refl _) (same ▸ onNode) (by
        rw [same, length_append, headLength]
        omega)
    have := below.length_le
    rw [same, length_append, headLength, Seg.path_length] at this
    omega
  refine ⟨?_, ?_, ?_, ?_⟩
  · intro new newMem
    obtain ⟨old, oldMem, shape⟩ := mem_splitAt.mp newMem
    split at shape
    · next same =>
      obtain rfl := wf.eq_of_path oldMem mem same
      rcases shape with rfl | rfl
      · simpa [Seg.length, headLength] using positive
      · unfold Seg.length at lt ⊢
        simp only [length_drop]
        omega
    · rw [shape]
      exact wf.positive old oldMem
  · intro new newMem
    obtain ⟨old, oldMem, shape⟩ := mem_splitAt.mp newMem
    split at shape
    · next same =>
      obtain rfl := wf.eq_of_path oldMem mem same
      rcases shape with rfl | rfl
      · simpa [Seg.length, headLength] using aligned
      · simp only [Seg.length, length_drop]
        exact Nat.dvd_sub (wf.aligned old oldMem) aligned
    · rw [shape]
      exact wf.aligned old oldMem
  · -- the end of every old node is still the end of a node
    have ends : ∀ up ∈ tree, ∃ new ∈ PageTree.splitAt tree node.path pos head tail,
        new.path = up.path := by
      intro up upMem
      by_cases same : up.path = node.path
      · refine ⟨⟨up.parent ++ up.key.take pos, up.key.drop pos, tail up.data⟩,
          mem_splitAt.mpr ⟨up, upMem, ?_⟩, ?_⟩
        · rw [if_pos same]
          exact Or.inr rfl
        · simp [Seg.path]
      · refine ⟨up, mem_splitAt.mpr ⟨up, upMem, ?_⟩, rfl⟩
        rw [if_neg same]
    intro new newMem
    obtain ⟨old, oldMem, shape⟩ := mem_splitAt.mp newMem
    have closed : old.parent = [] ∨
        ∃ up ∈ PageTree.splitAt tree node.path pos head tail, up.path = old.parent :=
      (wf.closed old oldMem).imp_right fun ⟨up, upMem, upPath⟩ => by
        obtain ⟨kept, keptMem, keptPath⟩ := ends up upMem
        exact ⟨kept, keptMem, keptPath.trans upPath⟩
    split at shape
    · next same =>
      rcases shape with rfl | rfl
      · exact closed
      · refine Or.inr ⟨⟨old.parent, old.key.take pos, head old.data⟩,
          mem_splitAt.mpr ⟨old, oldMem, ?_⟩, rfl⟩
        rw [if_pos same]
        exact Or.inl rfl
    · rw [shape]
      exact closed
  · rw [PageTree.splitAt, pairwise_flatMap]
    refine ⟨?_, ?_⟩
    · intro old oldMem
      split
      · next same =>
        obtain rfl := wf.eq_of_path oldMem mem same
        refine pairwise_pair.mpr fun sameParent => ?_
        have lengths := congrArg length sameParent
        simp only [length_append, headLength] at lengths
        omega
      · exact pairwise_singleton _ _
    · refine wf.branch.imp_of_mem fun {first second} left right apart => ?_
      have nodup : first ≠ second := fun same => apart (by rw [same]) (by rw [same])
      -- the page of the head is the page of the node
      have headPage : (node.key.take pos).take ps = node.key.take ps := by
        rw [take_take, min_eq_left pageFits]
      have fromMiddle : ∀ other ∈ tree, other.parent ≠ node.parent ++ node.key.take pos := by
        intro other otherMem same
        rcases wf.closed other otherMem with root | ⟨up, upMem, upPath⟩
        · rw [root] at same
          have lengths := congrArg length same
          simp only [length_append, headLength, length_nil] at lengths
          omega
        · exact noMiddle up upMem (upPath.trans same)
      intro newFirst firstShape newSecond secondShape
      by_cases firstCut : first.path = node.path
      · obtain rfl := wf.eq_of_path left mem firstCut
        have secondUncut : second.path ≠ first.path := fun same =>
          nodup (wf.eq_of_path right left same).symm
        rw [if_neg secondUncut, mem_singleton] at secondShape
        subst secondShape
        rw [if_pos rfl] at firstShape
        rcases mem_pair.mp firstShape with rfl | rfl
        · intro sameParent
          rw [headPage]
          exact apart sameParent
        · exact fun sameParent => absurd sameParent.symm (fromMiddle newSecond right)
      · rw [if_neg firstCut, mem_singleton] at firstShape
        subst firstShape
        by_cases secondCut : second.path = node.path
        · obtain rfl := wf.eq_of_path right mem secondCut
          rw [if_pos rfl] at secondShape
          rcases mem_pair.mp secondShape with rfl | rfl
          · intro sameParent
            rw [headPage]
            exact apart sameParent
          · exact fun sameParent => absurd sameParent (fromMiddle newFirst left)
        · rw [if_neg secondCut, mem_singleton] at secondShape
          subst secondShape
          exact apart

theorem WF.insertLeaf (wf : WF ps tree) {word key : List α} (positive : 0 < key.length)
    (aligned : ps ∣ key.length) (stored : word = [] ∨ ∃ up ∈ tree, up.path = word)
    (fresh : child? ps tree word key = none) (data : π) :
    WF ps (insertLeaf tree word key data) := by
  refine ⟨?_, ?_, ?_, ?_⟩
  · intro node mem
    rcases mem_append.mp mem with old | new
    · exact wf.positive node old
    · rw [mem_singleton.mp new]
      exact positive
  · intro node mem
    rcases mem_append.mp mem with old | new
    · exact wf.aligned node old
    · rw [mem_singleton.mp new]
      exact aligned
  · intro node mem
    have kept : (node.parent = [] ∨ ∃ up ∈ tree, up.path = node.parent) := by
      rcases mem_append.mp mem with old | new
      · exact wf.closed node old
      · rw [mem_singleton.mp new]
        exact stored
    exact kept.imp_right fun ⟨up, upMem, upPath⟩ => ⟨up, mem_append_left _ upMem, upPath⟩
  · rw [PageTree.insertLeaf, pairwise_append]
    refine ⟨wf.branch, pairwise_singleton _ _, ?_⟩
    intro node mem new newMem sameParent
    rw [mem_singleton.mp newMem] at sameParent ⊢
    exact child?_none fresh mem sameParent

theorem WF.remove (wf : WF ps tree) {word : List α} (leaf : isLeaf tree word = true) :
    WF ps (remove tree word) := by
  refine ⟨?_, ?_, ?_, ?_⟩
  · intro node mem
    exact wf.positive node (mem_remove.mp mem).1
  · intro node mem
    exact wf.aligned node (mem_remove.mp mem).1
  · intro node mem
    have inTree := (mem_remove.mp mem).1
    refine (wf.closed node inTree).imp_right fun ⟨up, upMem, upPath⟩ => ?_
    refine ⟨up, mem_remove.mpr ⟨upMem, ?_⟩, upPath⟩
    rw [upPath]
    exact isLeaf_iff.mp leaf node inTree
  · exact wf.branch.filter _

/-! ### Sums over the nodes -/

/-- The sum of a weight over the nodes, and what each change does to it. -/
def total (tree : List (Seg α π)) : Int := (tree.map weight).sum

@[simp] theorem total_nil : total weight ([] : List (Seg α π)) = 0 := rfl

@[simp] theorem total_cons (rest : List (Seg α π)) :
    total weight (node :: rest) = weight node + total weight rest := by
  simp [total]

@[simp] theorem total_append (first second : List (Seg α π)) :
    total weight (first ++ second) = total weight first + total weight second := by
  simp [total]

theorem total_perm {first second : List (Seg α π)}
    (same : first.Perm second) : total weight first = total weight second :=
  (same.map weight).sum_eq

theorem WF.total_focus (wf : WF ps tree) (weight : Seg α π → Int) {node : Seg α π}
    (mem : node ∈ tree) :
    total weight tree = weight node + total weight (PageTree.remove tree node.path) := by
  rw [total_perm weight (wf.focus mem), total_cons]

theorem WF.total_modify (wf : WF ps tree) (weight : Seg α π → Int) {node : Seg α π}
    (mem : node ∈ tree) (change : Seg α π → π) :
    total weight (PageTree.modify tree node.path change) =
      total weight tree - weight node + weight { node with data := change node } := by
  rw [total_perm weight (wf.focus_modify mem change), total_cons, wf.total_focus weight mem]
  ring

theorem WF.total_splitAt (wf : WF ps tree) (weight : Seg α π → Int) {node : Seg α π}
    (mem : node ∈ tree) (pos : Nat) (head tail : π → π) :
    total weight (PageTree.splitAt tree node.path pos head tail) =
      total weight tree - weight node + weight ⟨node.parent, node.key.take pos, head node.data⟩ +
        weight ⟨node.parent ++ node.key.take pos, node.key.drop pos, tail node.data⟩ := by
  rw [total_perm weight (wf.focus_splitAt mem pos head tail), total_cons, total_cons,
    wf.total_focus weight mem]
  ring

theorem WF.total_remove (wf : WF ps tree) (weight : Seg α π → Int) {node : Seg α π}
    (mem : node ∈ tree) :
    total weight (PageTree.remove tree node.path) = total weight tree - weight node := by
  rw [wf.total_focus weight mem]
  ring

theorem total_insertLeaf (tree : List (Seg α π)) (word key : List α) (data : π) :
    total weight (PageTree.insertLeaf tree word key data) =
      total weight tree + weight ⟨word, key, data⟩ := by
  simp [PageTree.insertLeaf]

theorem total_modify_same (tree : List (Seg α π)) (word : List α) (change : Seg α π → π)
    (same : ∀ node ∈ tree, weight { node with data := change node } = weight node) :
    total weight (PageTree.modify tree word change) = total weight tree := by
  rw [total, PageTree.modify, map_map]
  refine congrArg sum (map_congr_left fun node mem => ?_)
  simp only [Function.comp_apply]
  split
  · exact same node mem
  · rfl

theorem total_nonneg (tree : List (Seg α π))
    (nonneg : ∀ node ∈ tree, 0 ≤ weight node) : 0 ≤ total weight tree := by
  refine sum_nonneg fun value mem => ?_
  obtain ⟨node, inTree, rfl⟩ := mem_map.mp mem
  exact nonneg node inTree

theorem total_congr {weight other : Seg α π → Int} {tree : List (Seg α π)}
    (same : ∀ node ∈ tree, weight node = other node) : total weight tree = total other tree := by
  rw [total, total, map_congr_left same]

/-! ### What the nodes hold -/

section Gather

variable {β : Type} (holds : Seg α π → List β)

/-- All that the nodes hold, up to order, and what each change does to it. -/
def gather (tree : List (Seg α π)) : List β := tree.flatMap holds

theorem WF.gather_focus (wf : WF ps tree) {node : Seg α π} (mem : node ∈ tree) :
    (gather holds tree).Perm (holds node ++ gather holds (PageTree.remove tree node.path)) :=
  (wf.focus mem).flatMap_right holds

theorem WF.gather_modify (wf : WF ps tree) {node : Seg α π} (mem : node ∈ tree)
    (change : Seg α π → π) :
    (gather holds (PageTree.modify tree node.path change)).Perm
      (holds { node with data := change node } ++ gather holds (PageTree.remove tree node.path)) :=
  (wf.focus_modify mem change).flatMap_right holds

theorem WF.gather_splitAt (wf : WF ps tree) {node : Seg α π} (mem : node ∈ tree) (pos : Nat)
    (head tail : π → π) :
    (gather holds (PageTree.splitAt tree node.path pos head tail)).Perm
      (holds ⟨node.parent, node.key.take pos, head node.data⟩ ++
        (holds ⟨node.parent ++ node.key.take pos, node.key.drop pos, tail node.data⟩ ++
          gather holds (PageTree.remove tree node.path))) :=
  (wf.focus_splitAt mem pos head tail).flatMap_right holds

theorem gather_insertLeaf (tree : List (Seg α π)) (word key : List α) (data : π) :
    gather holds (PageTree.insertLeaf tree word key data) =
      gather holds tree ++ holds ⟨word, key, data⟩ := by
  unfold gather PageTree.insertLeaf
  rw [flatMap_append, flatMap_singleton]

theorem gather_modify_same (tree : List (Seg α π)) (word : List α) {change : Seg α π → π}
    (same : ∀ node, holds { node with data := change node } = holds node) :
    gather holds (PageTree.modify tree word change) = gather holds tree := by
  unfold gather PageTree.modify
  rw [flatMap_map]
  refine flatMap_congr fun node _ => ?_
  split
  · exact same node
  · rfl

theorem WF.gather_cleared (wf : WF ps tree) {node : Seg α π} (mem : node ∈ tree)
    {change : Seg α π → π} (empty : holds { node with data := change node } = []) :
    (gather holds tree).Perm
      (holds node ++ gather holds (PageTree.modify tree node.path change)) := by
  refine (wf.gather_focus holds mem).trans (Perm.append_left _ ?_)
  have moved := wf.gather_modify holds mem change
  rw [empty, nil_append] at moved
  exact moved.symm

theorem WF.gather_split_same (wf : WF ps tree) {node : Seg α π} (mem : node ∈ tree) (pos : Nat)
    {head tail : π → π}
    (shared : holds ⟨node.parent, node.key.take pos, head node.data⟩ ++
      holds ⟨node.parent ++ node.key.take pos, node.key.drop pos, tail node.data⟩ = holds node) :
    (gather holds (PageTree.splitAt tree node.path pos head tail)).Perm (gather holds tree) := by
  refine (wf.gather_splitAt holds mem pos head tail).trans ?_
  rw [← append_assoc, shared]
  exact (wf.gather_focus holds mem).symm

end Gather

/-! ### From a node up to the root -/

/-- The nodes from a node up to the root, and `WF.mem_lineage_iff`: they are exactly the nodes whose
words are prefixes. -/
def lineage (tree : List (Seg α π)) : Nat → List α → List (Seg α π)
  | 0, _ => []
  | fuel + 1, word =>
      match node? tree word with
      | none => []
      | some node => node :: lineage tree fuel node.parent

theorem lineage_mem {fuel : Nat} {word : List α} {node : Seg α π}
    (mem : node ∈ lineage tree fuel word) : node ∈ tree ∧ node.path <+: word := by
  induction fuel generalizing word with
  | zero => simp [lineage] at mem
  | succ fuel ih =>
    rw [lineage] at mem
    rcases found : node? tree word with _ | last
    · rw [found] at mem
      simp at mem
    · rw [found] at mem
      rcases mem_cons.mp mem with rfl | above
      · exact ⟨node?_mem found, by rw [node?_path found]⟩
      · obtain ⟨inTree, below⟩ := ih above
        refine ⟨inTree, below.trans ?_⟩
        rw [← node?_path found]
        exact last.parent_isPrefix

theorem WF.mem_lineage_iff (wf : WF ps tree) {word : List α}
    (stored : word = [] ∨ ∃ last ∈ tree, last.path = word) {fuel : Nat}
    (enough : word.length ≤ fuel) (node : Seg α π) :
    node ∈ lineage tree fuel word ↔ node ∈ tree ∧ node.path <+: word := by
  refine ⟨lineage_mem, ?_⟩
  rintro ⟨mem, above⟩
  induction fuel generalizing word with
  | zero =>
    have := wf.path_ne_nil mem
    rw [length_eq_zero_iff.mp (Nat.le_zero.mp enough)] at above
    exact absurd (prefix_nil.mp above) this
  | succ fuel ih =>
    rcases stored with rfl | ⟨last, lastMem, rfl⟩
    · exact absurd (prefix_nil.mp above) (wf.path_ne_nil mem)
    · rw [lineage, wf.node?_eq lastMem]
      by_cases same : node = last
      · rw [same]
        exact mem_cons_self
      · have shorter : last.parent.length ≤ fuel := by
          have := wf.positive last lastMem
          rw [Seg.path_length] at enough
          omega
        have higher := wf.path_prefix_parent mem lastMem above same
        exact mem_cons_of_mem _ (ih (wf.closed last lastMem) shorter higher)

theorem lineage_pairwise (fuel : Nat) (word : List α) :
    (lineage tree fuel word).Pairwise fun lower upper => upper.path <+: lower.parent := by
  induction fuel generalizing word with
  | zero => exact List.Pairwise.nil
  | succ fuel ih =>
    rw [lineage]
    rcases node? tree word with _ | last
    · exact List.Pairwise.nil
    · exact pairwise_cons.mpr ⟨fun upper above => (lineage_mem above).2, ih last.parent⟩

end Change

end PageTree
