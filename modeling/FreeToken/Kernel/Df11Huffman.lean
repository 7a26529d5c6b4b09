/-
**The code of the exponents.**

The lengths that Huffman's merge gives, floored or not, are those of the leaves of one binary tree, so
that the canonical codes fill the table.
-/

import FreeToken.Kernel.Df11

namespace FreeToken.Df11

open PrefixCode List Function

/-! ### The heap -/

section Heap

variable {entry : Entry} {heap : List Entry}

theorem heappush_perm (entry : Entry) (heap : List Entry) :
    (heappush entry heap).Perm (entry :: heap) := by
  induction heap with
  | nil => exact .refl _
  | cons head heap ih =>
    unfold heappush
    split
    · exact .refl _
    · exact (ih.cons head).trans (.swap entry head heap)

theorem heappush_last (after : ∀ other ∈ heap, entry.lt other = false) :
    heappush entry heap = heap ++ [entry] := by
  induction heap with
  | nil => rfl
  | cons head heap ih =>
    unfold heappush
    rw [if_neg (by rw [after head mem_cons_self]; decide),
      ih fun other mem => after other (mem_cons_of_mem _ mem)]
    rfl

def heapSymbols (heap : List Entry) : List Nat := heap.flatMap fun entry => entry.tree.symbols

theorem heapSymbols_push (entry : Entry) (heap : List Entry) :
    (heapSymbols (heappush entry heap)).Perm (entry.tree.symbols ++ heapSymbols heap) :=
  (heappush_perm entry heap).flatMap_right _

theorem heapSymbols_pushLeaves (freq : List (Nat × Nat)) (order : Nat) (heap : List Entry) :
    (heapSymbols (pushLeaves order freq heap)).Perm (freq.map Prod.fst ++ heapSymbols heap) := by
  induction freq generalizing order heap with
  | nil => exact .refl _
  | cons item freq ih =>
    obtain ⟨sym, f⟩ := item
    refine (ih (order + 1) _).trans ?_
    refine ((heapSymbols_push _ _).append_left _).trans ?_
    exact perm_middle

theorem length_pushLeaves (freq : List (Nat × Nat)) (order : Nat) (heap : List Entry) :
    (pushLeaves order freq heap).length = heap.length + freq.length := by
  induction freq generalizing order heap with
  | nil => rfl
  | cons item freq ih =>
    obtain ⟨sym, f⟩ := item
    rw [pushLeaves, ih, (heappush_perm _ _).length_eq, length_cons, length_cons]
    omega

theorem mergeHeap_symbols (rounds order : Nat) (heap : List Entry) (some_ : heap ≠ [])
    (enough : heap.length ≤ rounds + 1) :
    ∃ tree, mergeHeap rounds order heap = some tree ∧ tree.symbols.Perm (heapSymbols heap) := by
  induction rounds generalizing order heap with
  | zero =>
    match heap with
    | [] => exact absurd rfl some_
    | [entry] => exact ⟨entry.tree, rfl, by simp [heapSymbols]⟩
    | _ :: _ :: _ => simp at enough
  | succ rounds ih =>
    match heap with
    | [] => exact absurd rfl some_
    | [entry] => exact ⟨entry.tree, rfl, by simp [heapSymbols]⟩
    | first :: second :: heap =>
      let both : Entry := ⟨first.freq + second.freq, order, .node first.tree second.tree⟩
      have perm := heappush_perm both heap
      obtain ⟨tree, merged, symbols⟩ := ih (order + 1) (heappush both heap)
        (fun none => by rw [none] at perm; exact absurd perm.length_eq (by simp))
        (by rw [perm.length_eq]; simpa using enough)
      refine ⟨tree, merged, symbols.trans ((heapSymbols_push both heap).trans ?_)⟩
      change ((first.tree.symbols ++ second.tree.symbols) ++ heapSymbols heap).Perm
        (first.tree.symbols ++ (second.tree.symbols ++ heapSymbols heap))
      rw [append_assoc]

end Heap

/-! ### The merge from equal frequencies -/

/-- Trees of two heights, the lower ones in front. Filled up to their heights they have at most
`2 ^ B` leaves. -/
def TwoHeights (B : Nat) (heap : List Entry) : Prop :=
  ∃ h lower higher, heap = lower ++ higher ∧ lower ≠ [] ∧
    (∀ entry ∈ lower, entry.tree.height ≤ h) ∧ (∀ entry ∈ higher, entry.tree.height ≤ h + 1) ∧
    (lower.length + 2 * higher.length) * 2 ^ h ≤ 2 ^ B

/-- A heap in which no frequency is above twice another, and the trees are of two heights. -/
structure Level (B order : Nat) (heap : List Entry) : Prop where
  sorted : heap.Pairwise fun first second => first.freq ≤ second.freq
  narrow : ∀ first ∈ heap, ∀ second ∈ heap, first.freq ≤ 2 * second.freq
  older : ∀ entry ∈ heap, entry.order < order
  heights : TwoHeights B heap

section Balanced

variable {B order : Nat} {heap : List Entry} {first second : Entry}

theorem round_up {count h B : Nat} (bound : (2 * count + 3) * 2 ^ h ≤ 2 ^ B) :
    (count + 2) * 2 ^ (h + 1) ≤ 2 ^ B := by
  have below : h < B := by
    by_contra above
    have larger : 2 ^ B ≤ 2 ^ h := Nat.pow_le_pow_right (by omega) (by omega)
    have pos : 0 < 2 ^ h := Nat.two_pow_pos h
    nlinarith
  obtain ⟨k, rfl⟩ := Nat.exists_eq_add_of_lt below
  have split : (2 : Nat) ^ (h + k + 1) = (2 * 2 ^ k) * 2 ^ h := by ring
  rw [split] at bound ⊢
  have odd := Nat.le_of_mul_le_mul_right bound (Nat.two_pow_pos h)
  have even : count + 2 ≤ 2 ^ k := by omega
  calc (count + 2) * 2 ^ (h + 1) = (2 * (count + 2)) * 2 ^ h := by ring
    _ ≤ (2 * 2 ^ k) * 2 ^ h := Nat.mul_le_mul_right _ (Nat.mul_le_mul_left 2 even)

theorem TwoHeights.merge {both : Entry} (two : TwoHeights B (first :: second :: heap))
    (isBoth : both.tree = .node first.tree second.tree) : TwoHeights B (heap ++ [both]) := by
  have height : both.tree.height = max first.tree.height second.tree.height + 1 := by
    rw [isBoth]
    rfl
  have single : ∀ {bound : Nat}, both.tree.height ≤ bound →
      ∀ entry ∈ [both], entry.tree.height ≤ bound := fun tall entry mem => by
    rw [mem_singleton.mp mem]
    exact tall
  obtain ⟨h, lower, higher, split, notEmpty, low, high, room⟩ := two
  cases lower with
  | nil => exact absurd rfl notEmpty
  | cons head lower =>
    obtain ⟨same, behind⟩ := cons.inj split
    subst same
    have lowFirst := low first mem_cons_self
    cases lower with
    | nil =>
      -- the last lower tree and the first higher one
      cases higher with
      | nil => cases behind
      | cons head higher =>
        obtain ⟨same, rest⟩ := cons.inj behind
        subst same rest
        have highSecond := high second mem_cons_self
        have tall : both.tree.height ≤ h + 1 + 1 := by omega
        have filled : (heap.length + 2) * 2 ^ (h + 1) ≤ 2 ^ B := by
          refine round_up ?_
          simp only [length_cons, length_nil] at room
          convert room using 2
          omega
        cases heap with
        | nil =>
          refine ⟨h + 1 + 1, [both], [], rfl, cons_ne_nil _ _, single tall, nofun, ?_⟩
          calc 1 * 2 ^ (h + 1 + 1) = (0 + 2) * 2 ^ (h + 1) := by ring
            _ ≤ 2 ^ B := filled
        | cons next heap =>
          exact ⟨h + 1, next :: heap, [both], rfl, cons_ne_nil _ _,
            fun entry mem => high entry (mem_cons_of_mem _ mem), single tall, filled⟩
    | cons head lower =>
      obtain ⟨same, rest⟩ := cons.inj behind
      subst same rest
      have lowSecond := low second (mem_cons_of_mem _ mem_cons_self)
      have tall : both.tree.height ≤ h + 1 := by omega
      have ends : ∀ entry ∈ higher ++ [both], entry.tree.height ≤ h + 1 := fun entry mem =>
        (mem_append.mp mem).elim (high entry) (single tall entry)
      simp only [length_cons] at room
      cases lower with
      | nil =>
        refine ⟨h + 1, higher ++ [both], [], (append_nil _).symm, ?_, ends, nofun, ?_⟩
        · exact append_ne_nil_of_right_ne_nil _ (cons_ne_nil _ _)
        · rw [length_append, length_singleton, length_nil]
          calc (higher.length + 1 + 2 * 0) * 2 ^ (h + 1) = (0 + 1 + 1 + 2 * higher.length) * 2 ^ h := by
                ring
            _ ≤ 2 ^ B := room
      | cons next lower =>
        refine ⟨h, next :: lower, higher ++ [both], append_assoc _ _ _, cons_ne_nil _ _,
          fun entry mem => low entry (mem_cons_of_mem _ (mem_cons_of_mem _ mem)),
          ends, ?_⟩
        rw [length_append, length_singleton, length_cons]
        rw [length_cons] at room
        convert room using 2
        omega

theorem Level.merge (level : Level B order (first :: second :: heap)) :
    let both : Entry := ⟨first.freq + second.freq, order, .node first.tree second.tree⟩
    heappush both heap = heap ++ [both] ∧ Level B (order + 1) (heap ++ [both]) := by
  intro both
  obtain ⟨leastFirst, sorted⟩ := pairwise_cons.mp level.sorted
  obtain ⟨leastSecond, sorted⟩ := pairwise_cons.mp sorted
  have firstMem : first ∈ first :: second :: heap := mem_cons_self
  have inHeap : ∀ entry ∈ heap, entry ∈ first :: second :: heap := fun entry mem =>
    mem_cons_of_mem _ (mem_cons_of_mem _ mem)
  have order_ : first.freq ≤ second.freq := leastFirst second mem_cons_self
  have last : ∀ entry ∈ heap, entry.freq ≤ both.freq := fun entry mem => by
    have bound := level.narrow entry (inHeap entry mem) first firstMem
    change entry.freq ≤ first.freq + second.freq
    omega
  refine ⟨heappush_last fun entry mem => ?_, ?_, ?_, ?_, ?_⟩
  · have bound := last entry mem
    have older := level.older entry (inHeap entry mem)
    change (decide (both.freq < entry.freq) ||
      both.freq == entry.freq && decide (order < entry.order)) = false
    rw [decide_eq_false (by omega), decide_eq_false (by omega), Bool.and_false]
    rfl
  · rw [pairwise_append]
    exact ⟨sorted, pairwise_singleton _ _, fun entry mem other isBoth => by
      rw [mem_singleton.mp isBoth]
      exact last entry mem⟩
  · intro entry mem other otherMem
    rcases mem_append.mp mem with mem | isBoth
    · rcases mem_append.mp otherMem with otherMem | isBoth
      · exact level.narrow entry (inHeap entry mem) other (inHeap other otherMem)
      · rw [mem_singleton.mp isBoth]
        have bound := last entry mem
        omega
    · rw [mem_singleton.mp isBoth]
      rcases mem_append.mp otherMem with otherMem | isBoth
      · have bound := leastSecond other otherMem
        change first.freq + second.freq ≤ _
        omega
      · rw [mem_singleton.mp isBoth]
        omega
  · intro entry mem
    rcases mem_append.mp mem with mem | isBoth
    · exact (level.older entry (inHeap entry mem)).trans (Nat.lt_succ_self _)
    · rw [mem_singleton.mp isBoth]
      exact Nat.lt_succ_self _
  · exact level.heights.merge rfl

theorem TwoHeights.single {entry : Entry} (two : TwoHeights B [entry]) : entry.tree.height ≤ B := by
  obtain ⟨h, lower, higher, split, notEmpty, low, -, room⟩ := two
  cases lower with
  | nil => exact absurd rfl notEmpty
  | cons head lower =>
    obtain ⟨same, rest⟩ := cons.inj split
    subst same
    obtain ⟨rfl, rfl⟩ := append_eq_nil_iff.mp rest.symm
    rw [length_singleton, length_nil, Nat.mul_zero, add_zero, one_mul] at room
    exact (low entry mem_cons_self).trans ((Nat.pow_le_pow_iff_right (by omega)).mp room)

theorem Level.height {rounds : Nat} {tree : CodeTree Nat} (level : Level B order heap)
    (merged : mergeHeap rounds order heap = some tree) : tree.height ≤ B := by
  induction rounds generalizing order heap with
  | zero =>
    match heap with
    | [] => cases merged
    | [entry] =>
      cases merged
      exact level.heights.single
    | _ :: _ :: _ => cases merged
  | succ rounds ih =>
    match heap with
    | [] => cases merged
    | [entry] =>
      cases merged
      exact level.heights.single
    | first :: second :: heap =>
      obtain ⟨pushed, next⟩ := level.merge
      rw [mergeHeap, pushed] at merged
      exact ih next merged

end Balanced

/-! ### The lengths -/

structure PrefixLengths (syms : List Nat) (lengths : List (Nat × Nat)) : Prop where
  symbols : (lengths.map Prod.fst).Perm syms
  positive : ∀ item ∈ lengths, 1 ≤ item.2
  kraft : ∀ L, (∀ item ∈ lengths, item.2 ≤ L) →
    (lengths.map fun item => 2 ^ (L - item.2)).sum ≤ 2 ^ L

theorem pushLeaves_equal {F : Nat} (freq : List (Nat × Nat)) (order : Nat) (heap : List Entry)
    (equal : ∀ item ∈ freq, item.2 = F)
    (pre : ∀ entry ∈ heap, entry.freq = F ∧ entry.order < order ∧ entry.tree.height = 0) :
    ∀ entry ∈ pushLeaves order freq heap,
      entry.freq = F ∧ entry.order < order + freq.length ∧ entry.tree.height = 0 := by
  induction freq generalizing order heap with
  | nil => exact pre
  | cons item freq ih =>
    obtain ⟨sym, f⟩ := item
    intro entry mem
    have later := ih (order + 1) (heappush ⟨f, order, .leaf sym⟩ heap)
      (fun other isOther => equal other (mem_cons_of_mem _ isOther)) ?_ entry mem
    · rw [length_cons]
      exact ⟨later.1, by omega, later.2.2⟩
    · intro other isOther
      rcases mem_cons.mp ((heappush_perm _ _).mem_iff.mp isOther) with rfl | isOther
      · exact ⟨equal (sym, f) mem_cons_self, Nat.lt_succ_self _, rfl⟩
      · have old := pre other isOther
        exact ⟨old.1, by omega, old.2.2⟩

variable {freq : List (Nat × Nat)}

/-- Every symbol gets a length, and the lengths satisfy Kraft's inequality. -/
theorem huffmanLengths_spec (some_ : freq ≠ []) :
    ∃ lengths, huffmanLengths freq = some lengths ∧ PrefixLengths (freq.map Prod.fst) lengths ∧
      (∀ F B, 1 ≤ B → (∀ item ∈ freq, item.2 = F) → freq.length ≤ 2 ^ B →
        ∀ item ∈ lengths, item.2 ≤ B) ∧
      ((∃ sym, lengths = [(sym, 1)]) ∨ ∀ L, (∀ item ∈ lengths, item.2 ≤ L) →
        (lengths.map fun item => 2 ^ (L - item.2)).sum = 2 ^ L) := by
  obtain ⟨sym, f, rfl⟩ | several : (∃ sym f, freq = [(sym, f)]) ∨ 2 ≤ freq.length := by
    match freq with
    | [] => exact absurd rfl some_
    | [(sym, f)] => exact .inl ⟨sym, f, rfl⟩
    | _ :: _ :: _ => exact .inr (by simp)
  · refine ⟨[(sym, 1)], rfl, ⟨.refl _, ?_, ?_⟩, ?_, .inl ⟨sym, rfl⟩⟩
    · intro item mem
      rw [mem_singleton.mp mem]
    · intro L _
      rw [map_singleton, sum_singleton]
      exact Nat.pow_le_pow_right (by omega) (Nat.sub_le _ _)
    · intro F B one _ _ item mem
      rw [mem_singleton.mp mem]
      exact one
  · have count := length_pushLeaves freq 0 []
    rw [length_nil, Nat.zero_add] at count
    obtain ⟨tree, merged, symbols⟩ := mergeHeap_symbols freq.length freq.length
      (pushLeaves 0 freq []) (fun none => by rw [none] at count; simp at count; omega) (by omega)
    replace symbols := symbols.trans (heapSymbols_pushLeaves freq 0 [])
    rw [show heapSymbols [] = [] from rfl, append_nil] at symbols
    have unfolded : huffmanLengths freq =
        some ((tree.leaves 0).map fun leaf => (leaf.1, max leaf.2 1)) := by
      match freq, several with
      | _ :: _ :: _, _ =>
        unfold huffmanLengths
        dsimp only
        rw [merged]
        rfl
    obtain ⟨left, right, rfl⟩ : ∃ left right, tree = .node left right := by
      cases tree with
      | leaf symbol =>
        have alone := symbols.length_eq
        rw [length_map] at alone
        change 1 = _ at alone
        omega
      | node left right => exact ⟨left, right, rfl⟩
    have deep : ∀ leaf ∈ (CodeTree.node left right).leaves 0, max leaf.2 1 = leaf.2 := by
      intro leaf mem
      rw [CodeTree.leaves] at mem
      rcases mem_append.mp mem with mem | mem
      · exact max_eq_left (left.leaves_bounds _ leaf mem).1
      · exact max_eq_left (right.leaves_bounds _ leaf mem).1
    have full : ∀ L,
        (∀ item ∈ ((CodeTree.node left right).leaves 0).map fun leaf => (leaf.1, max leaf.2 1),
          item.2 ≤ L) →
        ((((CodeTree.node left right).leaves 0).map fun leaf => (leaf.1, max leaf.2 1)).map
          fun item => 2 ^ (L - item.2)).sum = 2 ^ L := by
      intro L short
      rw [map_map]
      have same : ((CodeTree.node left right).leaves 0).map
          ((fun item => 2 ^ (L - item.2)) ∘ fun leaf : Nat × Nat => (leaf.1, max leaf.2 1)) =
          ((CodeTree.node left right).leaves 0).map fun leaf => 2 ^ (L - leaf.2) :=
        map_congr_left fun leaf mem => by
          change 2 ^ (L - max leaf.2 1) = _
          rw [deep leaf mem]
      rw [same, CodeTree.kraft _ fun leaf mem => ?_, Nat.sub_zero]
      have bound := short _ (mem_map_of_mem mem)
      rwa [deep leaf mem] at bound
    refine ⟨_, unfolded, ⟨?_, ?_, fun L short => (full L short).le⟩, ?_, .inr full⟩
    · rw [map_map]
      change (((CodeTree.node left right).leaves 0).map Prod.fst).Perm _
      rw [CodeTree.leaves_symbols]
      exact symbols
    · intro item mem
      obtain ⟨leaf, -, rfl⟩ := mem_map.mp mem
      exact le_max_right _ _
    · intro F B _ equal few item mem
      obtain ⟨leaf, isLeaf, rfl⟩ := mem_map.mp mem
      have alike := pushLeaves_equal freq 0 [] equal fun _ none => absurd none not_mem_nil
      have level : Level B freq.length (pushLeaves 0 freq []) := by
        refine ⟨?_, fun first isFirst second isSecond => ?_, fun entry isEntry => ?_, ?_⟩
        · refine pairwise_of_forall_mem_list fun first isFirst second isSecond => ?_
          rw [(alike first isFirst).1, (alike second isSecond).1]
        · rw [(alike first isFirst).1, (alike second isSecond).1]
          omega
        · have older := (alike entry isEntry).2.1
          omega
        · refine ⟨0, _, [], (append_nil _).symm, ?_, fun entry isEntry => ?_,
            fun _ none => absurd none not_mem_nil, ?_⟩
          · intro none
            rw [none] at count
            simp at count
            omega
          · exact (alike entry isEntry).2.2.le
          · simpa [count] using few
      have bound := ((CodeTree.node left right).leaves_bounds 0 leaf isLeaf).2
      have height := level.height merged
      change max leaf.2 1 ≤ B
      rw [deep leaf isLeaf]
      omega

theorem huffmanLengths_code {freq lengths : List (Nat × Nat)}
    (computed : huffmanLengths freq = some lengths) (some_ : freq.map Prod.fst ≠ []) :
    PrefixLengths (freq.map Prod.fst) lengths := by
  obtain ⟨other, again, code, -⟩ :=
    huffmanLengths_spec fun none : freq = [] => some_ (map_eq_nil_iff.mpr none)
  rwa [← Option.some_inj.mp (computed.symm.trans again)] at code

variable {lengths : List (Nat × Nat)}

theorem foldr_max_le {lmax : Nat} :
    (lengths.map Prod.snd).foldr max 0 ≤ lmax ↔ ∀ item ∈ lengths, item.2 ≤ lmax := by
  induction lengths with
  | nil => simp
  | cons item lengths ih => simp [ih]

theorem limitLengths_round {lmax rounds floor : Nat} {f lengths : List (Nat × Nat)}
    (computed : huffmanLengths f = some lengths) :
    limitLengths lmax (rounds + 1) floor f =
      if (lengths.map Prod.snd).foldr max 0 ≤ lmax then some lengths
      else limitLengths lmax rounds (floor * 2)
        (f.map fun entry => (entry.1, max entry.2 (floor * 2))) := by
  rw [limitLengths, computed]
  rfl

theorem limitLengths_spec {lmax M : Nat} (pos : 1 ≤ lmax) (rounds floor : Nat)
    (f : List (Nat × Nat)) (some_ : f ≠ []) (few : f.length ≤ 2 ^ lmax)
    (floored : ∀ item ∈ f, (rounds = 0 → floor ≤ item.2) ∧ item.2 ≤ max M floor)
    (enough : M ≤ floor * 2 ^ rounds) :
    ∃ counts lengths, limitLengths lmax (rounds + 1) floor f = some lengths ∧
      counts.map Prod.fst = f.map Prod.fst ∧ huffmanLengths counts = some lengths ∧
      ∀ item ∈ lengths, item.2 ≤ lmax := by
  obtain ⟨lengths, computed, -, short, -⟩ := huffmanLengths_spec some_
  induction rounds generalizing floor f lengths with
  | zero =>
    have within := short floor lmax pos (fun item mem => by
      have bounds := floored item mem
      rw [pow_zero, mul_one] at enough
      omega) few
    exact ⟨f, lengths, (limitLengths_round computed).trans (if_pos (foldr_max_le.mpr within)), rfl,
      computed, within⟩
  | succ rounds ih =>
    rw [limitLengths_round computed]
    by_cases done : (lengths.map Prod.snd).foldr max 0 ≤ lmax
    · exact ⟨f, lengths, if_pos done, rfl, computed, foldr_max_le.mp done⟩
    · have next : f.map (fun entry => (entry.1, max entry.2 (floor * 2))) ≠ [] := fun none =>
        some_ (map_eq_nil_iff.mp none)
      obtain ⟨first, again, -, below, -⟩ := huffmanLengths_spec next
      obtain ⟨counts, res, ended, same, isResult, within⟩ := ih (floor * 2) _ next
        (by rwa [length_map])
        (fun item mem => by
          obtain ⟨entry, isEntry, rfl⟩ := mem_map.mp mem
          have bounds := floored entry isEntry
          omega)
        (by rw [pow_succ'] at enough; rwa [mul_assoc]) first again below
      rw [map_map] at same
      exact ⟨counts, res, (if_neg done).trans ended, same, isResult, within⟩

theorem lengthLimitedLengths_spec {lmax : Nat} (some_ : freq ≠ [])
    (few : freq.length ≤ 2 ^ lmax) (pos : 1 ≤ lmax) :
    ∃ counts lengths, lengthLimitedLengths freq lmax = some lengths ∧
      counts.map Prod.fst = freq.map Prod.fst ∧ huffmanLengths counts = some lengths ∧
      ∀ item ∈ lengths, item.2 ≤ lmax := by
  refine limitLengths_spec pos _ 1 freq some_ few (M := (freq.map Prod.snd).sum)
    (fun item mem => ⟨fun none => absurd none (Nat.succ_ne_zero _), ?_⟩) ?_
  · exact (le_sum_of_mem (mem_map_of_mem mem)).trans (le_max_left _ _)
  · rw [one_mul]
    exact (Nat.le_succ _).trans Nat.lt_two_pow_self.le

/-! ### The canonical codes -/

instance : Std.Total canonicalOrder :=
  ⟨fun first second => by
    unfold canonicalOrder
    omega⟩

instance : IsTrans (Nat × Nat) canonicalOrder :=
  ⟨fun first second third below later => by
    unfold canonicalOrder at *
    omega⟩

section Canonical

variable {lmax : Nat}

theorem nextCodes_consecutive (items : List (Nat × Nat)) (code prevLen : Nat)
    (sorted : items.Pairwise canonicalOrder) (longer : ∀ item ∈ items, prevLen ≤ item.2)
    (short : ∀ item ∈ items, item.2 ≤ lmax) :
    Consecutive lmax ((code + 1) <<< (lmax - prevLen)) (nextCodes code prevLen items) := by
  induction items generalizing code prevLen with
  | nil => exact .nil _
  | cons item items ih =>
    obtain ⟨sym, length⟩ := item
    obtain ⟨least, sorted⟩ := pairwise_cons.mp sorted
    have here := short _ mem_cons_self
    have above := longer _ mem_cons_self
    let next : Code Nat := ⟨sym, (code + 1) <<< (length - prevLen), length⟩
    have place : (code + 1) <<< (lmax - prevLen) = next.base lmax := by
      rw [next.base_eq, Nat.shiftLeft_eq]
      change _ = (code + 1) <<< (length - prevLen) * 2 ^ (lmax - length)
      rw [Nat.shiftLeft_eq, mul_assoc, ← pow_add]
      congr 2
      omega
    have later := ih next.code length sorted
      (fun other mem => by
        have order := least other mem
        unfold canonicalOrder at order
        omega)
      fun other mem => short other (mem_cons_of_mem _ mem)
    have ends : (next.code + 1) <<< (lmax - length) = next.base lmax + next.span lmax := by
      rw [next.base_eq, next.span_eq, Nat.shiftLeft_eq, Nat.succ_mul]
    rw [ends] at later
    rw [place, nextCodes]
    exact .cons here later

theorem nextCodes_lengths (items : List (Nat × Nat)) (code prevLen : Nat) :
    (nextCodes code prevLen items).map (fun code => (code.symbol, code.length)) = items := by
  induction items generalizing code prevLen with
  | nil => rfl
  | cons item items ih => rw [nextCodes, map_cons, ih]

theorem canonicalCodes_lengths (lengths : List (Nat × Nat)) :
    ((canonicalCodes lengths).map fun code => (code.symbol, code.length)).Perm lengths := by
  have perm := lengths.perm_insertionSort canonicalOrder
  unfold canonicalCodes
  split
  · next none =>
    rw [none] at perm
    exact perm
  · next sym length items split =>
    rw [split] at perm
    rw [map_cons, nextCodes_lengths]
    exact perm

/-- The intervals of the canonical codes follow one another. -/
theorem canonicalCodes_consecutive
    (short : ∀ item ∈ lengths, item.2 ≤ lmax) :
    Consecutive lmax 0 (canonicalCodes lengths) := by
  have perm := lengths.perm_insertionSort canonicalOrder
  have sorted := lengths.pairwise_insertionSort canonicalOrder
  unfold canonicalCodes
  split
  · exact .nil _
  · next sym length items split =>
    rw [split] at perm sorted
    obtain ⟨least, sorted⟩ := pairwise_cons.mp sorted
    have within : ∀ item ∈ (sym, length) :: items, item.2 ≤ lmax := fun item mem =>
      short item (perm.mem_iff.mp mem)
    let first : Code Nat := ⟨sym, 0, length⟩
    have start : first.base lmax = 0 := Nat.zero_shiftLeft _
    have later := @nextCodes_consecutive lmax items 0 length sorted
      (fun other mem => by
        have order := least other mem
        unfold canonicalOrder at order
        omega)
      fun other mem => within other (mem_cons_of_mem _ mem)
    have ends : (0 + 1) <<< (lmax - length) = first.base lmax + first.span lmax := by
      rw [start, zero_add, zero_add]
      rfl
    rw [ends] at later
    have placed : Consecutive lmax (first.base lmax) (first :: nextCodes 0 length items) :=
      .cons (within _ mem_cons_self) later
    rw [start] at placed
    exact placed

theorem spans_canonicalCodes (lengths : List (Nat × Nat)) :
    spans lmax (canonicalCodes lengths) = (lengths.map fun item => 2 ^ (lmax - item.2)).sum := by
  have same : (canonicalCodes lengths).map (fun code => code.span lmax) =
      ((canonicalCodes lengths).map fun code => (code.symbol, code.length)).map
        fun item => 2 ^ (lmax - item.2) := by
    rw [map_map]
    exact map_congr_left fun code _ => code.span_eq lmax
  unfold spans
  rw [same, ((canonicalCodes_lengths lengths).map _).sum_eq]

theorem canonicalCodes_spans {syms : List Nat}
    (code : PrefixLengths syms lengths) (short : ∀ item ∈ lengths, item.2 ≤ lmax) :
    spans lmax (canonicalCodes lengths) ≤ 2 ^ lmax :=
  (spans_canonicalCodes lengths).trans_le (code.kraft lmax short)

/-- Lengths that fill the table, and codes of them, each on an interval of its own. -/
structure LimitedCode (syms : List Nat) (lmax : Nat) (lengths : List (Nat × Nat))
    (codes : List (Code Nat)) : Prop where
  symbols : (lengths.map Prod.fst).Perm syms
  bounded : ∀ item ∈ lengths, 1 ≤ item.2 ∧ item.2 ≤ lmax
  kraft : (∃ sym, lengths = [(sym, 1)]) ∨
    (lengths.map fun item => 2 ^ (lmax - item.2)).sum = 2 ^ lmax
  coded : (codes.map fun code => (code.symbol, code.length)).Perm lengths
  fits : ∀ code ∈ codes, code.code < 2 ^ code.length
  prefixFree : ∀ first ∈ codes, ∀ second ∈ codes, first.symbol ≠ second.symbol →
    first.length ≤ second.length → second.code >>> (second.length - first.length) ≠ first.code
  disjoint : ∀ first ∈ codes, ∀ second ∈ codes, first.symbol ≠ second.symbol →
    ∀ v, second.Covers lmax v → ¬first.Covers lmax v
  covered : (∃ sym, lengths = [(sym, 1)]) ∨ ∀ v < 2 ^ lmax, ∃ code ∈ codes, code.Covers lmax v

/-- **The flooring ends, and the canonical codes of its lengths are prefix-free and fill the
table.** -/
theorem lengthLimitedLengths_code (some_ : freq ≠ [])
    (few : freq.length ≤ 2 ^ lmax) (pos : 1 ≤ lmax) :
    ∃ lengths, lengthLimitedLengths freq lmax = some lengths ∧
      LimitedCode (freq.map Prod.fst) lmax lengths (canonicalCodes lengths) := by
  obtain ⟨counts, lengths, computed, same, isHuffman, short⟩ :=
    lengthLimitedLengths_spec some_ few pos
  obtain ⟨other, again, code, -, full⟩ := @huffmanLengths_spec counts fun none => some_ (by
    rw [none] at same
    exact map_eq_nil_iff.mp same.symm)
  cases Option.some_inj.mp (isHuffman.symm.trans again)
  have consecutive := canonicalCodes_consecutive short
  have filled := full.imp_right fun full => full lmax short
  rw [same] at code
  refine ⟨lengths, computed, code.symbols, fun item mem => ⟨code.positive item mem,
    short item mem⟩, filled, canonicalCodes_lengths lengths,
    fun _ => consecutive.fits (canonicalCodes_spans code short),
    fun _ isFirst _ isSecond ne => (consecutive.other isSecond isFirst ne).1,
    fun _ isFirst _ isSecond ne => (consecutive.other isSecond isFirst ne).2,
    filled.imp_right fun filled v lt => consecutive.covered (Nat.zero_le v) ?_⟩
  rwa [Nat.zero_add, spans_canonicalCodes, filled]

theorem lengthLimitedLengths_code_three :
    ∃ lengths, lengthLimitedLengths [(7, 5), (8, 1), (9, 1)] 2 = some lengths ∧
      LimitedCode [7, 8, 9] 2 lengths (canonicalCodes lengths) :=
  lengthLimitedLengths_code (List.cons_ne_nil _ _) (by decide) (by decide)

/-- A code of no bits never comes out, not even for one symbol. -/
theorem limitLengths_bitless :
    ¬∃ rounds lengths, limitLengths 0 rounds 1 [(7, 5)] = some lengths := by
  have endless : ∀ rounds floor count, limitLengths 0 rounds floor [(7, count)] = none := by
    intro rounds
    induction rounds with
    | zero => exact fun _ _ => rfl
    | succ rounds ih => exact fun floor count => ih (floor * 2) (max count (floor * 2))
  rintro ⟨rounds, lengths, ended⟩
  rw [endless] at ended
  cases ended

end Canonical

/-! ### The tables -/

/-- The table gives back a symbol, with the length of its code, on every word that begins with its
code. -/
structure Decodes (tables : Tables) (lmax sym : Nat) : Prop where
  positive : 1 ≤ tables.lenArr sym
  short : tables.lenArr sym ≤ lmax
  fits : tables.codeArr sym < 2 ^ tables.lenArr sym
  found : ∀ rest < 2 ^ (lmax - tables.lenArr sym),
    tables.lut[tables.codeArr sym * 2 ^ (lmax - tables.lenArr sym) + rest]? =
      some (sym <<< 8 ||| tables.lenArr sym)

variable {codes : List (Code Nat)}

theorem foldl_update (value : Code Nat → Nat) {code : Code Nat}
    (nodup : (codes.map Code.symbol).Nodup) (mem : code ∈ codes) (arr : Nat → Nat) :
    codes.foldl (fun arr code => Function.update arr code.symbol (value code)) arr code.symbol =
      value code := by
  have other : ∀ (codes : List (Code Nat)) (arr : Nat → Nat) (sym : Nat),
      sym ∉ codes.map Code.symbol →
      codes.foldl (fun arr code => update arr code.symbol (value code)) arr sym = arr sym := by
    intro codes
    induction codes with
    | nil => exact fun _ _ _ => rfl
    | cons head codes ih =>
      intro arr sym absent
      rw [map_cons, mem_cons, not_or] at absent
      rw [foldl_cons, ih _ _ absent.2, update_of_ne absent.1]
  induction codes generalizing arr with
  | nil => exact absurd mem not_mem_nil
  | cons head codes ih =>
    obtain ⟨new, nodup⟩ := nodup_cons.mp nodup
    rw [foldl_cons]
    rcases mem_cons.mp mem with rfl | mem
    · rw [other codes _ _ new, update_self]
    · exact ih nodup mem _

structure CodesOf (hist : Nat → Nat) (lmax : Nat) (codes : List (Code Nat)) : Prop where
  consecutive : Consecutive lmax 0 codes
  kraft : spans lmax codes ≤ 2 ^ lmax
  positive : ∀ code ∈ codes, 1 ≤ code.length
  distinct : (codes.map Code.symbol).Nodup
  symbols : ∀ sym, sym ∈ codes.map Code.symbol ↔ sym < 256 ∧ hist sym ≠ 0

variable {hist : Nat → Nat} {lmax : Nat}

theorem frequencies_symbols (hist : Nat → Nat) :
    (frequencies hist).map Prod.fst = (List.range 256).filter fun sym => hist sym ≠ 0 := by
  unfold frequencies
  rw [map_map]
  exact map_id _

theorem codesOf_spec (wide : 8 ≤ lmax) {sym : Nat} (byte : sym < 256) (occurs : hist sym ≠ 0) :
    ∃ lengths, lengthLimitedLengths (frequencies hist) lmax = some lengths ∧
      (∀ item ∈ lengths, item.2 ≤ lmax) ∧ CodesOf hist lmax (canonicalCodes lengths) := by
  have isSymbol : ∀ sym, sym ∈ (frequencies hist).map Prod.fst ↔ sym < 256 ∧ hist sym ≠ 0 := by
    intro sym
    rw [frequencies_symbols, mem_filter, mem_range, decide_eq_true_iff]
  have few : (frequencies hist).length ≤ 256 := by
    have bound := (filter_sublist (p := fun sym => decide (hist sym ≠ 0))
      (l := range 256)).length_le
    rwa [length_range, ← frequencies_symbols, length_map] at bound
  have room : 2 ^ 8 ≤ 2 ^ lmax := Nat.pow_le_pow_right (two_pos) wide
  have some_ : (frequencies hist).map Prod.fst ≠ [] :=
    ne_nil_of_mem ((isSymbol sym).mpr ⟨byte, occurs⟩)
  obtain ⟨counts, lengths, computed, same, isHuffman, short⟩ := @lengthLimitedLengths_spec
    (frequencies hist) lmax (fun none => some_ (map_eq_nil_iff.mpr none))
    (few.trans room) (by omega)
  have code := huffmanLengths_code isHuffman (by rwa [same])
  rw [same] at code
  have perm := canonicalCodes_lengths lengths
  have symbols : ((canonicalCodes lengths).map Code.symbol).Perm
      ((frequencies hist).map Prod.fst) := by
    have first := (perm.map Prod.fst).trans code.symbols
    rwa [map_map] at first
  refine ⟨lengths, computed, short, canonicalCodes_consecutive short,
    canonicalCodes_spans code short, fun item mem => ?_, ?_, fun sym => ?_⟩
  · exact code.positive _ (perm.mem_iff.mp (mem_map_of_mem mem))
  · rw [symbols.nodup_iff, frequencies_symbols]
    exact nodup_range.filter _
  · rw [symbols.mem_iff, isSymbol]

theorem huffmanTables_eq (computed : lengthLimitedLengths (frequencies hist) lmax = some lengths) :
    huffmanTables hist lmax = some
      { lut := buildLut (canonicalCodes lengths) lmax
        codeArr := (canonicalCodes lengths).foldl
          (fun arr code => Function.update arr code.symbol code.code) fun _ => 0
        lenArr := (canonicalCodes lengths).foldl
          (fun arr code => Function.update arr code.symbol code.length) fun _ => 0 } := by
  unfold huffmanTables
  rw [computed]
  rfl

theorem buildLut_get (isCode : CodesOf hist lmax codes)
    {code : Code Nat} (mem : code ∈ codes) {rest : Nat} (small : rest < 2 ^ (lmax - code.length)) :
    (buildLut codes lmax)[code.code * 2 ^ (lmax - code.length) + rest]? =
      some (code.symbol <<< 8 ||| code.length) := by
  have within := isCode.consecutive.within mem
  have covers : code.Covers lmax (code.code * 2 ^ (lmax - code.length) + rest) := by
    unfold Code.Covers
    rw [code.base_eq, code.span_eq]
    omega
  have lt : code.code * 2 ^ (lmax - code.length) + rest < 1 <<< lmax := by
    have upper := covers.2.trans_le within.2.2
    rw [Nat.shiftLeft_eq, one_mul]
    have kraft := isCode.kraft
    omega
  unfold buildLut
  rw [getElem?_map, getElem?_range lt, Option.map_some, fill_apply isCode.consecutive mem covers]

/-- A code of some symbols, none of which begins another, and a table that decodes it. -/
structure PrefixTable (codes : List (Code Nat)) (lut : List Nat) (lmax : Nat) (syms : List Nat) :
    Prop where
  every : ∀ sym ∈ syms, sym ∈ codes.map Code.symbol
  sized : ∀ code ∈ codes, 1 ≤ code.length ∧ code.length ≤ lmax ∧ code.code < 2 ^ code.length
  prefixFree : ∀ first ∈ codes, ∀ second ∈ codes, first.symbol ≠ second.symbol →
    first.length ≤ second.length → second.code >>> (second.length - first.length) ≠ first.code
  decoded : ∀ code ∈ codes, ∀ v, v >>> (lmax - code.length) = code.code →
    lut[v]? = some (code.symbol <<< 8 ||| code.length)

theorem CodesOf.prefixTable (isCode : CodesOf hist lmax codes)
    {syms : List Nat} (occur : ∀ sym ∈ syms, sym < 256 ∧ hist sym ≠ 0) :
    PrefixTable codes (buildLut codes lmax) lmax syms := by
  constructor
  · intro sym mem
    exact (isCode.symbols sym).mpr (occur sym mem)
  · intro code mem
    exact ⟨isCode.positive code mem, (isCode.consecutive.within mem).1,
      isCode.consecutive.fits isCode.kraft mem⟩
  · intro first isFirst second isSecond ne
    exact (isCode.consecutive.other isSecond isFirst ne).1
  · intro code mem v begins
    have whole := Nat.div_add_mod v (2 ^ (lmax - code.length))
    rw [Nat.shiftRight_eq_div_pow] at begins
    rw [begins, mul_comm] at whole
    rw [← whole]
    exact buildLut_get isCode mem (Nat.mod_lt _ (Nat.two_pow_pos _))

/-- The table gives back each symbol that occurs, with its length. -/
theorem huffmanTables_spec (wide : 8 ≤ lmax) {sym : Nat} (byte : sym < 256)
    (occurs : hist sym ≠ 0) :
    ∃ tables lengths, huffmanTables hist lmax = some tables ∧
      lengthLimitedLengths (frequencies hist) lmax = some lengths ∧
      tables.lut = buildLut (canonicalCodes lengths) lmax ∧
      CodesOf hist lmax (canonicalCodes lengths) ∧
      ∀ sym < 256, hist sym ≠ 0 → Decodes tables lmax sym := by
  obtain ⟨lengths, computed, -, isCode⟩ := codesOf_spec wide byte occurs
  refine ⟨_, lengths, huffmanTables_eq computed, computed, rfl, isCode, fun sym byte occurs => ?_⟩
  obtain ⟨code, mem, rfl⟩ := mem_map.mp ((isCode.symbols sym).mpr ⟨byte, occurs⟩)
  have isLen := foldl_update Code.length isCode.distinct mem fun _ => 0
  have isCode_ := foldl_update Code.code isCode.distinct mem fun _ => 0
  have within := isCode.consecutive.within mem
  constructor
  · dsimp only
    rw [isLen]
    exact isCode.positive code mem
  · dsimp only
    rw [isLen]
    exact within.1
  · dsimp only
    rw [isLen, isCode_]
    exact isCode.consecutive.fits isCode.kraft mem
  · dsimp only
    rw [isLen, isCode_]
    exact fun rest small => buildLut_get isCode mem small

end FreeToken.Df11
