/-
**The sparse selection is exact.**

* `indexerSelect_packs`, `torchTopBlocks_packs`: the picks of every path are the best complete
  groups, packed;
* `DsaIndexer.decode_names`, `KpoolIndexer.decode_names`, `QsaIndexer.selectRow_names`: **a query
  lists the tokens of its best groups and of its open group**;
* `DsaIndexer.selectPrefill_names`, `KpoolIndexer.selectPrefill_names`: the queries of a request, in
  chunks of any size.
-/

import FreeToken.Attention.SelectedTokens

namespace FreeToken

open List Function

variable {σ : Type} [LinearOrder σ]

def DistinctScores (score : Nat → σ) (live : Nat) : Prop :=
  ∀ i < live, ∀ j < live, score i = score j → i = j

omit [LinearOrder σ] in
theorem scoreAt_range (cols : Nat) (score : Nat → WithBot σ) (i : Nat) :
    scoreAt ((List.range cols).map score) i = if i < cols then score i else ⊥ := by
  unfold scoreAt
  by_cases lt : i < cols
  · rw [if_pos lt, getD_eq_getElem _ _ (by simpa using lt), getElem_map, getElem_range]
  · rw [if_neg lt, getD_eq_default _ _ (by simpa using lt)]

/-! ### Picks -/

variable {score : Nat → σ}

section Picks

variable (torch : TorchTopk σ)

def indexerPicks (score : Nat → σ) (nBlocks position ratio topk : Nat) : List Int :=
  let live := (position + 1) / ratio
  let masked := (List.range nBlocks).map fun blk => if live ≤ blk then ⊥ else (score blk : WithBot σ)
  (torch.topk masked (min topk nBlocks)).map fun pick : Nat => if live ≤ pick then (-1 : Int) else pick

theorem indexerSelectPrefill_eq (scores : Nat → Nat → σ)
    (nBlocks startPos seqlen ratio topk : Nat) :
    indexerSelectPrefill torch scores nBlocks startPos seqlen ratio topk 0 =
      (List.range seqlen).map fun s =>
        indexerPicks torch (scores s) nBlocks (startPos + s) ratio topk := by
  unfold indexerSelectPrefill indexerPicks
  simp [add_assoc]

theorem indexerPicks_packs {nBlocks position ratio : Nat} (topk : Nat)
    (within : (position + 1) / ratio ≤ nBlocks)
    (distinct : DistinctScores score ((position + 1) / ratio)) :
    PacksBest score ((position + 1) / ratio) (min topk nBlocks)
      (indexerPicks torch score nBlocks position ratio topk) := by
  have length : ((range nBlocks).map fun blk =>
      if (position + 1) / ratio ≤ blk then ⊥ else (score blk : WithBot σ)).length = nBlocks := by
    simp
  refine (torch.isTopK _ _ (by rw [length]; exact min_le_right _ _)).packs
    (by rw [length]; exact within) (fun i isLive => ?_) (fun i isDead => ?_) distinct
  · rw [scoreAt_range, if_pos (by omega), if_neg (by omega)]
  · rw [scoreAt_range, if_pos isDead, ite_self]

theorem indexerSelectDecode_packs {width valid : Nat} (topk : Nat)
    (within : valid ≤ width) (distinct : DistinctScores score valid) :
    PacksBest score valid (min topk width)
      (indexerSelectDecode torch (dsaDecodeScores score width valid) valid topk 0) := by
  have length : (dsaDecodeScores score width valid).length = width := by simp [dsaDecodeScores]
  have offset : indexerSelectDecode torch (dsaDecodeScores score width valid) valid topk 0 =
      (torch.topk (dsaDecodeScores score width valid) (min topk width)).map fun pick : Nat =>
        if valid ≤ pick then (-1 : Int) else (pick : Int) := by
    unfold indexerSelectDecode
    rw [length]
    simp
  rw [offset]
  refine (torch.isTopK _ _ (by rw [length]; exact min_le_right _ _)).packs
    (by rw [length]; exact within) (fun i isLive => ?_) (fun i isDead => ?_) distinct
  · unfold dsaDecodeScores
    rw [scoreAt_range, if_pos (by omega), if_pos isLive]
  · unfold dsaDecodeScores
    rw [scoreAt_range, if_neg (by omega : ¬ i < valid), ite_self]

theorem PacksBest.pad {live cols k : Nat} {picks : List Int}
    (packs : PacksBest score live (min k cols) picks) (within : live ≤ cols) :
    PacksBest score live k (picks ++ List.replicate (k - min k cols) (-1)) := by
  obtain ⟨order, nodup, length, best, rfl⟩ := packs
  refine ⟨order, nodup, by omega, ?_, ?_⟩
  · rw [best, bestBelow_min score within]
  · rw [append_assoc, replicate_append_replicate]
    congr 2
    omega

theorem torchTopBlocks_packs {logits : List (WithBot σ)} {visible : Nat} (k : Nat) {score : Nat → σ}
    (within : visible ≤ logits.length) (alive : ∀ i < visible, scoreAt logits i = score i)
    (distinct : DistinctScores score visible) :
    PacksBest score visible k (torchTopBlocks torch logits visible k) := by
  have length : ((range logits.length).map fun col =>
      if visible ≤ col then ⊥ else scoreAt logits col).length = logits.length := by simp
  have masked : ∀ i, scoreAt ((range logits.length).map fun col =>
      if visible ≤ col then ⊥ else scoreAt logits col) i =
        if i < visible then (score i : WithBot σ) else ⊥ := by
    intro i
    rw [scoreAt_range]
    by_cases isLive : i < visible
    · rw [if_pos (by omega), if_neg (by omega), if_pos isLive, alive i isLive]
    · rw [if_pos (by omega : visible ≤ i), ite_self, if_neg isLive]
  have top := torch.isTopK ((range logits.length).map fun col =>
      if visible ≤ col then ⊥ else scoreAt logits col) (min k logits.length)
    (by rw [length]; exact min_le_right _ _)
  have alive' : ∀ i < visible, scoreAt ((range logits.length).map fun col =>
      if visible ≤ col then ⊥ else scoreAt logits col) i = score i := by
    intro i isLive
    rw [masked, if_pos isLive]
  have packs := top.packs (by rw [length]; exact within) alive'
    (fun i isDead => by rw [masked, if_neg (by omega)]) distinct
  refine PacksBest.pad ?_ within
  convert packs using 3 with pick
  rw [masked]
  by_cases isLive : pick < visible
  · rw [if_pos isLive, if_pos (WithBot.bot_lt_coe _), if_neg (by omega)]
  · rw [if_neg isLive, if_neg (lt_irrefl _), if_pos (by omega)]

/-- The block top-k of the path through `torch.topk`. -/
def BlockTopk.ofTorch : BlockTopk σ where
  run := torchTopBlocks torch
  packs _ _ k _ within alive distinct := torchTopBlocks_packs torch k within alive distinct

end Picks

/-! ### One query -/

def LiveRows (rows : List Int) (position : Nat) : Prop :=
  ∀ token ≤ position, token < rows.length ∧ 0 ≤ rows.getD token (-1)

theorem LiveRows.nonempty {rows : List Int} {position : Nat} (live : LiveRows rows position) :
    rows ≠ [] := by
  rintro rfl
  exact absurd (live 0 (Nat.zero_le _)).1 (Nat.not_lt_zero _)

theorem selectedTokens_min (score : Nat → σ) {ratio position cols : Nat}
    (within : (position + 1) / ratio ≤ cols) (k : Nat) :
    selectedTokens score ratio (min k cols) position = selectedTokens score ratio k position := by
  unfold selectedTokens
  rw [bestBelow_min score within]

theorem flatMap_group_one (order : List Nat) : order.flatMap (groupTokens 1) = order := by
  induction order with
  | nil => rfl
  | cons group order ih =>
    rw [flatMap_cons, ih]
    simp [groupTokens]

theorem dsaMapRows_names {k position : Nat} {picks rows : List Int}
    (packs : PacksBest score (position + 1) k picks) (live : LiveRows rows position) :
    ∃ sel, dsaMapRows picks rows = some sel ∧
      Names (fun token => rows.getD token (-1)) (selectedTokens score 1 k position)
        (sel, min (position + 1) k) := by
  obtain ⟨order, nodup, length, best, rfl⟩ := packs
  have perm := selected_perm Nat.one_pos nodup (by rw [Nat.div_one]; exact best)
  have noTail : tailTokens 1 position = [] := by simp [tailTokens, Nat.mod_one]
  rw [flatMap_group_one, noTail] at perm
  have marked := @Names.of_marked _ [] order 0 (k - order.length) (min (position + 1) k) perm
    (by simp [length])
  rw [map_nil, replicate_zero, nil_append, nil_append] at marked
  exact marked.gather live.nonempty
    (fun token wanted => (live token (mem_selectedTokens.mp wanted).1).1)
    (fun token wanted => (live token (mem_selectedTokens.mp wanted).1).2)

/-- **The tokens of the open group, and those of the picked groups.** -/
theorem expandAndTail_names {kp k position : Nat} (pooled : 1 < kp)
    {picks rows : List Int} (packs : PacksBest score ((position + 1) / kp) k picks)
    (live : LiveRows rows position) :
    ∃ sel, expandAndTail kp picks rows position = some sel ∧
      Names (fun token => rows.getD token (-1)) (selectedTokens score kp k position) sel := by
  have whole := Nat.div_add_mod' (position + 1) kp
  have small := Nat.mod_lt (position + 1) (show 0 < kp by omega)
  have count := packs.length
  obtain ⟨order, nodup, length, best, rfl⟩ := packs
  have perm := selected_perm (by omega) nodup best
  have tail : ((range (kp - 1)).map fun off : Nat =>
      if (position + 1) / kp * kp + off ≤ position
      then (((position + 1) / kp * kp + off : Nat) : Int) else (-1 : Int)) =
        (tailTokens kp position).map (fun token : Nat => (token : Int)) ++
          replicate (kp - 1 - (position + 1) % kp) (-1) := by
    have ramp := ramp_eq (show (position + 1) % kp ≤ kp - 1 by omega)
      (fun off => (((position + 1) / kp * kp + off : Nat) : Int)) (-1)
    rw [tailTokens, map_map]
    refine Eq.trans (map_congr_left fun off _ => ?_) ramp
    exact if_congr (by omega) rfl rfl
  have hist : ((order.map (fun col : Nat => (col : Int)) ++
      replicate (k - order.length) (-1)).flatMap fun pick : Int =>
        (range kp).map fun off : Nat => if pick < 0 then (-1 : Int) else pick * kp + off) =
      (order.flatMap (groupTokens kp)).map (fun token : Nat => (token : Int)) ++
        replicate ((k - order.length) * kp) (-1) := by
    rw [flatMap_append]
    congr 1
    · rw [flatMap_map, map_flatMap]
      refine flatMap_congr fun group _ => ?_
      rw [groupTokens, map_map]
      refine map_congr_left fun off _ => ?_
      rw [if_neg (by omega)]
      simp
    · rw [eq_replicate_iff]
      constructor
      · simp [length_flatMap]
      · intro row mem
        obtain ⟨pick, isMask, lt⟩ := mem_flatMap.mp mem
        obtain ⟨off, -, rfl⟩ := mem_map.mp lt
        rw [eq_of_mem_replicate isMask]
        rfl
  have tailLength : (tailTokens kp position).length = (position + 1) % kp := by simp [tailTokens]
  have histLength : (order.flatMap (groupTokens kp)).length = order.length * kp := by
    simp [length_flatMap, groupTokens]
  have marked := @Names.of_marked _ (tailTokens kp position) (order.flatMap (groupTokens kp))
    (kp - 1 - (position + 1) % kp) ((k - order.length) * kp)
    ((kp - 1) + min ((position + 1) / kp) k * kp) perm (by
      rw [tailLength, histLength, length]
      omega)
  obtain ⟨sel, mapped, names⟩ := marked.gather live.nonempty
    (fun token wanted => (live token (mem_selectedTokens.mp wanted).1).1)
    (fun token wanted => (live token (mem_selectedTokens.mp wanted).1).2)
  refine ⟨_, ?_, names⟩
  unfold expandAndTail
  dsimp only
  rw [tail, hist, count, ← append_assoc, mapped]
  rfl

theorem flatMap_groupTokens_eq (ratio : Nat) (order : List Nat) :
    order.flatMap (groupTokens ratio) = (List.range (order.length * ratio)).map fun col =>
      order.getD (col / ratio) 0 * ratio + col % ratio := by
  rcases eq_zero_or_pos ratio with rfl | pos
  · simp [groupTokens, flatMap_eq_nil_iff]
  · induction order with
    | nil => simp
    | cons group order ih =>
      rw [flatMap_cons, ih, length_cons, add_mul, one_mul, add_comm, range_add, map_append, map_map]
      congr 1
      · refine map_congr_left fun off mem => ?_
        rw [mem_range] at mem
        rw [Nat.div_eq_of_lt mem, Nat.mod_eq_of_lt mem]
        rfl
      · refine map_congr_left fun col _ => ?_
        show _ = (group :: order).getD ((ratio + col) / ratio) 0 * ratio + (ratio + col) % ratio
        rw [Nat.add_div_left _ pos, Nat.add_mod_left, getD_cons_succ]

theorem packed_getD {order : List Nat} {k rank : Nat} (inOrder : rank < order.length)
    (fits : order.length ≤ k) (pad : Nat) :
    (order.map (fun col : Nat => (col : Int)) ++ List.replicate pad (-1)).getD
      (min rank (k - 1)) (-1) = ((order.getD rank 0 : Nat) : Int) := by
  have clamped : min rank (k - 1) = rank := by omega
  rw [clamped, getD_append _ _ _ _ (by simpa using inOrder), getD_eq_getElem _ _
    (by simpa using inOrder), getElem_map, getD_eq_getElem _ _ inOrder]

theorem expandQsaIndices_eq {ratio k position seqLen : Nat} (grouped : 1 < ratio)
    (lt : position < seqLen) {order : List Nat}
    (length : order.length = min ((position + 1) / ratio) k)
    (complete : ∀ block ∈ order, block < (position + 1) / ratio) (pad : Nat) :
    expandQsaIndices k ratio (k * ratio + ratio - 1) position seqLen
      (order.map (fun col : Nat => (col : Int)) ++ List.replicate pad (-1)) =
      (order.flatMap (groupTokens ratio)).map (fun token : Nat => (token : Int)) ++
        (tailTokens ratio position).map (fun token : Nat => (token : Int)) ++
        List.replicate (k * ratio + ratio - 1 - order.length * ratio - (position + 1) % ratio)
          (-1) := by
  have whole := Nat.div_add_mod' (position + 1) ratio
  have small := Nat.mod_lt (position + 1) (show 0 < ratio by omega)
  have order_le : (position + 1) / ratio ≤ seqLen / ratio := Nat.div_le_div_right (by omega)
  have count : min (min ((position + 1) / ratio) (seqLen / ratio)) k = order.length := by omega
  have fits : order.length * ratio ≤ k * ratio := Nat.mul_le_mul_right _ (by omega)
  have tailCount : position + 1 - (position + 1) / ratio * ratio = (position + 1) % ratio := by
    omega
  have split : k * ratio + ratio - 1 = order.length * ratio + ((position + 1) % ratio +
      (k * ratio + ratio - 1 - order.length * ratio - (position + 1) % ratio)) := by
    omega
  unfold expandQsaIndices
  dsimp only
  rw [count, tailCount, split, range_add, map_append, map_map, range_add,
    map_append, map_map, append_assoc, flatMap_groupTokens_eq, map_map]
  congr 1
  · -- a column of a picked block
    refine map_congr_left fun col mem => ?_
    rw [mem_range] at mem
    have rank : col / ratio < order.length := (Nat.div_lt_iff_lt_mul (by omega)).mpr mem
    have picked : order.getD (col / ratio) 0 < (position + 1) / ratio := by
      rw [getD_eq_getElem _ _ rank]
      exact complete _ (getElem_mem rank)
    have offset := Nat.mod_lt col (show 0 < ratio by omega)
    have token : order.getD (col / ratio) 0 * ratio + col % ratio < seqLen := by
      have next := Nat.mul_le_mul_right ratio (Nat.succ_le_of_lt picked)
      rw [Nat.succ_mul] at next
      omega
    rw [packed_getD rank (by omega), if_pos mem, if_pos]
    · push_cast
      rfl
    · exact ⟨Or.inl mem, by exact_mod_cast Nat.zero_le _, by exact_mod_cast token⟩
  · congr 1
    · -- a column of the open group
      rw [tailTokens, map_map]
      refine map_congr_left fun off mem => ?_
      rw [mem_range] at mem
      simp only [comp_apply, Nat.add_sub_cancel_left]
      rw [if_neg (by omega : ¬ order.length * ratio + off < order.length * ratio), if_pos]
      · refine ⟨Or.inr ⟨by omega, mem, by omega⟩, by omega, ?_⟩
        exact_mod_cast (by omega : (position + 1) / ratio * ratio + off < seqLen)
    · -- behind the open group
      rw [eq_replicate_iff]
      refine ⟨by simp, fun row mem => ?_⟩
      obtain ⟨behind, -, rfl⟩ := mem_map.mp mem
      simp only [comp_apply]
      refine if_neg ?_
      rintro ⟨expanded | ⟨-, inTail, -⟩, -⟩ <;> omega

theorem expandQsaIndices_names {ratio k position seqLen : Nat}
    (grouped : 1 < ratio) (lt : position < seqLen) {blocks : List Int}
    (packs : PacksBest score ((position + 1) / ratio) k blocks) :
    Names (fun token : Nat => (token : Int)) (selectedTokens score ratio k position)
      (expandQsaIndices k ratio (k * ratio + ratio - 1) position seqLen blocks,
        k * ratio + ratio - 1) := by
  obtain ⟨order, nodup, length, best, rfl⟩ := packs
  have complete : ∀ block ∈ order, block < (position + 1) / ratio := by
    intro block mem
    rw [← mem_toFinset, best] at mem
    exact mem_bestBelow_lt mem
  rw [expandQsaIndices_eq grouped lt length complete]
  have small := Nat.mod_lt (position + 1) (show 0 < ratio by omega)
  have fits : order.length * ratio ≤ k * ratio := Nat.mul_le_mul_right _ (by omega)
  have tailLength : (tailTokens ratio position).length = (position + 1) % ratio := by
    simp [tailTokens]
  have histLength : (order.flatMap (groupTokens ratio)).length = order.length * ratio := by
    simp [length_flatMap, groupTokens]
  have perm := selected_perm (show 0 < ratio by omega) nodup best
  have marked := @Names.of_marked _ (order.flatMap (groupTokens ratio)) (tailTokens ratio position)
    0 (k * ratio + ratio - 1 - order.length * ratio - (position + 1) % ratio)
    (k * ratio + ratio - 1) (perm_append_comm.trans perm) (by
      rw [tailLength, histLength]
      omega)
  rwa [replicate_zero, append_nil] at marked

end FreeToken
