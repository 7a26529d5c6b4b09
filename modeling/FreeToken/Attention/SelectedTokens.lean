/-
**What a query of the sparse attention is to walk.**
-/

import FreeToken.Attention.QsaSelect
import Mathlib.Algebra.Order.Ring.Nat

namespace FreeToken

open List

variable {σ : Type} [LinearOrder σ]

def groupTokens (ratio group : Nat) : List Nat :=
  (List.range ratio).map fun off => group * ratio + off

def tailTokens (ratio position : Nat) : List Nat :=
  (List.range ((position + 1) % ratio)).map fun off => (position + 1) / ratio * ratio + off

/-- **The tokens of a query**: those of the `k` best complete groups, and the open group. -/
def selectedTokens (score : Nat → σ) (ratio k position : Nat) : List Nat :=
  (List.range (position + 1)).filter fun token =>
    token / ratio ∈ bestBelow score ((position + 1) / ratio) k ∨
      (position + 1) / ratio * ratio ≤ token

variable {score : Nat → σ}

section Tokens

variable {ratio position : Nat}

theorem mem_groupTokens (pos : 0 < ratio) {group token : Nat} :
    token ∈ groupTokens ratio group ↔ token / ratio = group := by
  unfold groupTokens
  rw [mem_map]
  constructor
  · rintro ⟨off, lt, rfl⟩
    rw [mem_range] at lt
    rw [mul_comm, Nat.mul_add_div pos, Nat.div_eq_of_lt lt, add_zero]
  · rintro rfl
    exact ⟨token % ratio, mem_range.mpr (Nat.mod_lt _ pos), Nat.div_add_mod' token ratio⟩

theorem mem_tailTokens {token : Nat} : token ∈ tailTokens ratio position ↔
      (position + 1) / ratio * ratio ≤ token ∧ token ≤ position := by
  have whole := Nat.div_add_mod' (position + 1) ratio
  unfold tailTokens
  rw [mem_map]
  constructor
  · rintro ⟨off, lt, rfl⟩
    rw [mem_range] at lt
    omega
  · rintro ⟨lower, upper⟩
    refine ⟨token - (position + 1) / ratio * ratio, mem_range.mpr ?_, ?_⟩ <;> omega

theorem groupTokens_nodup (group : Nat) : (groupTokens ratio group).Nodup :=
  Nodup.map (fun _ _ same => add_left_cancel same) nodup_range

theorem tailTokens_nodup : (tailTokens ratio position).Nodup :=
  Nodup.map (fun _ _ same => add_left_cancel same) nodup_range

theorem mem_selectedTokens {k token : Nat} : token ∈ selectedTokens score ratio k position ↔
      token ≤ position ∧ (token / ratio ∈ bestBelow score ((position + 1) / ratio) k ∨
        (position + 1) / ratio * ratio ≤ token) := by
  unfold selectedTokens
  rw [mem_filter, mem_range, decide_eq_true_iff, Nat.lt_succ_iff]

theorem mem_bestBelow_lt {live k i : Nat} (mem : i ∈ bestBelow score live k) : i < live :=
  Finset.mem_range.mp (Finset.mem_filter.mp mem).1

/-- **The picked groups and the open group, token by token.** -/
theorem selected_perm (pos : 0 < ratio) {k : Nat} {order : List Nat}
    (nodup : order.Nodup)
    (best : order.toFinset = bestBelow score ((position + 1) / ratio) k) :
    (tailTokens ratio position ++ order.flatMap (groupTokens ratio)).Perm
      (selectedTokens score ratio k position) := by
  have mem_order : ∀ token, token ∈ order.flatMap (groupTokens ratio) ↔
      token / ratio ∈ bestBelow score ((position + 1) / ratio) k := by
    intro token
    rw [mem_flatMap, ← best, mem_toFinset]
    constructor
    · rintro ⟨group, mem, lt⟩
      rwa [(mem_groupTokens pos).mp lt]
    · intro mem
      exact ⟨_, mem, (mem_groupTokens pos).mpr rfl⟩
  -- a complete group ends where the open one begins
  have closed : ∀ token, token / ratio ∈ bestBelow score ((position + 1) / ratio) k →
      token < (position + 1) / ratio * ratio := by
    intro token mem
    exact (Nat.div_lt_iff_lt_mul pos).mp (mem_bestBelow_lt mem)
  have groups : (order.flatMap (groupTokens ratio)).Nodup := by
    refine nodup_flatMap.mpr ⟨fun group _ => groupTokens_nodup group, ?_⟩
    refine nodup.imp fun {first second} differ => ?_
    intro token inFirst inSecond
    exact differ (((mem_groupTokens pos).mp inFirst).symm.trans
      ((mem_groupTokens pos).mp inSecond))
  have whole := Nat.div_add_mod' (position + 1) ratio
  have apart : List.Disjoint (tailTokens ratio position) (order.flatMap (groupTokens ratio)) := by
    intro token inTail inGroups
    have lower := (mem_tailTokens.mp inTail).1
    have upper := closed token ((mem_order token).mp inGroups)
    omega
  have wanted : (selectedTokens score ratio k position).Nodup := nodup_range.filter _
  refine (perm_ext_iff_of_nodup (nodup_append'.mpr ⟨tailTokens_nodup, groups, apart⟩)
    wanted).mpr fun token => ?_
  rw [mem_append, mem_tailTokens, mem_order, mem_selectedTokens]
  constructor
  · rintro (⟨lower, upper⟩ | picked)
    · exact ⟨upper, Or.inr lower⟩
    · have upper := closed token picked
      exact ⟨by omega, Or.inl picked⟩
  · rintro ⟨upper, picked | lower⟩
    · exact Or.inr picked
    · exact Or.inl ⟨lower, upper⟩

/-- All positions up to the query, while the complete groups fit. -/
theorem selectedTokens_all (pos : 0 < ratio) (score : Nat → σ) {k : Nat}
    (fits : (position + 1) / ratio ≤ k) :
    selectedTokens score ratio k position = List.range (position + 1) := by
  unfold selectedTokens
  rw [filter_eq_self]
  intro token _
  rw [decide_eq_true_iff, bestBelow_all score fits, Finset.mem_range, Nat.div_lt_iff_lt_mul pos]
  exact Nat.lt_or_ge _ _

end Tokens

/-! ### Lists with masks -/

/-- **A list of rows names the wanted tokens**, each once, and nothing behind its count. -/
structure Names (entry : Nat → Int) (want : List Nat) (sel : RowSelection) : Prop where
  named : ∃ tokens : List Nat, tokens.Perm want ∧
    (sel.1.take sel.2).filter (fun row => 0 ≤ row) = tokens.map entry
  beyond : ∀ row ∈ sel.1.drop sel.2, row = -1

theorem filter_cast (tokens : List Nat) :
    (tokens.map fun token : Nat => (token : Int)).filter (fun row => 0 ≤ row) =
      tokens.map fun token : Nat => (token : Int) := by
  rw [filter_eq_self]
  intro row mem
  obtain ⟨token, -, rfl⟩ := mem_map.mp mem
  exact decide_eq_true (Int.natCast_nonneg token)

theorem filter_masks (count : Nat) :
    (List.replicate count (-1 : Int)).filter (fun row => 0 ≤ row) = [] := by
  rw [filter_eq_nil_iff]
  intro row mem
  rw [eq_of_mem_replicate mem]
  decide

namespace Names

variable {want : List Nat}

theorem of_marked {first later : List Nat} {between behind count : Nat}
    (perm : (first ++ later).Perm want)
    (bound : first.length + between + later.length ≤ count) :
    Names (fun token : Nat => (token : Int)) want
      ((first.map fun token : Nat => (token : Int)) ++ List.replicate between (-1) ++
        (later.map fun token : Nat => (token : Int)) ++ List.replicate behind (-1), count) := by
  have length : ((first.map fun token : Nat => (token : Int)) ++ replicate between (-1) ++
      (later.map fun token : Nat => (token : Int))).length =
        first.length + between + later.length := by
    simp [add_assoc]
  constructor
  · refine ⟨first ++ later, perm, ?_⟩
    rw [take_append, take_of_length_le (by rw [length]; exact bound), take_replicate,
      filter_append, filter_append, filter_append, filter_cast, filter_cast,
      filter_masks, filter_masks, append_nil, append_nil, map_append]
  · rw [drop_append, drop_eq_nil_of_le (by rw [length]; exact bound), nil_append, drop_replicate]
    intro row mem
    exact eq_of_mem_replicate mem

theorem gather {positions rows : List Int} {count : Nat}
    (names : Names (fun token : Nat => (token : Int)) want (positions, count))
    (nonempty : rows ≠ []) (lt : ∀ token ∈ want, token < rows.length)
    (mapped : ∀ token ∈ want, 0 ≤ rows.getD token (-1)) :
    ∃ sel, gatherMasked rows positions = some sel ∧
      Names (fun token => rows.getD token (-1)) want (sel, count) := by
  obtain ⟨⟨tokens, perm, named⟩, beyond⟩ := names
  have token_of : ∀ index ∈ positions.take count, 0 ≤ index → ∃ token ∈ want, index = token := by
    intro index mem isToken
    have listed : index ∈ tokens.map fun token : Nat => (token : Int) := by
      rw [← named]
      exact mem_filter.mpr ⟨mem, decide_eq_true isToken⟩
    obtain ⟨token, inTokens, rfl⟩ := mem_map.mp listed
    exact ⟨token, perm.mem_iff.mp inTokens, rfl⟩
  have below : ∀ index ∈ positions, index < rows.length := by
    intro index mem
    have pos := length_pos_iff.mpr nonempty
    rw [← take_append_drop count positions, mem_append] at mem
    rcases mem with early | late
    · rcases lt_or_ge index 0 with mask | isToken
      · omega
      · obtain ⟨token, wanted, rfl⟩ := token_of index early isToken
        exact Int.ofNat_lt.mpr (lt token wanted)
    · rw [beyond index late]
      omega
  refine ⟨_, gatherMasked_eq nonempty below, ⟨tokens, perm, ?_⟩, ?_⟩
  · rw [← map_take, filter_map]
    have same : (positions.take count).filter ((fun row : Int => decide (0 ≤ row)) ∘ fun index =>
        if index < 0 then -1 else rows.getD index.toNat (-1)) =
          (positions.take count).filter (fun row => 0 ≤ row) := by
      refine filter_congr fun index mem => ?_
      show decide (0 ≤ if index < 0 then -1 else rows.getD index.toNat (-1)) = decide (0 ≤ index)
      rw [decide_eq_decide]
      rcases lt_or_ge index 0 with mask | isToken
      · rw [if_pos mask]
        omega
      · obtain ⟨token, wanted, rfl⟩ := token_of index mem isToken
        rw [if_neg (by omega), Int.toNat_natCast]
        exact iff_of_true (mapped token wanted) isToken
    rw [same, named, map_map]
    refine map_congr_left fun token _ => ?_
    show (if (token : Int) < 0 then -1 else rows.getD (token : Int).toNat (-1)) = _
    rw [if_neg (by omega), Int.toNat_natCast]
  · rw [← map_drop]
    intro row mem
    obtain ⟨index, late, rfl⟩ := mem_map.mp mem
    rw [beyond index late]
    rfl

end Names

end FreeToken
