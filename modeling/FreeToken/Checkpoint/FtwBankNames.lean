/-
**The names of banks.**

* `Dict`: what is in a dictionary after an assignment, and after all assignments of a comprehension.
-/

import FreeToken.Checkpoint.FtwBanks
import Mathlib.Data.Nat.Digits.Lemmas

namespace FreeToken.Ftw

open List

/-! ### Dictionaries -/

namespace Dict

variable {κ ν : Type} [DecidableEq κ] {dict : Dict κ ν} {key other : κ} {value : ν}

theorem mem_of_get? (found : dict.get? key = some value) : (key, value) ∈ dict := by
  obtain ⟨item, isItem, rfl⟩ := Option.map_eq_some_iff.mp found
  have isKey : item.1 = key := by simpa using find?_some isItem
  rw [← isKey]
  exact mem_of_find?_eq_some isItem

omit [DecidableEq κ] in
theorem mem_keys (mem : (key, value) ∈ dict) : key ∈ dict.keys := mem_map_of_mem mem

theorem get?_of_mem_keys (isKey : key ∈ dict.keys) :
    ∃ value, dict.get? key = some value ∧ (key, value) ∈ dict := by
  obtain ⟨item, isItem, sameKey⟩ := mem_map.mp isKey
  have found : (dict.find? fun item => item.1 = key).isSome :=
    find?_isSome.mpr ⟨item, isItem, decide_eq_true sameKey⟩
  obtain ⟨first, isFirst⟩ := Option.isSome_iff_exists.mp found
  have same : dict.get? key = some first.2 := Option.map_eq_some_iff.mpr ⟨first, isFirst, rfl⟩
  exact ⟨first.2, same, mem_of_get? same⟩

theorem get?_eq_none (absent : key ∉ dict.keys) : dict.get? key = none := by
  cases found : dict.get? key with
  | none => rfl
  | some value => exact absurd (mem_keys (mem_of_get? found)) absent

theorem keys_set : (dict.set key value).keys =
    if key ∈ dict.keys then dict.keys else dict.keys ++ [key] := by
  unfold set
  by_cases isKey : key ∈ dict.keys
  · rw [if_pos isKey, if_pos isKey]
    unfold keys
    rw [map_map]
    refine map_congr_left fun item _ => ?_
    by_cases same : item.1 = key
    · exact (congrArg Prod.fst (if_pos same)).trans same.symm
    · exact congrArg Prod.fst (if_neg same)
  · rw [if_neg isKey, if_neg isKey]
    exact map_append

theorem mem_keys_set : other ∈ (dict.set key value).keys ↔ other ∈ dict.keys ∨ other = key := by
  rw [keys_set]
  by_cases isKey : key ∈ dict.keys
  · rw [if_pos isKey]
    refine ⟨.inl, fun either => either.elim id fun same => ?_⟩
    rw [same]
    exact isKey
  · rw [if_neg isKey, mem_append, mem_singleton]

theorem nodup_keys_set (nodup : dict.keys.Nodup) : (dict.set key value).keys.Nodup := by
  rw [keys_set]
  by_cases isKey : key ∈ dict.keys
  · rw [if_pos isKey]
    exact nodup
  · rw [if_neg isKey]
    exact nodup.append (nodup_singleton key) (disjoint_singleton.mpr isKey)

theorem mem_set {item : κ × ν} (mem : item ∈ dict.set key value) :
    item = (key, value) ∨ item ∈ dict ∧ item.1 ≠ key := by
  unfold set at mem
  by_cases isKey : key ∈ dict.keys
  · rw [if_pos isKey] at mem
    obtain ⟨old, isOld, replaced⟩ := mem_map.mp mem
    by_cases same : old.1 = key
    · rw [if_pos same] at replaced
      exact .inl replaced.symm
    · rw [if_neg same] at replaced
      exact .inr ⟨replaced ▸ isOld, replaced ▸ same⟩
  · rw [if_neg isKey] at mem
    rcases mem_append.mp mem with old | new
    · exact .inr ⟨old, fun same => isKey (same ▸ mem_keys old)⟩
    · exact .inl (mem_singleton.mp new)

theorem mem_ofList {items : List (κ × ν)} {item : κ × ν} (mem : item ∈ ofList items) :
    item ∈ items := by
  have folded : ∀ (items : List (κ × ν)) (dict : Dict κ ν),
      item ∈ items.foldl (fun dict item => dict.set item.1 item.2) dict →
        item ∈ dict ∨ item ∈ items := by
    intro items
    induction items with
    | nil => exact fun _ mem => .inl mem
    | cons first items ih =>
      intro dict mem
      rcases ih _ mem with here | later
      · rcases mem_set here with isFirst | old
        · exact .inr (isFirst ▸ mem_cons_self)
        · exact .inl old.1
      · exact .inr (mem_cons_of_mem _ later)
  exact (folded items [] mem).elim (fun none => absurd none not_mem_nil) id

theorem mem_keys_ofList {items : List (κ × ν)} (mem : (key, value) ∈ items) :
    key ∈ (ofList items).keys := by
  have folded : ∀ (items : List (κ × ν)) (dict : Dict κ ν),
      (key ∈ dict.keys ∨ (key, value) ∈ items) →
        key ∈ (items.foldl (fun dict item => dict.set item.1 item.2) dict).keys := by
    intro items
    induction items with
    | nil => exact fun _ either => either.resolve_right not_mem_nil
    | cons first items ih =>
      intro dict either
      refine ih _ ?_
      rcases either with old | mem
      · exact .inl (mem_keys_set.mpr (.inl old))
      · rcases mem_cons.mp mem with isFirst | later
        · exact .inl (mem_keys_set.mpr (.inr (congrArg Prod.fst isFirst)))
        · exact .inr later
  exact folded items [] (.inr mem)

theorem get?_ofList {items : List (κ × ν)} (mem : (key, value) ∈ items)
    (only : ∀ item ∈ items, item.1 = key → item.2 = value) :
    (ofList items).get? key = some value := by
  obtain ⟨found, isFound, here⟩ := get?_of_mem_keys (mem_keys_ofList mem)
  exact isFound.trans (congrArg some (only _ (mem_ofList here) rfl))

end Dict

/-! ### Names -/

variable (format : Format)

def diskName (role : List Char) : List Char := ((legacyBankNames format).get? role).getD role

def Format.roles : List (List Char) := format.schema.map canonicalRole

theorem canonicalRole_diskName :
    ∀ role ∈ format.roles, canonicalRole (diskName format role) = role := by
  cases format <;> decide

theorem sinkName_eq :
    ∀ role ∈ format.roles, ((sinkNames format).get? role).getD role = diskName format role := by
  cases format <;> decide

theorem roles_ne_nil : format.roles ≠ [] := by
  cases format <;> decide

theorem diskName_plain : ∀ role ∈ format.roles,
    diskName format role ≠ [] ∧ '\n' ∉ diskName format role ∧
      matchLayerEntry (diskName format role) = none ∧ diskName format role ∉ alphaNames := by
  cases format <;> decide

/-! ### Numbers of layers -/

theorem digitChar_digit : ∀ digit < 10, Nat.digitChar digit ≠ '\n' ∧
    (Nat.digitChar digit).toNat - '0'.toNat = digit := by
  decide

theorem digits_filled (width : Nat) {n : Nat} (small : n < 10 ^ width) :
    List.replicate (width - (Nat.digits 10 n).length) '0' ++
        (Nat.digits 10 n).reverse.map Nat.digitChar =
      (List.range width).reverse.map fun place => Nat.digitChar (n / 10 ^ place % 10) := by
  induction width generalizing n with
  | zero =>
    obtain rfl : n = 0 := Nat.lt_one_iff.mp small
    rfl
  | succ width ih =>
    have places : (range (width + 1)).reverse.map
          (fun place => Nat.digitChar (n / 10 ^ place % 10)) =
        (range width).reverse.map (fun place => Nat.digitChar (n / 10 / 10 ^ place % 10)) ++
          [Nat.digitChar (n % 10)] := by
      rw [range_succ_eq_map, reverse_cons, map_append, ← map_reverse, map_map]
      refine congrArg₂ _ (map_congr_left fun place _ => ?_) ?_
      · rw [Function.comp_apply, Nat.pow_succ', Nat.div_div_eq_div_mul]
      · rw [map_singleton, Nat.pow_zero, Nat.div_one]
    have smaller : n / 10 < 10 ^ width := by
      rw [Nat.pow_succ] at small
      omega
    rw [places, ← ih smaller]
    rcases Nat.eq_zero_or_pos n with rfl | pos
    · rw [Nat.zero_div, Nat.digits_zero, length_nil, reverse_nil, map_nil, append_nil, append_nil]
      exact replicate_succ'
    · rw [Nat.digits_def' (by decide) pos, length_cons, Nat.add_sub_add_right,
        reverse_cons, map_append, append_assoc]
      rfl

theorem padded_eq {n : Nat} (small : n < 100000) :
    padded n = [n / 10 ^ 4 % 10, n / 10 ^ 3 % 10, n / 10 ^ 2 % 10, n / 10 ^ 1 % 10,
      n / 10 ^ 0 % 10].map Nat.digitChar := by
  unfold padded
  dsimp only
  rw [length_map, length_reverse]
  exact digits_filled 5 small

theorem matchLayerEntry_suffix (bankName : List Char) {d1 d2 d3 d4 d5 : Char} (plain : d5 ≠ '\n') :
    matchLayerEntry (bankName ++ ['#', 'L'] ++ [d1, d2, d3, d4, d5]) =
      if [d1, d2, d3, d4, d5].all Char.isDigit && !bankName.isEmpty && !bankName.contains '\n' then
        some (bankName, intOf [d1, d2, d3, d4, d5])
      else none := by
  have reversed : (bankName ++ ['#', 'L'] ++ [d1, d2, d3, d4, d5]).reverse =
      d5 :: d4 :: d3 :: d2 :: d1 :: 'L' :: '#' :: bankName.reverse := by
    rw [append_assoc, reverse_append]
    rfl
  have noBreak : ∀ rest, d5 :: d4 :: d3 :: d2 :: d1 :: 'L' :: '#' :: bankName.reverse =
      '\n' :: rest → False :=
    fun rest isBreak => plain (cons.inj isBreak).1
  unfold matchLayerEntry
  rw [reversed]
  simp only [isEmpty_reverse, contains_reverse, reverse_reverse]

/-- The name of an entry by layer is read back, for layers of five digits. -/
theorem matchLayerEntry_name {bankName : List Char} (some_ : bankName ≠ [])
    (plain : '\n' ∉ bankName) {layerId : Nat} (small : layerId < 100000) :
    matchLayerEntry (layerBankEntryName bankName layerId) = some (bankName, layerId) := by
  have digit : ∀ place, layerId / 10 ^ place % 10 < 10 := fun place => Nat.mod_lt _ (by decide)
  obtain ⟨-, value1⟩ := digitChar_digit _ (digit 4)
  obtain ⟨-, value2⟩ := digitChar_digit _ (digit 3)
  obtain ⟨-, value3⟩ := digitChar_digit _ (digit 2)
  obtain ⟨-, value4⟩ := digitChar_digit _ (digit 1)
  obtain ⟨noBreak, value5⟩ := digitChar_digit _ (digit 0)
  have isInt : intOf ([layerId / 10 ^ 4 % 10, layerId / 10 ^ 3 % 10, layerId / 10 ^ 2 % 10,
      layerId / 10 ^ 1 % 10, layerId / 10 ^ 0 % 10].map Nat.digitChar) = layerId := by
    unfold intOf
    simp only [map_cons, map_nil, foldl_cons, foldl_nil, value1, value2, value3, value4, value5]
    omega
  unfold layerBankEntryName
  rw [padded_eq small]
  refine (matchLayerEntry_suffix bankName noBreak).trans ?_
  rw [if_pos]
  · exact congrArg (fun layer => some (bankName, layer)) isInt
  · simp [some_, plain]
    omega

/-- No other layer is ever read. -/
theorem matchLayerEntry_bound {name bankName : List Char} {layerId : Nat}
    (matched : matchLayerEntry name = some (bankName, layerId)) : layerId < 100000 := by
  have least : ∀ {digit : Char}, digit.isDigit = true → digit.toNat - '0'.toNat ≤ 9 := by
    intro digit isDigit
    unfold Char.isDigit at isDigit
    rw [Bool.and_eq_true, decide_eq_true_eq, decide_eq_true_eq] at isDigit
    have most : digit.toNat ≤ 57 := UInt32.le_iff_toNat_le.mp isDigit.2
    change digit.toNat - 48 ≤ 9
    omega
  unfold matchLayerEntry at matched
  dsimp only at matched
  split at matched
  · rename_i d5 d4 d3 d2 d1 base shape
    split at matched
    · rename_i allowed
      rw [Bool.and_eq_true, Bool.and_eq_true] at allowed
      have digits := all_eq_true.mp allowed.1.1
      have most1 := least (digits d1 (by simp))
      have most2 := least (digits d2 (by simp))
      have most3 := least (digits d3 (by simp))
      have most4 := least (digits d4 (by simp))
      have most5 := least (digits d5 (by simp))
      rw [← (Prod.mk.inj (Option.some.inj matched)).2]
      simp only [intOf, foldl_cons, foldl_nil]
      omega
    · cases matched
  · cases matched

/-! ### Groups -/

/-- Entries by layer, grouped: every group has one bank, each of its layers once, and all of its
entries are among those given. -/
structure Grouped (entries : List Entry) (groups : Dict (List Char) (Dict Nat Entry)) : Prop where
  layers : ∀ group ∈ groups, group.2.keys.Nodup
  members : ∀ group ∈ groups, ∀ item ∈ group.2,
    item.2 ∈ entries ∧ matchLayerEntry item.2.name = some (group.1, item.1)
  some_ : ∀ group ∈ groups, ∃ layerId, layerId ∈ group.2.keys
  complete : ∀ e ∈ entries, ∀ bankName layerId, matchLayerEntry e.name = some (bankName, layerId) →
    bankName ∈ groups.keys ∧ ∀ group ∈ groups, group.1 = bankName → layerId ∈ group.2.keys

theorem Grouped.add {entries : List Entry} {groups : Dict (List Char) (Dict Nat Entry)}
    (grouped : Grouped entries groups) (e : Entry) :
    Grouped (entries ++ [e]) (match matchLayerEntry e.name with
      | none => groups
      | some (base, layer) => groups.set base (((groups.get? base).getD []).set layer e)) := by
  have more : ∀ {other}, other ∈ entries → other ∈ entries ++ [e] := mem_append_left _
  cases matched : matchLayerEntry e.name with
  | none =>
    refine ⟨grouped.layers, fun group isGroup item isItem => ?_, grouped.some_, ?_⟩
    · obtain ⟨isEntry, here⟩ := grouped.members group isGroup item isItem
      exact ⟨more isEntry, here⟩
    · intro other isEntry bankName layerId here
      rcases mem_append.mp isEntry with old | new
      · exact grouped.complete other old bankName layerId here
      · rw [mem_singleton.mp new, matched] at here
        cases here
  | some key =>
    obtain ⟨base, layer⟩ := key
    dsimp only
    obtain ⟨old, isOld⟩ : ∃ old, (groups.get? base).getD [] = old := ⟨_, rfl⟩
    have oldGroup : (base, old) ∈ groups ∨ base ∉ groups.keys ∧ old = [] := by
      by_cases isKey : base ∈ groups.keys
      · obtain ⟨found, isFound, mem⟩ := Dict.get?_of_mem_keys isKey
        rw [isFound, Option.getD_some] at isOld
        exact .inl (isOld ▸ mem)
      · rw [Dict.get?_eq_none isKey, Option.getD_none] at isOld
        exact .inr ⟨isKey, isOld.symm⟩
    have oldLayers : old.keys.Nodup := by
      rcases oldGroup with isGroup | ⟨-, empty⟩
      · exact grouped.layers _ isGroup
      · rw [empty]
        exact nodup_nil
    have oldMembers : ∀ item ∈ old,
        item.2 ∈ entries ∧ matchLayerEntry item.2.name = some (base, item.1) := by
      rcases oldGroup with isGroup | ⟨-, empty⟩
      · exact grouped.members _ isGroup
      · rw [empty]
        exact nofun
    rw [isOld]
    constructor
    · intro group isGroup
      rcases Dict.mem_set isGroup with rfl | ⟨pre, -⟩
      · exact Dict.nodup_keys_set oldLayers
      · exact grouped.layers group pre
    · intro group isGroup item isItem
      rcases Dict.mem_set isGroup with rfl | ⟨pre, -⟩
      · rcases Dict.mem_set isItem with rfl | ⟨here, -⟩
        · exact ⟨mem_append_right _ (mem_singleton_self e), matched⟩
        · exact ⟨more (oldMembers item here).1, (oldMembers item here).2⟩
      · obtain ⟨isEntry, here⟩ := grouped.members group pre item isItem
        exact ⟨more isEntry, here⟩
    · intro group isGroup
      rcases Dict.mem_set isGroup with rfl | ⟨pre, -⟩
      · exact ⟨layer, Dict.mem_keys_set.mpr (.inr rfl)⟩
      · exact grouped.some_ group pre
    · intro other isEntry bankName layerId here
      rcases mem_append.mp isEntry with pre | new
      · obtain ⟨isKey, inGroups⟩ := grouped.complete other pre bankName layerId here
        refine ⟨Dict.mem_keys_set.mpr (.inl isKey), fun group isGroup sameBank => ?_⟩
        rcases Dict.mem_set isGroup with rfl | ⟨old', -⟩
        · cases sameBank
          refine Dict.mem_keys_set.mpr (.inl ?_)
          exact inGroups _ (oldGroup.resolve_right fun absent => absent.1 isKey) rfl
        · exact inGroups group old' sameBank
      · rw [mem_singleton.mp new, matched] at here
        cases here
        refine ⟨Dict.mem_keys_set.mpr (.inr rfl), fun group isGroup sameBank => ?_⟩
        rcases Dict.mem_set isGroup with rfl | ⟨-, differs⟩
        · exact Dict.mem_keys_set.mpr (.inr rfl)
        · exact absurd sameBank differs

/-- The entries by layer are grouped by bank. -/
theorem layerGroups_spec (entries : List Entry) : Grouped entries (layerGroups entries) := by
  induction entries using reverseRecOn with
  | nil => exact ⟨nofun, nofun, nofun, nofun⟩
  | append_singleton entries e ih =>
    unfold layerGroups at ih ⊢
    rw [foldl_append]
    exact ih.add e

end FreeToken.Ftw
