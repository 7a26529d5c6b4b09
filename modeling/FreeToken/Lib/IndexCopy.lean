/-
**Rows taken and stored by a list of indices.**

Both fail outside the rows, as `index_select` and `index_copy_` do.
-/

import FreeToken.Lib.Ragged
import Mathlib.Data.List.Nodup

namespace FreeToken

open List

variable {α : Type} {rows source : List α} {index : List Nat}

/-- The rows at some indices (`indexSelect_spans`: indices that follow one another). -/
def indexSelect (rows : List α) (index : List Nat) : Option (List α) :=
  index.mapM fun place => rows[place]?

/-- The stores of `index_copy_`. -/
def storeRows (rows : List α) (writes : List (Nat × α)) : List α :=
  writes.foldl (fun rows write => rows.set write.1 write.2) rows

/-- Rows stored at some indices, one after another. -/
def indexCopy (rows : List α) (index : List Nat) (source : List α) : Option (List α) :=
  if index.length = source.length ∧ ∀ place ∈ index, place < rows.length then
    some (storeRows rows (index.zip source))
  else none

/-! ### The stores -/

theorem storeRows_length (rows : List α) (writes : List (Nat × α)) :
    (storeRows rows writes).length = rows.length := by
  unfold storeRows
  induction writes generalizing rows with
  | nil => rfl
  | cons write writes ih => rw [foldl_cons, ih, length_set]

variable {place : Nat}

theorem storeRows_of_notMem {writes : List (Nat × α)} (other : ∀ write ∈ writes, write.1 ≠ place) :
    (storeRows rows writes)[place]? = rows[place]? := by
  unfold storeRows
  induction writes generalizing rows with
  | nil => rfl
  | cons write writes ih =>
    rw [foldl_cons, ih fun later mem => other later (mem_cons_of_mem _ mem),
      getElem?_set_ne (other write mem_cons_self)]

theorem storeRows_of_value {writes : List (Nat × α)} {value : α}
    (lt : place < rows.length) (written : ∃ write ∈ writes, write.1 = place)
    (same : ∀ write ∈ writes, write.1 = place → write.2 = value) :
    (storeRows rows writes)[place]? = some value := by
  induction writes generalizing rows with
  | nil =>
    obtain ⟨write, mem, -⟩ := written
    exact absurd mem not_mem_nil
  | cons write writes ih =>
    have later : ∀ other ∈ writes, other.1 = place → other.2 = value :=
      fun other mem => same other (mem_cons_of_mem _ mem)
    have step : storeRows rows (write :: writes) = storeRows (rows.set write.1 write.2) writes :=
      rfl
    rw [step]
    by_cases again : ∃ other ∈ writes, other.1 = place
    · exact ih (by rwa [length_set]) again later
    · have here : write.1 = place := by
        obtain ⟨other, mem, isHere⟩ := written
        rcases mem_cons.mp mem with rfl | mem
        · exact isHere
        · exact absurd ⟨other, mem, isHere⟩ again
      have untouched : ∀ other ∈ writes, other.1 ≠ place :=
        fun other mem isHere => again ⟨other, mem, isHere⟩
      rw [storeRows_of_notMem untouched, here, getElem?_set_self lt, same write mem_cons_self here]

/-! ### What the operations leave -/

theorem indexCopy_eq (sameLength : index.length = source.length)
    (lt : ∀ place ∈ index, place < rows.length) :
    indexCopy rows index source = some (storeRows rows (index.zip source)) :=
  if_pos ⟨sameLength, lt⟩

/-- A row that nothing is stored in. -/
theorem indexCopy_of_notMem (other : place ∉ index) :
    (storeRows rows (index.zip source))[place]? = rows[place]? := by
  apply storeRows_of_notMem
  intro write mem isHere
  exact other (isHere ▸ (of_mem_zip mem).1)

/-- A row that all that is stored there agrees on. -/
theorem indexCopy_of_value (sameLength : index.length = source.length) {value : α}
    (lt : place < rows.length) (written : place ∈ index)
    (same : ∀ k : Nat, index[k]? = some place → source[k]? = some value) :
    (storeRows rows (index.zip source))[place]? = some value := by
  apply storeRows_of_value lt
  · obtain ⟨k, atK⟩ := mem_iff_getElem?.mp written
    obtain ⟨within, -⟩ := List.getElem?_eq_some_iff.mp atK
    have withinSource : k < source.length := sameLength ▸ within
    refine ⟨(place, source[k]), mem_iff_getElem?.mpr ⟨k, ?_⟩, rfl⟩
    rw [getElem?_zip_eq_some]
    exact ⟨atK, getElem?_eq_getElem withinSource⟩
  · intro write stored isHere
    obtain ⟨k, atK⟩ := mem_iff_getElem?.mp stored
    rw [getElem?_zip_eq_some, isHere] at atK
    exact Option.some.inj (atK.2.symm.trans (same k atK.1))

theorem indexCopy_of_nodup (sameLength : index.length = source.length)
    (lt : ∀ place ∈ index, place < rows.length) (nodup : index.Nodup) {k place : Nat}
    (isPlace : index[k]? = some place) :
    (storeRows rows (index.zip source))[place]? = source[k]? := by
  obtain ⟨within, atK⟩ := List.getElem?_eq_some_iff.mp isPlace
  have withinSource : k < source.length := sameLength ▸ within
  have mem : place ∈ index := mem_of_getElem? isPlace
  rw [getElem?_eq_getElem withinSource]
  apply indexCopy_of_value sameLength (lt place mem) mem
  intro j isJ
  obtain ⟨withinJ, atJ⟩ := List.getElem?_eq_some_iff.mp isJ
  have same : j = k := (Nodup.getElem_inj_iff nodup).mp (atJ.trans atK.symm)
  rw [same, getElem?_eq_getElem withinSource]

/-! ### Stores in any order -/

/-- What some stores, each at an address, leave of a buffer when they are done in some order. -/
def Leaves (stores : List (Int × α)) (pre after : List α) : Prop :=
  ∃ order : List (Int × α), order.Perm stores ∧
    after = storeRows pre (order.map fun store => (store.1.toNat, store.2))

variable {stores : List (Int × α)}

theorem Leaves.length {pre after : List α}
    (leaves : Leaves stores pre after) : after.length = pre.length := by
  obtain ⟨order, -, rfl⟩ := leaves
  exact storeRows_length _ _

theorem Leaves.get {pre after : List α}
    (leaves : Leaves stores pre after) (lt : ∀ store ∈ stores, 0 ≤ store.1) {p : Nat}
    {value : α} (within : p < pre.length) (written : ∃ store ∈ stores, store.1 = (p : Int))
    (same : ∀ store ∈ stores, store.1 = (p : Int) → store.2 = value) : after[p]? = some value := by
  obtain ⟨order, perm, rfl⟩ := leaves
  obtain ⟨store, mem, isPlace⟩ := written
  apply storeRows_of_value within
  · refine ⟨_, mem_map.mpr ⟨store, perm.mem_iff.mpr mem, rfl⟩, ?_⟩
    rw [isPlace, Int.toNat_natCast]
  · intro write isWrite here
    obtain ⟨other, isOther, rfl⟩ := mem_map.mp isWrite
    have inStores := perm.mem_iff.mp isOther
    have nonneg := lt other inStores
    exact same other inStores (by omega)

/-- The stores make a buffer the values, in any order, and all of them are inside it. -/
structure Writes (stores : List (Int × α)) (values : List α) : Prop where
  inside : ∀ store ∈ stores, 0 ≤ store.1 ∧ store.1 < values.length
  result : ∀ pre after : List α, Leaves stores pre after → pre.length = values.length →
    after = values

/-- When the stores make a buffer some values. -/
theorem writes_of_mem {values : List α}
    (each : ∀ store ∈ stores, ∃ p : Nat, store.1 = p ∧ values[p]? = some store.2)
    (every : ∀ p < values.length, ∃ store ∈ stores, store.1 = (p : Int)) : Writes stores values where
  inside := by
    intro store mem
    obtain ⟨p, isPlace, isValue⟩ := each store mem
    have within := (List.getElem?_eq_some_iff.mp isValue).1
    omega
  result := by
    intro pre after leaves size
    apply ext_getElem?
    intro p
    rcases lt_or_ge p values.length with within | beyond
    · rw [getElem?_eq_getElem within]
      refine leaves.get ?_ (size ▸ within) (every p within) fun store mem here => ?_
      · intro store mem
        obtain ⟨q, isPlace, -⟩ := each store mem
        omega
      · obtain ⟨q, isPlace, isValue⟩ := each store mem
        obtain rfl : p = q := by omega
        rw [getElem?_eq_getElem within] at isValue
        exact (Option.some.inj isValue).symm
    · rw [getElem?_eq_none (by rwa [leaves.length, size]), getElem?_eq_none beyond]

/-! ### Rows taken -/

theorem indexSelect_eq {picked : List α} (sameLength : picked.length = index.length)
    (each : ∀ k place : Nat, index[k]? = some place → rows[place]? = picked[k]?) :
    indexSelect rows index = some picked := by
  unfold indexSelect
  induction index generalizing picked with
  | nil =>
    rw [eq_nil_of_length_eq_zero sameLength]
    rfl
  | cons place index ih =>
    cases picked with
    | nil => cases sameLength
    | cons row picked =>
      have first := each 0 place rfl
      have rest := ih (Nat.succ.inj sameLength) fun k other isOther => each (k + 1) other isOther
      rw [getElem?_cons_zero] at first
      rw [mapM_cons, first, rest]
      rfl

end FreeToken
