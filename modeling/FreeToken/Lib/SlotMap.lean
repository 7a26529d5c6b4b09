/-
**Slot maps: which key a slot holds, and what its contents must then be.**

A cache keeps two arrays, the slot of a key and the key of a slot. This module is about any such
pair, over any types of keys and slots.
-/

import Mathlib.Data.List.Nodup

set_option linter.unusedSectionVars false

namespace FreeToken

open List Function

variable {Key Slot Row : Type} [DecidableEq Key] [DecidableEq Slot]

@[ext] structure SlotMap (Key Slot : Type) where
  slotOf : Key → Option Slot
  keyOf : Slot → Option Key

namespace SlotMap

def empty : SlotMap Key Slot := ⟨fun _ => none, fun _ => none⟩

/-- The two arrays are inverse partial maps. -/
def Inverse (map : SlotMap Key Slot) : Prop :=
  ∀ key slot, map.slotOf key = some slot ↔ map.keyOf slot = some key

/-- A slot is given to a key and the key it held is forgotten; `putAll` does so for a list. -/
def put (map : SlotMap Key Slot) (key : Key) (slot : Slot) : SlotMap Key Slot where
  slotOf := Function.update
    (match map.keyOf slot with
      | some old => Function.update map.slotOf old none
      | none => map.slotOf) key (some slot)
  keyOf := Function.update map.keyOf slot (some key)

/-- The slots of a set are emptied. -/
def forget (map : SlotMap Key Slot) (picked : Slot → Bool) : SlotMap Key Slot where
  slotOf key := (map.slotOf key).filter fun slot => !picked slot
  keyOf slot := if picked slot then none else map.keyOf slot

def putAll (map : SlotMap Key Slot) (pairs : List (Key × Slot)) : SlotMap Key Slot :=
  pairs.foldl (fun map pair => map.put pair.1 pair.2) map

theorem putAll_append (map : SlotMap Key Slot) (pairs more : List (Key × Slot)) :
    map.putAll (pairs ++ more) = (map.putAll pairs).putAll more :=
  foldl_append

theorem inverse_empty : (empty : SlotMap Key Slot).Inverse := by
  intro key slot
  simp [empty]

variable {map : SlotMap Key Slot}

theorem Inverse.forget (inverse : map.Inverse) (picked : Slot → Bool) :
    (map.forget picked).Inverse := by
  intro key slot
  have both := inverse key slot
  by_cases out : picked slot = true
  · simp [SlotMap.forget, Option.filter_eq_some_iff, out]
  · simp [SlotMap.forget, Option.filter_eq_some_iff, out, both]

/-! ### One put -/

@[simp] theorem put_keyOf (key : Key) (slot other : Slot) :
    (map.put key slot).keyOf other = if other = slot then some key else map.keyOf other := by
  simp [put, update_apply]

theorem put_slotOf (key other : Key) (slot : Slot) : (map.put key slot).slotOf other =
      if other = key then some slot
      else if map.keyOf slot = some other then none else map.slotOf other := by
  unfold put
  rcases held : map.keyOf slot with _ | old
  · simp [update_apply]
  · simp [update_apply, eq_comm]

theorem Inverse.put (inverse : map.Inverse) {key : Key} (unmapped : map.slotOf key = none)
    (slot : Slot) : (map.put key slot).Inverse := by
  intro other place
  rw [put_slotOf, put_keyOf]
  by_cases same : other = key
  · subst same
    by_cases here : place = slot
    · simp [here]
    · have never : map.keyOf place ≠ some other := fun held => by
        rw [← inverse other place, unmapped] at held
        cases held
      simp [here, never, Ne.symm here]
  · by_cases here : place = slot
    · subst here
      rw [if_neg same, if_pos rfl]
      by_cases held : map.keyOf place = some other
      · simp [held, Ne.symm same]
      · rw [if_neg held, inverse other place]
        simp [held, Ne.symm same]
    · rw [if_neg same, if_neg here, ← inverse other place]
      by_cases held : map.keyOf slot = some other
      · have elsewhere : map.slotOf other = some slot := (inverse other slot).mpr held
        simp [held, elsewhere, Ne.symm here]
      · simp [held]

/-! ### A list of puts -/

theorem putAll_keyOf_of_notMem (map : SlotMap Key Slot) (pairs : List (Key × Slot)) {slot : Slot}
    (other : slot ∉ pairs.map Prod.snd) : (map.putAll pairs).keyOf slot = map.keyOf slot := by
  induction pairs generalizing map with
  | nil => rfl
  | cons pair pairs ih =>
    rw [map_cons, mem_cons, not_or] at other
    have step := ih (map.put pair.1 pair.2) other.2
    rw [put_keyOf, if_neg other.1] at step
    exact step

theorem putAll_keyOf_of_mem (pairs : List (Key × Slot)) (nodup : (pairs.map Prod.snd).Nodup)
    {pair : Key × Slot} (mem : pair ∈ pairs) :
    (map.putAll pairs).keyOf pair.2 = some pair.1 := by
  induction pairs generalizing map with
  | nil => cases mem
  | cons head pairs ih =>
    rw [map_cons, nodup_cons] at nodup
    rcases mem_cons.mp mem with rfl | later
    · have kept := putAll_keyOf_of_notMem (map.put pair.1 pair.2) pairs nodup.1
      rw [put_keyOf, if_pos rfl] at kept
      exact kept
    · exact ih nodup.2 later

theorem put_slotOf_eq_none {key other : Key} (slot : Slot) (unmapped : map.slotOf other = none)
    (ne : other ≠ key) : (map.put key slot).slotOf other = none := by
  rw [put_slotOf, if_neg ne, unmapped, ite_self]

theorem Inverse.putAll (inverse : map.Inverse) (pairs : List (Key × Slot))
    (nodup : (pairs.map Prod.fst).Nodup)
    (unmapped : ∀ pair ∈ pairs, map.slotOf pair.1 = none) : (map.putAll pairs).Inverse := by
  induction pairs generalizing map with
  | nil => exact inverse
  | cons head pairs ih =>
    rw [map_cons, nodup_cons] at nodup
    refine ih (inverse.put (unmapped head mem_cons_self) head.2) nodup.2
      fun pair mem => ?_
    refine put_slotOf_eq_none _ (unmapped pair (mem_cons_of_mem _ mem)) fun same => ?_
    exact nodup.1 (same ▸ mem_map_of_mem mem)

/-! ### Contents -/

def scatter (memory : Slot → Row) (stores : List (Slot × Row)) : Slot → Row :=
  stores.foldl (fun memory store => Function.update memory store.1 store.2) memory

theorem scatter_of_notMem (stores : List (Slot × Row)) (memory : Slot → Row) {slot : Slot}
    (other : slot ∉ stores.map Prod.fst) : scatter memory stores slot = memory slot := by
  induction stores generalizing memory with
  | nil => rfl
  | cons store stores ih =>
    rw [map_cons, mem_cons, not_or] at other
    have step := ih (update memory store.1 store.2) other.2
    rw [update_of_ne other.1] at step
    exact step

theorem scatter_of_mem (stores : List (Slot × Row)) (memory : Slot → Row)
    (nodup : (stores.map Prod.fst).Nodup) {store : Slot × Row} (mem : store ∈ stores) :
    scatter memory stores store.1 = store.2 := by
  induction stores generalizing memory with
  | nil => cases mem
  | cons head stores ih =>
    rw [map_cons, nodup_cons] at nodup
    rcases mem_cons.mp mem with rfl | later
    · have kept := scatter_of_notMem stores (update memory store.1 store.2) nodup.1
      rw [update_self] at kept
      exact kept
    · exact ih _ nodup.2 later

/-- What a mapped slot contains is what its key stands for. `Faithful.putAll` is the rule for a map
update that is followed by the copies it scheduled. -/
def Faithful (map : SlotMap Key Slot) (memory : Slot → Row) (source : Key → Row) : Prop :=
  ∀ slot key, map.keyOf slot = some key → memory slot = source key

/-- **An update and its copies.** When distinct slots are given to keys and the rows of these keys
are copied there, the contents stay faithful. -/
theorem Faithful.putAll {memory : Slot → Row} {source : Key → Row}
    (faithful : map.Faithful memory source) (pairs : List (Key × Slot))
    (nodup : (pairs.map Prod.snd).Nodup) :
    (map.putAll pairs).Faithful
      (scatter memory (pairs.map fun pair => (pair.2, source pair.1))) source := by
  intro slot key held
  have indices : (pairs.map fun pair => (pair.2, source pair.1)).map Prod.fst =
      pairs.map Prod.snd := by
    rw [map_map]
    rfl
  by_cases written : slot ∈ pairs.map Prod.snd
  · obtain ⟨pair, mem, rfl⟩ := mem_map.mp written
    rw [putAll_keyOf_of_mem pairs nodup mem] at held
    cases held
    exact scatter_of_mem _ memory (indices ▸ nodup)
      (mem_map_of_mem (f := fun pair => (pair.2, source pair.1)) mem)
  · rw [putAll_keyOf_of_notMem map pairs written] at held
    rw [scatter_of_notMem _ memory (indices ▸ written)]
    exact faithful slot key held

end SlotMap

end FreeToken
