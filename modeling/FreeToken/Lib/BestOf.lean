/-
**The best of a set.**
-/

import FreeToken.Lib.TopK
import Mathlib.Data.Finset.Union

namespace FreeToken

open Finset

variable {ι κ σ : Type} [LinearOrder σ]

def beating (score : ι → σ) (s : Finset ι) (i : ι) : Nat := (s.filter fun j => score i < score j).card

/-- The members of a set that fewer than `k` of its members beat. -/
def bestIn (score : ι → σ) (s : Finset ι) (k : Nat) : Finset ι :=
  s.filter fun i => beating score s i < k

section Best

variable {score : ι → σ} {s t : Finset ι} {k : Nat}

theorem mem_bestIn {i : ι} : i ∈ bestIn score s k ↔ i ∈ s ∧ beating score s i < k := mem_filter

theorem bestIn_subset : bestIn score s k ⊆ s := filter_subset _ _

theorem beating_mono (within : t ⊆ s) (i : ι) : beating score t i ≤ beating score s i :=
  card_le_card (filter_subset_filter _ within)

theorem beating_lt {i : ι} (mem : i ∈ s) : beating score s i < s.card := by
  apply card_lt_card
  rw [filter_ssubset]
  exact ⟨i, mem, lt_irrefl _⟩

theorem beating_strict {i j : ι} (mem : j ∈ s) (better : score i < score j) :
    beating score s j < beating score s i := by
  apply card_lt_card
  rw [ssubset_iff_of_subset]
  · refine ⟨j, mem_filter.mpr ⟨mem, better⟩, fun self => ?_⟩
    exact lt_irrefl _ (mem_filter.mp self).2
  · intro other isOther
    obtain ⟨lt, beats⟩ := mem_filter.mp isOther
    exact mem_filter.mpr ⟨lt, better.trans beats⟩

theorem bestIn_congr {τ : Type} [LinearOrder τ] {other : ι → τ}
    (same : ∀ i ∈ s, ∀ j ∈ s, score i < score j ↔ other i < other j) :
    bestIn score s k = bestIn other s k := by
  ext i
  rw [mem_bestIn, mem_bestIn]
  refine and_congr_right fun mem => ?_
  unfold beating
  rw [filter_congr fun j inSet => same i mem j inSet]

theorem bestIn_min {most : Nat} (few : s.card ≤ most) :
    bestIn score s (min most k) = bestIn score s k := by
  ext i
  rw [mem_bestIn, mem_bestIn]
  refine and_congr_right fun mem => ?_
  have below := (beating_lt mem : beating score s i < s.card)
  omega

variable (nodup : Set.InjOn score s)

include nodup

theorem beating_injOn : Set.InjOn (beating score s) s := by
  intro i iMem j jMem same
  by_contra ne
  have apart : score i ≠ score j := fun equal => ne (nodup iMem jMem equal)
  rcases lt_or_gt_of_ne apart with less | more
  · exact absurd same (beating_strict jMem less).ne'
  · exact absurd same (beating_strict iMem more).ne

/-- The best are `k`, or all. -/
theorem bestIn_card : (bestIn score s k).card = min s.card k := by
  have ranks : s.image (beating score s) = range s.card := by
    apply eq_of_subset_of_card_le
    · intro rank mem
      obtain ⟨i, lt, rfl⟩ := mem_image.mp mem
      exact mem_range.mpr (beating_lt lt)
    · rw [card_image_of_injOn (beating_injOn nodup), card_range]
  have best : (bestIn score s k).image (beating score s) = range (min s.card k) := by
    ext rank
    rw [mem_image, mem_range, lt_min_iff]
    constructor
    · rintro ⟨i, mem, rfl⟩
      obtain ⟨lt, few⟩ := mem_bestIn.mp mem
      exact ⟨beating_lt lt, few⟩
    · rintro ⟨within, few⟩
      obtain ⟨i, lt, rfl⟩ := mem_image.mp (ranks ▸ mem_range.mpr within)
      exact ⟨i, mem_bestIn.mpr ⟨lt, few⟩, rfl⟩
  have injective : Set.InjOn (beating score s) (bestIn score s k) :=
    (beating_injOn nodup).mono (coe_subset.mpr bestIn_subset)
  rw [← card_image_of_injOn injective, best, card_range]

/-- The best are those of every set between them and the whole. -/
theorem bestIn_between (best : bestIn score s k ⊆ t) (within : t ⊆ s) :
    bestIn score t k = bestIn score s k := by
  ext i
  rw [mem_bestIn, mem_bestIn]
  constructor
  · rintro ⟨mem, few⟩
    refine ⟨within mem, ?_⟩
    by_contra many
    -- the best beat whoever is not among them
    have beats : bestIn score s k ⊆ t.filter fun j => score i < score j := by
      intro j isBest
      refine mem_filter.mpr ⟨best isBest, ?_⟩
      obtain ⟨lt, fewer⟩ := mem_bestIn.mp isBest
      by_contra worse
      rcases lt_or_eq_of_le (not_lt.mp worse) with less | same
      · have strict := beating_strict (within mem) less
        omega
      · rw [nodup lt (within mem) same] at fewer
        exact many fewer
    have size := card_le_card beats
    have all : beating score s i < s.card := beating_lt (within mem)
    rw [bestIn_card nodup] at size
    unfold beating at few
    omega
  · rintro ⟨mem, few⟩
    exact ⟨best (mem_bestIn.mpr ⟨mem, few⟩), (beating_mono within i).trans_lt few⟩

omit nodup in
/-- The best of a union are the best among the best of its parts. -/
theorem bestIn_biUnion [DecidableEq ι] {parts : Finset κ} {part : κ → Finset ι}
    (nodup : Set.InjOn score (parts.biUnion part)) :
    bestIn score (parts.biUnion fun a => bestIn score (part a) k) k =
      bestIn score (parts.biUnion part) k := by
  apply bestIn_between nodup
  · intro i mem
    obtain ⟨lt, few⟩ := mem_bestIn.mp mem
    obtain ⟨a, isPart, inPart⟩ := mem_biUnion.mp lt
    have fewer : beating score (part a) i ≤ beating score (parts.biUnion part) i :=
      beating_mono (subset_biUnion_of_mem part isPart) i
    exact mem_biUnion.mpr ⟨a, isPart, mem_bestIn.mpr ⟨inPart, fewer.trans_lt few⟩⟩
  · exact biUnion_mono fun a _ => bestIn_subset

end Best

/-- Another name for each member makes no difference. -/
theorem bestIn_image [DecidableEq κ] {score : κ → σ} {s : Finset ι} {name : ι → κ} {k : Nat}
    (injective : Set.InjOn name s) :
    (bestIn (score ∘ name) s k).image name = bestIn score (s.image name) k := by
  have same : ∀ i, beating score (s.image name) (name i) = beating (score ∘ name) s i := by
    intro i
    unfold beating
    rw [filter_image, card_image_of_injOn]
    · rfl
    · exact injective.mono (coe_subset.mpr (filter_subset _ _))
  ext a
  rw [mem_image, mem_bestIn, mem_image]
  constructor
  · rintro ⟨i, mem, rfl⟩
    obtain ⟨lt, few⟩ := mem_bestIn.mp mem
    exact ⟨⟨i, lt, rfl⟩, (same i).trans_lt few⟩
  · rintro ⟨⟨i, lt, rfl⟩, few⟩
    exact ⟨i, mem_bestIn.mpr ⟨lt, (same i) ▸ few⟩, rfl⟩

end FreeToken
