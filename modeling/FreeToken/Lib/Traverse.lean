/-
**Fallible steps, one after another.**
-/

import Mathlib.Data.List.Forall2

namespace FreeToken

open List

variable {ε α β : Type} {items : List α}

/-- A step that returns a known value for each element. -/
theorem mapM_some {step : α → Option β} {res : α → β}
    (each : ∀ item ∈ items, step item = some (res item)) :
    items.mapM step = some (items.map res) := by
  induction items with
  | nil => rfl
  | cons item items ih =>
    rw [mapM_cons, each item mem_cons_self, ih fun other mem => each other (mem_cons_of_mem _ mem)]
    rfl

/-- Two steps that agree. -/
theorem mapM_congr {step other : α → Option β}
    (each : ∀ item ∈ items, step item = other item) : items.mapM step = items.mapM other := by
  induction items with
  | nil => rfl
  | cons item items ih =>
    rw [mapM_cons, mapM_cons, each item mem_cons_self,
      ih fun other mem => each other (mem_cons_of_mem _ mem)]

/-- One that returns a list of related values. -/
theorem mapM_flatten {γ δ : Type} {R : γ → δ → Prop} {step : α → Option (List δ)}
    {source : α → List γ}
    (each : ∀ item ∈ items, ∃ results, step item = some results ∧
      List.Forall₂ R (source item) results) :
    ∃ all, items.mapM step = some all ∧ List.Forall₂ R (items.flatMap source) all.flatten := by
  induction items with
  | nil => exact ⟨[], rfl, .nil⟩
  | cons item items ih =>
    obtain ⟨results, ret, related⟩ := each item mem_cons_self
    obtain ⟨all, others, rest⟩ := ih fun other mem => each other (mem_cons_of_mem _ mem)
    refine ⟨results :: all, ?_, rel_append related rest⟩
    rw [mapM_cons, ret, others]
    rfl

/-- A traversal that returns. -/
theorem mapM_isSome {step : α → Option β} {results : List β}
    (done : items.mapM step = some results) : ∀ item ∈ items, (step item).isSome = true := by
  induction items generalizing results with
  | nil => nofun
  | cons item items ih =>
    rw [mapM_cons] at done
    cases here : step item with
    | none =>
      rw [here] at done
      cases done
    | some res =>
      cases rest : items.mapM step with
      | none =>
        rw [here, rest] at done
        cases done
      | some others =>
        intro other mem
        rcases mem_cons.mp mem with rfl | later
        · rw [here]
          rfl
        · exact ih rest other later

/-- A sequence returns if both of its parts do. -/
theorem bind_ok_iff {comp : Except ε α} {next : α → Except ε β} {res : β} :
    comp >>= next = .ok res ↔ ∃ value, comp = .ok value ∧ next value = .ok res := by
  constructor
  · intro done
    cases comp with
    | error err => cases done
    | ok value => exact ⟨value, rfl, done⟩
  · rintro ⟨value, rfl, done⟩
    exact done

variable {step : α → Except ε β}

theorem mapM_ok {R : α → β → Prop}
    (each : ∀ item ∈ items, ∃ res, step item = .ok res ∧ R item res) :
    ∃ results, items.mapM step = .ok results ∧ List.Forall₂ R items results := by
  induction items with
  | nil => exact ⟨[], rfl, .nil⟩
  | cons item items ih =>
    obtain ⟨res, done, related⟩ := each item mem_cons_self
    obtain ⟨results, rest, others⟩ := ih fun other mem => each other (mem_cons_of_mem _ mem)
    refine ⟨res :: results, ?_, .cons related others⟩
    rw [mapM_cons]
    exact bind_ok_iff.mpr ⟨res, done, bind_ok_iff.mpr ⟨results, rest, rfl⟩⟩

theorem mapM_eq_ok {results : List β} (done : items.mapM step = .ok results) :
    List.Forall₂ (fun item res => step item = .ok res) items results := by
  induction items generalizing results with
  | nil =>
    cases done
    exact .nil
  | cons item items ih =>
    rw [mapM_cons] at done
    obtain ⟨res, here, rest⟩ := bind_ok_iff.mp done
    obtain ⟨others, later, same⟩ := bind_ok_iff.mp rest
    cases same
    exact .cons here (ih later)

/-- The results when the step is known. -/
theorem mapM_of_forall₂ {γ : Type} {res : γ → β} {known : List γ}
    (related : List.Forall₂ (fun other item => step item = .ok (res other)) known items) :
    items.mapM step = .ok (known.map res) := by
  induction related with
  | nil => rfl
  | cons here later ih =>
    rw [mapM_cons]
    exact bind_ok_iff.mpr ⟨_, here, bind_ok_iff.mpr ⟨_, ih, rfl⟩⟩

end FreeToken
