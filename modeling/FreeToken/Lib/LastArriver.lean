/-
**The last program to arrive reduces the parts of all.**

Programs come in groups. Each stores its part of the cells of its group, then counts itself at the
counter of the group; the one that was the last to arrive reduces the parts, and clears the counter.
-/

import Mathlib.Data.Finset.Card

namespace FreeToken

open List Finset

inductive Phase where
  | ready
  | stored
  | last
  | reduced
  | done
  deriving DecidableEq

def Phase.arrived : Phase → Bool
  | .ready | .stored => false
  | .last | .reduced | .done => true

structure Arrivals (κ M : Type) where
  part : Nat → κ → M
  counter : Nat → Nat
  out : κ → M
  phase : Nat → Nat → Phase

section Programs

variable {κ M : Type} (parts : Nat) (groupOf : κ → Nat) (acc : Nat → κ → M)
  (reduce : (Nat → M) → κ → M)

/-- The next step of one program of a group. -/
def arriveStep (s : Arrivals κ M) (program : Nat × Nat) : Arrivals κ M :=
  let group := program.1
  let k := program.2
  let goes := fun phase g j => if g = group ∧ j = k then phase else s.phase g j
  match s.phase group k with
  | .ready =>
    { s with
      part := fun j cell => if j = k ∧ groupOf cell = group then acc k cell else s.part j cell
      phase := goes .stored }
  | .stored =>
    { s with
      counter := fun g => if g = group then s.counter group + 1 else s.counter g
      phase := goes (if s.counter group = parts - 1 then .last else .done) }
  | .last =>
    { s with
      out := fun cell =>
        if groupOf cell = group then reduce (fun j => s.part j cell) cell else s.out cell
      phase := goes .reduced }
  | .reduced =>
    { s with
      counter := fun g => if g = group then 0 else s.counter g
      phase := goes .done }
  | .done => s

def arrivedIn (s : Arrivals κ M) (group : Nat) : Finset Nat :=
  (Finset.range parts).filter fun k => (s.phase group k).arrived

/-- Nobody has closed the group: the counter says how many have arrived. -/
structure Waiting (s : Arrivals κ M) (group : Nat) : Prop where
  counted : s.counter group = (arrivedIn parts s group).card
  few : (arrivedIn parts s group).card < parts
  none : ∀ k < parts, s.phase group k ≠ .last ∧ s.phase group k ≠ .reduced

def Reduced (s : Arrivals κ M) (group : Nat) : Prop :=
  ∀ cell, groupOf cell = group → s.out cell = reduce (fun j => acc j cell) cell

structure Closing (s : Arrivals κ M) (group k : Nat) : Prop where
  within : k < parts
  closes : s.phase group k = .last ∨ s.phase group k = .reduced
  others : ∀ j < parts, j ≠ k → s.phase group j = .done
  result : s.phase group k = .reduced → Reduced groupOf acc reduce s group

structure Closed (s : Arrivals κ M) (group : Nat) : Prop where
  all : ∀ k < parts, s.phase group k = .done
  cleared : s.counter group = 0
  result : Reduced groupOf acc reduce s group

/-- What holds of a group between any two steps. -/
structure GroupInv (s : Arrivals κ M) (group : Nat) : Prop where
  stored : ∀ k < parts, s.phase group k ≠ .ready → ∀ cell, groupOf cell = group →
    s.part k cell = acc k cell
  stage : Waiting parts s group ∨ (∃ k, Closing parts groupOf acc reduce s group k) ∨
    Closed parts groupOf acc reduce s group

end Programs

section Steps

variable {κ M : Type} {parts : Nat} {groupOf : κ → Nat} {acc : Nat → κ → M}
  {reduce : (Nat → M) → κ → M} {s : Arrivals κ M} {group k : Nat}

theorem groupInv_start (some_ : 0 < parts) (cleared : s.counter group = 0)
    (ready : ∀ k < parts, s.phase group k = .ready) : GroupInv parts groupOf acc reduce s group := by
  have none : arrivedIn parts s group = ∅ := by
    unfold arrivedIn
    rw [filter_eq_empty_iff]
    intro k mem
    rw [ready k (Finset.mem_range.mp mem)]
    decide
  refine ⟨fun k within moved => absurd (ready k within) moved, Or.inl ⟨?_, ?_, ?_⟩⟩
  · rw [none, cleared, card_empty]
  · rw [none, card_empty]
    exact some_
  · intro k within
    rw [ready k within]
    decide

theorem arriveStep_other {program : Nat × Nat} (other : program.1 ≠ group) :
    (arriveStep parts groupOf acc reduce s program).counter group = s.counter group ∧
      (arriveStep parts groupOf acc reduce s program).phase group = s.phase group ∧
        ∀ cell, groupOf cell = group →
          (∀ j, (arriveStep parts groupOf acc reduce s program).part j cell = s.part j cell) ∧
            (arriveStep parts groupOf acc reduce s program).out cell = s.out cell := by
  have apart : ∀ cell, groupOf cell = group → groupOf cell ≠ program.1 :=
    fun cell inGroup same => other (same.symm.trans inGroup)
  have away : ∀ (phase : Phase), (fun j => if group = program.1 ∧ j = program.2 then phase
      else s.phase group j) = s.phase group := by
    intro phase
    funext j
    exact if_neg fun both => other both.1.symm
  unfold arriveStep
  dsimp only
  split
  · refine ⟨rfl, away _, fun cell inGroup => ⟨fun j => if_neg fun both => ?_, rfl⟩⟩
    exact apart cell inGroup both.2
  · exact ⟨if_neg other.symm, away _, fun cell inGroup => ⟨fun j => rfl, rfl⟩⟩
  · exact ⟨rfl, away _, fun cell inGroup => ⟨fun j => rfl, if_neg (apart cell inGroup)⟩⟩
  · exact ⟨if_neg other.symm, away _, fun cell inGroup => ⟨fun j => rfl, rfl⟩⟩
  · exact ⟨rfl, rfl, fun cell inGroup => ⟨fun j => rfl, rfl⟩⟩

theorem arriveStep_other_inv {program : Nat × Nat} (other : program.1 ≠ group)
    (inv : GroupInv parts groupOf acc reduce s group) :
    GroupInv parts groupOf acc reduce (arriveStep parts groupOf acc reduce s program) group := by
  obtain ⟨sameCounter, samePhase, sameCells⟩ :=
    @arriveStep_other κ M parts groupOf acc reduce s group program other
  have sameArrived : arrivedIn parts (arriveStep parts groupOf acc reduce s program) group =
      arrivedIn parts s group := by
    unfold arrivedIn
    rw [samePhase]
  have res : Reduced groupOf acc reduce s group →
      Reduced groupOf acc reduce (arriveStep parts groupOf acc reduce s program) group := by
    intro holds cell inGroup
    rw [(sameCells cell inGroup).2]
    exact holds cell inGroup
  constructor
  · intro k within moved cell inGroup
    rw [samePhase] at moved
    rw [(sameCells cell inGroup).1]
    exact inv.stored k within moved cell inGroup
  · rcases inv.stage with waiting | ⟨k, closing⟩ | closed
    · refine Or.inl ⟨?_, ?_, ?_⟩
      · rw [sameCounter, sameArrived]
        exact waiting.counted
      · rw [sameArrived]
        exact waiting.few
      · rw [samePhase]
        exact waiting.none
    · refine Or.inr (Or.inl ⟨k, closing.within, ?_, ?_, ?_⟩)
      · rw [samePhase]
        exact closing.closes
      · rw [samePhase]
        exact closing.others
      · rw [samePhase]
        exact fun isReduced => res (closing.result isReduced)
    · refine Or.inr (Or.inr ⟨?_, ?_, res closed.result⟩)
      · rw [samePhase]
        exact closed.all
      · rw [sameCounter]
        exact closed.cleared

theorem Waiting.arrived_iff (waiting : Waiting parts s group) (within : k < parts) :
    (s.phase group k).arrived = true ↔ s.phase group k = .done := by
  obtain ⟨notLast, notReduced⟩ := waiting.none k within
  cases isPhase : s.phase group k with
  | ready => decide
  | stored => decide
  | last => exact absurd isPhase notLast
  | reduced => exact absurd isPhase notReduced
  | done => decide

theorem GroupInv.waiting (inv : GroupInv parts groupOf acc reduce s group) (within : k < parts)
    (early : s.phase group k = .ready ∨ s.phase group k = .stored) : Waiting parts s group := by
  rcases inv.stage with waiting | ⟨j, closing⟩ | closed
  · exact waiting
  · by_cases same : k = j
    · subst same
      rcases closing.closes with isLast | isReduced <;> rcases early with ready | stored <;> simp_all
    · have isDone := closing.others k within same
      rcases early with ready | stored <;> simp_all
  · have isDone := closed.all k within
    rcases early with ready | stored <;> simp_all

theorem GroupInv.closing (inv : GroupInv parts groupOf acc reduce s group) (within : k < parts)
    (late : s.phase group k = .last ∨ s.phase group k = .reduced) :
    Closing parts groupOf acc reduce s group k := by
  rcases inv.stage with waiting | ⟨j, closing⟩ | closed
  · obtain ⟨notLast, notReduced⟩ := waiting.none k within
    exact absurd late (not_or.mpr ⟨notLast, notReduced⟩)
  · by_cases same : k = j
    · exact same ▸ closing
    · have isDone := closing.others k within same
      rcases late with isLast | isReduced <;> simp_all
  · have isDone := closed.all k within
    rcases late with isLast | isReduced <;> simp_all

variable (inv : GroupInv parts groupOf acc reduce s group) (within : k < parts)

include inv within

theorem store_inv (ready : s.phase group k = .ready) :
    GroupInv parts groupOf acc reduce (arriveStep parts groupOf acc reduce s (group, k)) group := by
  have waiting := inv.waiting within (Or.inl ready)
  have phases : ∀ j, (arriveStep parts groupOf acc reduce s (group, k)).phase group j =
      if j = k then .stored else s.phase group j := by
    intro j
    unfold arriveStep
    simp only [ready, true_and]
  have counters : (arriveStep parts groupOf acc reduce s (group, k)).counter group =
      s.counter group := by
    unfold arriveStep
    simp only [ready]
  have sameArrived : arrivedIn parts (arriveStep parts groupOf acc reduce s (group, k)) group =
      arrivedIn parts s group := by
    unfold arrivedIn
    ext j
    rw [Finset.mem_filter, Finset.mem_filter, phases]
    by_cases same : j = k
    · rw [if_pos same, same, ready]
      rfl
    · rw [if_neg same]
  constructor
  · intro j lt moved cell inGroup
    have cells : (arriveStep parts groupOf acc reduce s (group, k)).part j cell =
        if j = k ∧ groupOf cell = group then acc k cell else s.part j cell := by
      unfold arriveStep
      simp only [ready]
    rw [cells]
    by_cases same : j = k
    · rw [if_pos ⟨same, inGroup⟩, same]
    · rw [if_neg fun both => same both.1]
      rw [phases, if_neg same] at moved
      exact inv.stored j lt moved cell inGroup
  · refine Or.inl ⟨?_, ?_, ?_⟩
    · rw [counters, sameArrived]
      exact waiting.counted
    · rw [sameArrived]
      exact waiting.few
    · intro j lt
      rw [phases]
      split
      · decide
      · exact waiting.none j lt

/-- **A program counts itself**; where all others have, it is the one that closes the group. -/
theorem count_inv (stored : s.phase group k = .stored) :
    GroupInv parts groupOf acc reduce (arriveStep parts groupOf acc reduce s (group, k)) group := by
  have waiting := inv.waiting within (Or.inr stored)
  have phases : ∀ j, (arriveStep parts groupOf acc reduce s (group, k)).phase group j =
      if j = k then (if s.counter group = parts - 1 then .last else .done)
      else s.phase group j := by
    intro j
    unfold arriveStep
    simp only [stored, true_and]
  have counters : (arriveStep parts groupOf acc reduce s (group, k)).counter group =
      s.counter group + 1 := by
    unfold arriveStep
    simp only [stored, if_true]
  have cells : (arriveStep parts groupOf acc reduce s (group, k)).part = s.part := by
    unfold arriveStep
    simp only [stored]
  have fresh : k ∉ arrivedIn parts s group := by
    unfold arrivedIn
    rw [Finset.mem_filter, stored]
    exact fun both => absurd both.2 (by decide)
  have nowArrived : arrivedIn parts (arriveStep parts groupOf acc reduce s (group, k)) group =
      insert k (arrivedIn parts s group) := by
    unfold arrivedIn
    ext j
    rw [mem_insert, Finset.mem_filter, Finset.mem_filter, phases, Finset.mem_range]
    by_cases same : j = k
    · rw [if_pos same]
      refine iff_of_true ⟨same ▸ within, ?_⟩ (Or.inl same)
      split <;> rfl
    · rw [if_neg same]
      exact ⟨Or.inr, fun either => either.resolve_left same⟩
  constructor
  · intro j lt moved cell inGroup
    rw [cells]
    refine inv.stored j lt ?_ cell inGroup
    by_cases same : j = k
    · rw [same, stored]
      decide
    · rwa [phases, if_neg same] at moved
  · by_cases isLast : s.counter group = parts - 1
    · refine Or.inr (Or.inl ⟨k, within, Or.inl ?_, ?_, ?_⟩)
      · rw [phases, if_pos rfl, if_pos isLast]
      · intro j lt other
        have others : arrivedIn parts s group = (Finset.range parts).erase k := by
          apply eq_of_subset_of_card_le
          · intro i arrived
            refine mem_erase.mpr ⟨fun same => fresh (same ▸ arrived), ?_⟩
            exact (Finset.mem_filter.mp arrived).1
          · rw [card_erase_of_mem (Finset.mem_range.mpr within), card_range,
              ← waiting.counted, isLast]
        have arrived : j ∈ arrivedIn parts s group := by
          rw [others]
          exact mem_erase.mpr ⟨other, Finset.mem_range.mpr lt⟩
        rw [phases, if_neg other]
        exact (waiting.arrived_iff lt).mp (Finset.mem_filter.mp arrived).2
      · rw [phases, if_pos rfl, if_pos isLast]
        exact fun isReduced => absurd isReduced (by decide)
    · have few := waiting.few
      have counted := waiting.counted
      refine Or.inl ⟨?_, ?_, ?_⟩
      · rw [counters, nowArrived, card_insert_of_notMem fresh, counted]
      · rw [nowArrived, card_insert_of_notMem fresh]
        omega
      · intro j lt
        rw [phases, if_neg isLast]
        split
        · decide
        · exact waiting.none j lt

theorem reduce_inv (isLast : s.phase group k = .last)
    (local_ : ∀ (f g : Nat → M) cell, (∀ j < parts, f j = g j) → reduce f cell = reduce g cell) :
    GroupInv parts groupOf acc reduce (arriveStep parts groupOf acc reduce s (group, k)) group := by
  have closing := inv.closing within (Or.inl isLast)
  have phases : ∀ j, (arriveStep parts groupOf acc reduce s (group, k)).phase group j =
      if j = k then .reduced else s.phase group j := by
    intro j
    unfold arriveStep
    simp only [isLast, true_and]
  have cells : (arriveStep parts groupOf acc reduce s (group, k)).part = s.part := by
    unfold arriveStep
    simp only [isLast]
  have moved : ∀ j < parts, s.phase group j ≠ .ready := by
    intro j lt
    by_cases same : j = k
    · rw [same, isLast]
      decide
    · rw [closing.others j lt same]
      decide
  constructor
  · intro j lt _ cell inGroup
    rw [cells]
    exact inv.stored j lt (moved j lt) cell inGroup
  · refine Or.inr (Or.inl ⟨k, within, Or.inr ?_, ?_, ?_⟩)
    · rw [phases, if_pos rfl]
    · intro j lt other
      rw [phases, if_neg other]
      exact closing.others j lt other
    · intro _ cell inGroup
      have outs : (arriveStep parts groupOf acc reduce s (group, k)).out cell =
          reduce (fun j => s.part j cell) cell := by
        unfold arriveStep
        simp only [isLast, inGroup, if_true]
      rw [outs]
      exact local_ _ _ cell fun j lt => inv.stored j lt (moved j lt) cell inGroup

theorem clear_inv (isReduced : s.phase group k = .reduced) :
    GroupInv parts groupOf acc reduce (arriveStep parts groupOf acc reduce s (group, k)) group := by
  have closing := inv.closing within (Or.inr isReduced)
  have phases : ∀ j, (arriveStep parts groupOf acc reduce s (group, k)).phase group j =
      if j = k then .done else s.phase group j := by
    intro j
    unfold arriveStep
    simp only [isReduced, true_and]
  have cells : (arriveStep parts groupOf acc reduce s (group, k)).part = s.part := by
    unfold arriveStep
    simp only [isReduced]
  have outs : (arriveStep parts groupOf acc reduce s (group, k)).out = s.out := by
    unfold arriveStep
    simp only [isReduced]
  constructor
  · intro j lt _ cell inGroup
    rw [cells]
    refine inv.stored j lt ?_ cell inGroup
    by_cases same : j = k
    · rw [same, isReduced]
      decide
    · rw [closing.others j lt same]
      decide
  · refine Or.inr (Or.inr ⟨?_, ?_, ?_⟩)
    · intro j lt
      rw [phases]
      split
      · rfl
      · rename_i other
        exact closing.others j lt other
    · unfold arriveStep
      simp only [isReduced, if_true]
    · intro cell inGroup
      rw [outs]
      exact closing.result isReduced cell inGroup

end Steps

section Run

variable {κ M : Type} {parts : Nat} {groupOf : κ → Nat} {acc : Nat → κ → M}
  {reduce : (Nat → M) → κ → M}
  (local_ : ∀ (f g : Nat → M) cell, (∀ j < parts, f j = g j) → reduce f cell = reduce g cell)

include local_

/-- A step of any program keeps the invariant. -/
theorem arriveStep_inv {s : Arrivals κ M} {group : Nat} {program : Nat × Nat}
    (within : program.2 < parts) (inv : GroupInv parts groupOf acc reduce s group) :
    GroupInv parts groupOf acc reduce (arriveStep parts groupOf acc reduce s program) group := by
  by_cases same : program.1 = group
  · obtain ⟨g, k⟩ := program
    subst same
    cases isPhase : s.phase g k with
    | ready => exact store_inv inv within isPhase
    | stored => exact count_inv inv within isPhase
    | last => exact reduce_inv inv within isPhase local_
    | reduced => exact clear_inv inv within isPhase
    | done =>
      have stays : arriveStep parts groupOf acc reduce s (g, k) = s := by
        unfold arriveStep
        simp only [isPhase]
      rw [stays]
      exact inv
  · exact arriveStep_other_inv same inv

/-- In any order, once all programs of a group are done, its cells hold what the parts reduce to and
its counter is zero. -/
theorem arrivals_reduced {s : Arrivals κ M} {group : Nat} (some_ : 0 < parts)
    (cleared : s.counter group = 0) (ready : ∀ k < parts, s.phase group k = .ready)
    {events : List (Nat × Nat)} (within : ∀ event ∈ events, event.2 < parts)
    (finished : ∀ k < parts,
      (events.foldl (arriveStep parts groupOf acc reduce) s).phase group k = .done) :
    Closed parts groupOf acc reduce (events.foldl (arriveStep parts groupOf acc reduce) s) group := by
  have keeps : ∀ (events : List (Nat × Nat)) (s : Arrivals κ M),
      (∀ event ∈ events, event.2 < parts) → GroupInv parts groupOf acc reduce s group →
        GroupInv parts groupOf acc reduce (events.foldl (arriveStep parts groupOf acc reduce) s)
          group := by
    intro events
    induction events with
    | nil => exact fun s _ inv => inv
    | cons event events ih =>
      intro s within inv
      exact ih _ (fun other later => within other (List.mem_cons_of_mem _ later))
        (arriveStep_inv local_ (within event List.mem_cons_self) inv)
  have inv := keeps events s within (groupInv_start some_ cleared ready)
  rcases inv.stage with waiting | ⟨k, closing⟩ | closed
  · have all : arrivedIn parts (events.foldl (arriveStep parts groupOf acc reduce) s) group =
        Finset.range parts := by
      unfold arrivedIn
      rw [Finset.filter_eq_self]
      intro k mem
      rw [finished k (Finset.mem_range.mp mem)]
      rfl
    have few := waiting.few
    rw [all, card_range] at few
    exact absurd few (lt_irrefl _)
  · have isDone := finished k closing.within
    rcases closing.closes with isLast | isReduced <;> simp_all
  · exact closed

end Run

end FreeToken
