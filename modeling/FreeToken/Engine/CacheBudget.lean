/-
**The split of a memory budget between expert slots and KV pages.**
-/

import Mathlib.Tactic.Linarith

namespace FreeToken

/-- The arguments of `plan_cache_budget`. The budget is a difference and may be negative. -/
structure CacheBudget where
  budgetBytes : Int
  perExpertBytes : Nat
  cachePerPage : Nat
  numExperts : Nat
  totalExperts : Nat
  prefillOverlap : Bool
  kvReservePages : Nat
  maxSlots : Nat

/-- The assertions of `plan_cache_budget`, with the numbers that their texts show. -/
inductive BudgetError where
  | perExpertBytes
  | cachePerPage
  | slotCap (hi lo : Int)
  | tooSmall (moeCacheSize numPages total budget : Int)
  | noKVMemory

structure CachePlan where
  moeCacheSize : Int
  numPages : Int
  prefillOverlap : Bool

namespace CacheBudget

variable (self : CacheBudget)

def requiredBytes (moeCacheSize numPages : Int) : Int :=
  moeCacheSize * self.perExpertBytes + numPages * self.cachePerPage

def hi : Int := min self.totalExperts self.maxSlots

def overlap : Bool := self.prefillOverlap && decide (2 * self.numExperts ≤ self.hi)

def lo : Int := if self.overlap then 2 * self.numExperts else self.numExperts

/-- The plan, with its clamps in the order of the source. -/
def planCacheBudget : Except BudgetError CachePlan :=
  if self.perExpertBytes = 0 then .error .perExpertBytes
  else if self.cachePerPage = 0 then .error .cachePerPage
  else if self.hi < self.lo then .error (.slotCap self.hi self.lo)
  else
    let raw := (self.budgetBytes - self.kvReservePages * self.cachePerPage) / self.perExpertBytes
    let moeCacheSize := max self.lo (min raw self.hi)
    let overlap := self.overlap && decide (2 * self.numExperts ≤ moeCacheSize)
    let remaining := self.budgetBytes - moeCacheSize * self.perExpertBytes
    let numPages := max (remaining / self.cachePerPage) self.kvReservePages
    let total := self.requiredBytes moeCacheSize numPages
    if self.budgetBytes < total then
      .error (.tooSmall moeCacheSize numPages total self.budgetBytes)
    else if numPages ≤ 1 then .error .noKVMemory
    else .ok ⟨moeCacheSize, numPages, overlap⟩

/-! ### Plans -/

/-- What a plan has to be. -/
structure Admissible (moeCacheSize numPages : Int) : Prop where
  experts : self.numExperts ≤ moeCacheSize
  capped : moeCacheSize ≤ self.hi
  pages : max (self.kvReservePages : Int) 2 ≤ numPages
  fits : self.requiredBytes moeCacheSize numPages ≤ self.budgetBytes

/-- **The claimed behaviour**: a refusal where there is no plan, and otherwise a plan that leaves no
page over and overlaps only with the slots for it. -/
def Exact : Prop :=
  match self.planCacheBudget with
  | .error _ => ∀ moeCacheSize numPages, ¬self.Admissible moeCacheSize numPages
  | .ok plan =>
      self.Admissible plan.moeCacheSize plan.numPages ∧
      self.budgetBytes < self.requiredBytes plan.moeCacheSize (plan.numPages + 1) ∧
      (plan.prefillOverlap = true →
        self.prefillOverlap = true ∧ 2 * self.numExperts ≤ plan.moeCacheSize)

variable {self}

theorem requiredBytes_mono {slots slots' pages pages' : Int} (more : slots ≤ slots')
    (longer : pages ≤ pages') : self.requiredBytes slots pages ≤ self.requiredBytes slots' pages' :=
  Int.add_le_add (Int.mul_le_mul_of_nonneg_right more (Int.natCast_nonneg _))
    (Int.mul_le_mul_of_nonneg_right longer (Int.natCast_nonneg _))

/-- When there is a plan. -/
theorem exists_admissible_iff : (∃ slots pages, self.Admissible slots pages) ↔
    self.numExperts ≤ self.hi ∧
      self.requiredBytes self.numExperts (max (self.kvReservePages : Int) 2) ≤ self.budgetBytes := by
  constructor
  · rintro ⟨slots, pages, experts, capped, longer, fits⟩
    exact ⟨experts.trans capped, (requiredBytes_mono experts longer).trans fits⟩
  · rintro ⟨capped, fits⟩
    exact ⟨_, _, le_rfl, capped, le_rfl, fits⟩

theorem numExperts_le_lo (self : CacheBudget) : (self.numExperts : Int) ≤ self.lo := by
  unfold lo
  split <;> omega

theorem overlap_eq_true : self.overlap = true ↔
    self.prefillOverlap = true ∧ 2 * self.numExperts ≤ self.hi := by
  unfold overlap
  rw [Bool.and_eq_true, decide_eq_true_iff]

theorem lo_le_hi_iff : self.lo ≤ self.hi ↔ self.numExperts ≤ self.hi := by
  refine ⟨(numExperts_le_lo self).trans, fun capped => ?_⟩
  unfold lo
  split
  · next overlaps => exact (overlap_eq_true.mp overlaps).2
  · exact capped

/-- The slots that fill the budget beside the reserve, and what becomes of them. -/
theorem planCacheBudget_spec (slotBytes : 0 < self.perExpertBytes) (pageBytes : 0 < self.cachePerPage)
    (capped : self.lo ≤ self.hi) :
    (self.budgetBytes < self.requiredBytes self.lo self.kvReservePages →
      ∃ error, self.planCacheBudget = .error error) ∧
    (self.requiredBytes self.lo self.kvReservePages ≤ self.budgetBytes →
      ∃ slots, self.lo ≤ slots ∧ slots ≤ self.hi ∧
        self.requiredBytes slots self.kvReservePages ≤ self.budgetBytes ∧
        (∀ other ≤ self.hi, self.requiredBytes other self.kvReservePages ≤ self.budgetBytes →
          other ≤ slots) ∧
        (self.budgetBytes < self.requiredBytes slots 2 →
          ∃ error, self.planCacheBudget = .error error) ∧
        (self.requiredBytes slots 2 ≤ self.budgetBytes → ∃ pages, self.planCacheBudget =
            .ok ⟨slots, pages, self.overlap && decide (2 * self.numExperts ≤ slots)⟩ ∧
          max (self.kvReservePages : Int) 2 ≤ pages ∧
          self.requiredBytes slots pages ≤ self.budgetBytes ∧
          self.budgetBytes < self.requiredBytes slots (pages + 1))) := by
  have slotSize : (0 : Int) < self.perExpertBytes := by exact_mod_cast slotBytes
  have pageSize : (0 : Int) < self.cachePerPage := by exact_mod_cast pageBytes
  unfold planCacheBudget
  rw [if_neg (by omega), if_neg (by omega), if_neg (by omega)]
  dsimp only
  obtain ⟨raw, isRaw⟩ : ∃ raw, raw =
      (self.budgetBytes - self.kvReservePages * self.cachePerPage) / self.perExpertBytes := ⟨_, rfl⟩
  -- a number of slots fits beside the reserve if it is at most `raw`
  have beside : ∀ slots, self.requiredBytes slots self.kvReservePages ≤ self.budgetBytes ↔
      slots ≤ raw := by
    intro slots
    rw [isRaw, Int.le_ediv_iff_mul_le slotSize]
    unfold requiredBytes
    omega
  rw [← isRaw, beside]
  constructor
  · intro short
    rw [← not_le, beside, not_le] at short
    have floored : max self.lo (min raw self.hi) = self.lo := by omega
    rw [floored, if_pos]
    · exact ⟨_, rfl⟩
    · refine lt_of_lt_of_le ?_ (requiredBytes_mono le_rfl (le_max_right _ _))
      rw [← not_le, beside]
      omega
  · intro enough
    have filled : max self.lo (min raw self.hi) = min raw self.hi := by omega
    obtain ⟨slots, isSlots⟩ : ∃ slots, slots = min raw self.hi := ⟨_, rfl⟩
    rw [filled, ← isSlots]
    have remains : ∀ pages, pages ≤ (self.budgetBytes - slots * self.perExpertBytes) /
        self.cachePerPage ↔ self.requiredBytes slots pages ≤ self.budgetBytes := by
      intro pages
      rw [Int.le_ediv_iff_mul_le pageSize]
      unfold requiredBytes
      omega
    have reserved := (remains self.kvReservePages).mpr ((beside slots).mpr (by omega))
    rw [max_eq_left reserved]
    generalize (self.budgetBytes - slots * self.perExpertBytes) / (self.cachePerPage : Int) = pages
      at remains reserved ⊢
    rw [if_neg (not_lt.mpr ((remains pages).mp le_rfl))]
    refine ⟨slots, by omega, by omega, (beside slots).mpr (by omega), fun other below fits => ?_,
      fun short => ?_, fun fits => ⟨pages, ?_, ?_, (remains pages).mp le_rfl, ?_⟩⟩
    · have := (beside other).mp fits
      omega
    · rw [← not_le, ← remains] at short
      rw [if_pos (by omega)]
      exact ⟨_, rfl⟩
    · have := (remains 2).mpr fits
      rw [if_neg (by omega)]
    · exact max_le reserved ((remains 2).mpr fits)
    · rw [← not_le, ← remains]
      omega

/-! ### When the plan is exact -/

/-- **When the clamps find the plan that there is**: there is none, or the overlap floor fits beside the
reserve wherever the cap allows it, and slots that fit beside the reserve fit beside two pages. -/
def Holds (self : CacheBudget) : Prop :=
  self.hi < self.numExperts ∨
  self.budgetBytes < self.requiredBytes self.numExperts (max (self.kvReservePages : Int) 2) ∨
  0 < self.perExpertBytes ∧ 0 < self.cachePerPage ∧
    (self.prefillOverlap = true → 2 * self.numExperts ≤ self.hi →
      self.requiredBytes (2 * self.numExperts) self.kvReservePages ≤ self.budgetBytes) ∧
    ∀ slots ≤ self.hi, self.requiredBytes slots self.kvReservePages ≤ self.budgetBytes →
      self.requiredBytes slots 2 ≤ self.budgetBytes

theorem exact_of_error {error : BudgetError} (refused : self.planCacheBudget = .error error) :
    self.Exact ↔ self.hi < self.numExperts ∨
      self.budgetBytes < self.requiredBytes self.numExperts (max (self.kvReservePages : Int) 2) := by
  have none : self.Exact ↔ ¬∃ slots pages, self.Admissible slots pages := by
    unfold Exact
    rw [refused]
    simp only [not_exists]
  rw [none, exists_admissible_iff, not_and_or, not_le, not_le]

/-- **The plan is exact under exactly this condition.** -/
theorem planCacheBudget_exact_iff (self : CacheBudget) : self.Exact ↔ self.Holds := by
  unfold Holds
  by_cases slotBytes : self.perExpertBytes = 0
  · rw [exact_of_error (if_pos slotBytes)]
    omega
  by_cases pageBytes : self.cachePerPage = 0
  · rw [exact_of_error ((if_neg slotBytes).trans (if_pos pageBytes))]
    omega
  by_cases capped : self.lo ≤ self.hi
  case neg =>
    rw [exact_of_error ((if_neg slotBytes).trans ((if_neg pageBytes).trans
      (if_pos (not_le.mp capped))))]
    rw [lo_le_hi_iff, not_le] at capped
    exact iff_of_true (.inl capped) (.inl capped)
  obtain ⟨unfit, fit⟩ := planCacheBudget_spec (pos_of_ne_zero slotBytes)
    (pos_of_ne_zero pageBytes) capped
  have single := lo_le_hi_iff.mp capped
  rcases lt_or_ge self.budgetBytes (self.requiredBytes self.lo self.kvReservePages) with short | enough
  · -- the floor does not fit: without overlap there is no plan, and with it there may be one
    obtain ⟨error, refused⟩ := unfit short
    rw [exact_of_error refused]
    refine ⟨fun none => none.imp_right .inl, fun holds => ?_⟩
    rcases holds with none | none | ⟨-, -, floor, -⟩
    · exact .inl none
    · exact .inr none
    · unfold lo at short
      split at short
      · next overlaps =>
        obtain ⟨asked, room⟩ := overlap_eq_true.mp overlaps
        exact absurd (floor asked room) (not_le.mpr short)
      · exact .inr (short.trans_le (requiredBytes_mono le_rfl (le_max_left _ _)))
  · obtain ⟨slots, floor, below, beside, most, refuses, plans⟩ := fit enough
    rcases lt_or_ge self.budgetBytes (self.requiredBytes slots 2) with short | pair
    · -- the slots leave less than two pages
      obtain ⟨error, refused⟩ := refuses short
      rw [exact_of_error refused]
      refine ⟨fun none => none.imp_right .inl, fun holds => ?_⟩
      rcases holds with none | none | ⟨-, -, -, fits⟩
      · exact .inl none
      · exact .inr none
      · exact absurd (fits slots below beside) (not_le.mpr short)
    · obtain ⟨pages, planned, longer, fits, noMore⟩ := plans pair
      refine iff_of_true ?_ (.inr (.inr ⟨pos_of_ne_zero slotBytes, pos_of_ne_zero pageBytes,
        fun asked room => ?_, fun other capped besideOther => ?_⟩))
      · unfold Exact
        rw [planned]
        refine ⟨⟨(numExperts_le_lo self).trans floor, below, longer, fits⟩, noMore, fun overlaps => ?_⟩
        rw [Bool.and_eq_true, decide_eq_true_iff] at overlaps
        exact ⟨(overlap_eq_true.mp overlaps.1).1, overlaps.2⟩
      · rw [lo, if_pos (overlap_eq_true.mpr ⟨asked, room⟩)] at enough
        exact enough
      · exact (requiredBytes_mono (most other capped besideOther) le_rfl).trans pair

/-- Four experts a layer, eight in all, slots of a hundred bytes: six slots fit beside two pages, but
an overlap would take eight. -/
theorem overlap_floor_refuses : ¬CacheBudget.Exact ⟨620, 100, 10, 4, 8, true, 2, 8⟩ := by
  intro exact_
  exact exact_ 4 2 ⟨by decide, by decide, by decide, by decide⟩

end CacheBudget

end FreeToken
