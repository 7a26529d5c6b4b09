/-
**The hybrid kernel and its CPU mirror agree.**

The kernel takes the greatest score and the least usage among its lanes, round after round; the
mirror sorts the misses once and takes the least usage among all slots. The scores put the misses in
the mirror's order, and a lane is masked exactly where the mirror's usage is the current step.
-/

import FreeToken.Moe.FetchSplit
import FreeToken.Moe.NoStaleHit
import Mathlib.Data.List.Sort

namespace FreeToken

open SlotMap List Function

variable (recency : Nat → Int)

namespace OffloadMoeCache

variable {Bank Bytes : Type} {cfg : OffloadConfig Bank Bytes}
  {cache : OffloadMoeCache Bank Bytes} {base step layerId : Nat} {expertIds : List Nat}

theorem argmin_congr {Left Right : Type} [LinearOrder Left] [LinearOrder Right] {left : Nat → Left}
    {right : Nat → Right} {indices : List Nat}
    (same : ∀ a ∈ indices, ∀ b ∈ indices, left a ≤ left b ↔ right a ≤ right b) :
    indices.argmin left = indices.argmin right := by
  cases least : indices.argmin right with
  | none =>
    rw [argmin_eq_none] at least ⊢
    exact least
  | some index =>
    obtain ⟨mem, lower, first⟩ := argmin_eq_some_iff.mp least
    refine argmin_eq_some_iff.mpr ⟨mem, ?_, ?_⟩
    · exact fun other lt => (same index mem other lt).mpr (lower other lt)
    · exact fun other lt tie => first other lt ((same other lt index mem).mp tie)

/-! ### The mirror's order -/

def fetchOrder (cfg : OffloadConfig Bank Bytes) (cache : OffloadMoeCache Bank Bytes) (base : Nat)
    (expertIds : List Nat) : List Nat :=
  (missingIds cache.slotForId base expertIds).mergeSort
    (fetchBefore cfg cache.expertRecency base)

theorem fetchOrder_perm (routed : ∀ expert ∈ expertIds, expert < cfg.numExperts) :
    (fetchOrder cfg cache base expertIds).Perm
      (missingExperts cfg cache.slotForId base expertIds) :=
  (mergeSort_perm _ _).trans (missing_perm routed cache.slotForId)

theorem fetchBefore_trans (left mid right : Nat)
    (first : fetchBefore cfg recency base left mid = true)
    (second : fetchBefore cfg recency base mid right = true) :
    fetchBefore cfg recency base left right = true := by
  unfold fetchBefore at *
  grind

theorem fetchBefore_total (left right : Nat) :
    (fetchBefore cfg recency base left right || fetchBefore cfg recency base right left) =
      true := by
  unfold fetchBefore
  grind

theorem fetchOrder_pairwise : (fetchOrder cfg cache base expertIds).Pairwise
    fun left right => fetchBefore cfg cache.expertRecency base left right = true :=
  pairwise_mergeSort (fetchBefore_trans _) (fetchBefore_total _) _

theorem fetchOrder_byId (byId : cfg.byRecency = false)
    (routed : ∀ expert ∈ expertIds, expert < cfg.numExperts) :
    fetchOrder cfg cache base expertIds = missingExperts cfg cache.slotForId base expertIds := by
  have ordered : (missingExperts cfg cache.slotForId base expertIds).Pairwise (· < ·) :=
    pairwise_lt_range.filter _
  refine @Perm.eq_of_pairwise _ (fun left right =>
    fetchBefore cfg cache.expertRecency base left right = true) _ _ ?_ fetchOrder_pairwise ?_
    (fetchOrder_perm routed)
  · intro left right _ _ pre after
    simp only [fetchBefore, byId, Bool.false_eq_true, false_and, if_false,
      decide_eq_true_iff] at pre after
    exact pre.antisymm after
  · refine ordered.imp fun {left right} less => ?_
    simp only [fetchBefore, byId, Bool.false_eq_true, false_and, if_false, decide_eq_true_iff]
    exact less.le

theorem score_lt (byRecency : cfg.byRecency = true) {left right : Nat}
    (bound : left < cfg.numExperts) (differs : left ≠ right)
    (pre : fetchBefore cfg recency base left right = true) :
    recency (base + right) * cfg.numExperts + (cfg.numExperts - 1 - right : Int) <
      recency (base + left) * cfg.numExperts + (cfg.numExperts - 1 - left : Int) := by
  unfold fetchBefore at pre
  by_cases tie : recency (base + left) = recency (base + right)
  · rw [if_neg fun both => both.2 tie, decide_eq_true_iff] at pre
    rw [tie]
    omega
  · rw [if_pos ⟨byRecency, tie⟩, decide_eq_true_iff] at pre
    have scaled : (recency (base + right) + 1) * cfg.numExperts ≤
        recency (base + left) * cfg.numExperts :=
      mul_le_mul_of_nonneg_right pre (Int.natCast_nonneg _)
    rw [add_mul, one_mul] at scaled
    omega

/-! ### One round -/

def FetchLanes.over (lanes : FetchLanes) (cache : OffloadMoeCache Bank Bytes) (step : Nat) :
    OffloadMoeCache Bank Bytes :=
  { cache with
    slotForId := lanes.slotForId
    idOfSlot := lanes.idOfSlot
    usage := lanes.usage
    step := step
    evictSlots := lanes.evictSlots
    srcIndices := lanes.srcIndices }

/-- **What ties the lanes to the mirror**: a slot is masked when its usage is the step, an expert
that was not chosen has its first score, and the chosen ones are the first of the mirror's. -/
structure FetchLanes.Order (cfg : OffloadConfig Bank Bytes) (cache : OffloadMoeCache Bank Bytes)
    (base step : Nat) (expertIds : List Nat) (lanes : FetchLanes) : Prop where
  u : ∀ slot, lanes.u slot = if lanes.usage slot < step then (lanes.usage slot : WithTop Nat) else ⊤
  score : ∀ expert, expert ∉ lanes.srcIndices →
    lanes.score expert = (fetchStart cfg cache base step expertIds).score expert
  chosen : lanes.srcIndices = (fetchOrder cfg cache base expertIds).take lanes.srcIndices.length

theorem fetchStart_order (coherent : Coherent cfg cache) :
    (fetchStart cfg cache base (cache.step + 1) expertIds).Order cfg cache base
      (cache.step + 1) expertIds where
  u := by
    intro slot
    have old := coherent.clock slot
    have owner : (∃ expert ∈ expertIds, cache.idOfSlot slot = some (base + expert)) ↔
        ∃ expert ∈ expertIds, cache.slotForId (base + expert) = some slot :=
      exists_congr fun expert => and_congr_right fun _ => (coherent.inverse _ _).symm
    simp only [fetchStart, touchHits, owner]
    split
    · rw [if_neg (lt_irrefl _)]
    · rw [if_pos (by omega)]
  score := fun _ _ => rfl
  chosen := rfl

variable {lanes : FetchLanes}

theorem FetchLanes.Order.victim (order : lanes.Order cfg cache base step expertIds)
    (inv : lanes.Inv cfg cache base step expertIds) :
    lanes.victim cache.cacheSize = ((List.range cache.cacheSize).argmin lanes.usage).getD 0 := by
  unfold FetchLanes.victim
  congr 1
  refine argmin_congr fun slot _ other _ => ?_
  have slotClock := inv.clock slot
  have otherClock := inv.clock other
  rw [order.u, order.u]
  by_cases slotOld : lanes.usage slot < step
  · rw [if_pos slotOld]
    by_cases otherOld : lanes.usage other < step
    · rw [if_pos otherOld]
      exact WithTop.coe_le_coe
    · rw [if_neg otherOld]
      exact iff_of_true le_top (by omega)
  · rw [if_neg slotOld]
    by_cases otherOld : lanes.usage other < step
    · rw [if_pos otherOld]
      exact iff_of_false (fun below => WithTop.coe_ne_top (top_le_iff.mp below)) (by omega)
    · rw [if_neg otherOld]
      exact iff_of_true le_rfl (by omega)

/-- **The expert is the mirror's next one.** -/
theorem FetchLanes.Order.expert (order : lanes.Order cfg cache base step expertIds)
    (inv : lanes.Inv cfg cache base step expertIds)
    (routed : ∀ expert ∈ expertIds, expert < cfg.numExperts)
    (left : lanes.srcIndices.length < (fetchOrder cfg cache base expertIds).length) :
    lanes.expert cfg (missingExperts cfg cache.slotForId base expertIds) =
      (fetchOrder cfg cache base expertIds)[lanes.srcIndices.length] := by
  have perm : (fetchOrder cfg cache base expertIds).Perm
      (missingExperts cfg cache.slotForId base expertIds) := fetchOrder_perm routed
  have nodup : (fetchOrder cfg cache base expertIds).Nodup :=
    perm.nodup_iff.mpr (missingExperts_nodup _)
  by_cases recency : cfg.byRecency = true
  · -- Both are missing and not chosen, so the one that the mirror puts first has the greater score.
    obtain ⟨mem, fresh, _⟩ := inv.expert (perm.length_eq ▸ left)
    have best : lanes.expert cfg (missingExperts cfg cache.slotForId base expertIds) =
        ((range cfg.numExperts).argmax lanes.score).getD 0 := if_pos recency
    generalize lanes.expert cfg (missingExperts cfg cache.slotForId base expertIds) = chosen
      at mem fresh best ⊢
    by_contra differs
    obtain ⟨position, lt, here⟩ := getElem_of_mem (perm.mem_iff.mpr mem)
    have later : lanes.srcIndices.length < position := by
      rcases lt_trichotomy lanes.srcIndices.length position with after | same | pre
      · exact after
      · subst same
        exact absurd here.symm differs
      · refine absurd ?_ fresh
        rw [order.chosen, ← here]
        exact mem_take_iff_getElem.mpr ⟨position, by omega, rfl⟩
    have nextMissing := perm.mem_iff.mp (getElem_mem left)
    have nextFresh : (fetchOrder cfg cache base expertIds)[lanes.srcIndices.length] ∉
        lanes.srcIndices := by
      intro again
      have inFirst : (fetchOrder cfg cache base expertIds)[lanes.srcIndices.length] ∈
          (fetchOrder cfg cache base expertIds).take lanes.srcIndices.length := by
        rw [← order.chosen]
        exact again
      obtain ⟨other, bound, same⟩ := mem_take_iff_getElem.mp inFirst
      have sameIndex := (Nodup.getElem_inj_iff nodup).mp same
      omega
    have pre := pairwise_iff_getElem.mp fetchOrder_pairwise _ _ left lt later
    rw [here] at pre
    have less := score_lt cache.expertRecency recency
      (mem_missingExperts.mp nextMissing).1 (Ne.symm differs) pre
    have most := argmax_range lanes.score (mem_missingExperts.mp nextMissing).1
    rw [← best, order.score _ fresh, order.score _ nextFresh] at most
    simp only [fetchStart, if_pos mem, if_pos nextMissing, WithBot.coe_le_coe] at most
    omega
  · have byId := Bool.eq_false_iff.mpr recency
    unfold FetchLanes.expert
    rw [if_neg recency, getD_eq_getElem?_getD, ← fetchOrder_byId byId routed,
      getElem?_eq_getElem left, Option.getD_some]

theorem FetchLanes.Inv.owner (inv : lanes.Inv cfg cache base step expertIds) {slot : Nat}
    (fresh : slot ∉ lanes.evictSlots) : lanes.idOfSlot slot = cache.idOfSlot slot := by
  have notStaged : slot ∉ (stagedPairs base lanes.evictSlots lanes.srcIndices).map Prod.snd :=
    (stagedPairs_snd base inv.paired).symm ▸ fresh
  have owner := putAll_keyOf_of_notMem cache.map _ notStaged
  rw [← inv.arrays] at owner
  exact owner

theorem fetchCpu_over (order : lanes.Order cfg cache (cfg.base layerId) step expertIds)
    (inv : lanes.Inv cfg cache (cfg.base layerId) step expertIds)
    (size : cfg.numExperts ≤ cache.cacheSize)
    (routed : ∀ expert ∈ expertIds, expert < cfg.numExperts)
    (left : lanes.srcIndices.length <
      (missingExperts cfg cache.slotForId (cfg.base layerId) expertIds).length)
    (expert : Nat) :
    fetchCpu layerId step cfg (lanes.over cache step) expert =
      (lanes.fetch cache.idOfSlot (cfg.base layerId) step (lanes.victim cache.cacheSize)
        expert).over cache step := by
  have owner := inv.owner (inv.victim size routed left).2
  have victim := order.victim inv
  unfold fetchCpu FetchLanes.over FetchLanes.fetch
  dsimp only
  rw [← victim, owner]

theorem FetchLanes.Order.fetch (order : lanes.Order cfg cache base step expertIds)
    (inv : lanes.Inv cfg cache base step expertIds)
    (routed : ∀ expert ∈ expertIds, expert < cfg.numExperts)
    (left : lanes.srcIndices.length < (fetchOrder cfg cache base expertIds).length) :
    (lanes.fetch cache.idOfSlot base step (lanes.victim cache.cacheSize)
      (lanes.expert cfg (missingExperts cfg cache.slotForId base expertIds))).Order cfg
        cache base step expertIds where
  u := by
    intro slot
    show update lanes.u (lanes.victim cache.cacheSize) ⊤ slot =
      if update lanes.usage (lanes.victim cache.cacheSize) step slot < step then
        (update lanes.usage (lanes.victim cache.cacheSize) step slot : WithTop Nat) else ⊤
    by_cases same : slot = lanes.victim cache.cacheSize
    · rw [same, update_self, update_self, if_neg (lt_irrefl _)]
    · rw [update_of_ne same, update_of_ne same]
      exact order.u slot
  score := by
    intro expert fresh
    unfold FetchLanes.fetch at fresh ⊢
    dsimp only at fresh ⊢
    rw [mem_append, mem_singleton, not_or] at fresh
    rw [update_of_ne fresh.2]
    exact order.score expert fresh.1
  chosen := by
    have next := order.expert inv routed left
    unfold FetchLanes.fetch
    rw [length_append, length_singleton, take_add_one,
      getElem?_eq_getElem left, ← order.chosen, next]
    rfl

/-! ### The loops -/

/-- Both loops, round by round. -/
theorem fetchLoop_over (size : cfg.numExperts ≤ cache.cacheSize)
    (routed : ∀ expert ∈ expertIds, expert < cfg.numExperts) (rounds : Nat)
    (inv : lanes.Inv cfg cache (cfg.base layerId) step expertIds)
    (order : lanes.Order cfg cache (cfg.base layerId) step expertIds)
    (enough : lanes.srcIndices.length + rounds ≤
      (fetchOrder cfg cache (cfg.base layerId) expertIds).length) :
    (((fetchOrder cfg cache (cfg.base layerId) expertIds).drop
        lanes.srcIndices.length).take rounds).foldl (fetchCpu layerId step cfg)
        (lanes.over cache step) =
      (fetchLoop cfg cache.cacheSize cache.idOfSlot (cfg.base layerId) step
        (missingExperts cfg cache.slotForId (cfg.base layerId) expertIds) rounds lanes).over
          cache step := by
  induction rounds generalizing lanes with
  | zero =>
    rw [take_zero]
    rfl
  | succ rounds ih =>
    have left : lanes.srcIndices.length <
        (fetchOrder cfg cache (cfg.base layerId) expertIds).length := by omega
    have leftMissing := (fetchOrder_perm routed).length_eq ▸ left
    have nextInv := inv.fetch size routed leftMissing
    have nextOrder := order.fetch inv routed left
    have rest := ih nextInv nextOrder (by
      rw [FetchLanes.fetch, length_append, length_singleton]
      omega)
    rw [drop_eq_getElem_cons left, take_succ_cons, foldl_cons,
      ← order.expert inv routed left, fetchCpu_over order inv size routed leftMissing]
    unfold fetchLoop
    rw [← rest]
    congr 3
    unfold FetchLanes.fetch
    rw [length_append, length_singleton]

theorem ensureExpertsHybrid_small (coherent : Coherent cfg cache) (layerId : Nat)
    (routed : ∀ expert ∈ expertIds, expert < cfg.numExperts) (most : cfg.fracQ16 ≤ 2 ^ 16)
    (small : cfg.fracQ16 = 0 ∨
      (missingIds cache.slotForId (cfg.base layerId) expertIds).length * cfg.fracQ16 < 2 ^ 31) :
    ensureExpertsHybridGpu cfg cache layerId expertIds =
      ensureExpertsHybridCpu cfg cache layerId expertIds := by
  have counts := (@missing_perm _ _ _ (cfg.base layerId) _ routed cache.slotForId).length_eq
  have sorted : (fetchOrder cfg cache (cfg.base layerId) expertIds).length =
      (missingExperts cfg cache.slotForId (cfg.base layerId) expertIds).length :=
    (fetchOrder_perm routed).length_eq
  have fetches := kernelNumFetch_eq most (counts ▸ small)
  have loops := @fetchLoop_over _ _ _ _ _ layerId _ _ coherent.size routed
    (kernelNumFetch cfg
      (missingExperts cfg cache.slotForId (cfg.base layerId) expertIds).length).toNat
    (fetchStart_inv coherent) (fetchStart_order coherent) (by
      rw [sorted]
      exact (zero_add _).trans_le (kernelNumFetch_le cfg _))
  have start : (fetchStart cfg cache (cfg.base layerId) (cache.step + 1)
      expertIds).srcIndices.length = 0 := rfl
  rw [start, drop_zero] at loops
  have cpu : ensureExpertsHybridCpu cfg cache layerId expertIds =
      let fetched := ((fetchOrder cfg cache (cfg.base layerId) expertIds).take
        (min ((fetchOrder cfg cache (cfg.base layerId) expertIds).length : Int)
          (maxFetch cfg (fetchOrder cfg cache (cfg.base layerId)
            expertIds).length)).toNat).foldl (fetchCpu layerId (cache.step + 1) cfg)
        ((fetchStart cfg cache (cfg.base layerId) (cache.step + 1) expertIds).over cache
          (cache.step + 1))
      ({ fetched with
          expertRecency := touchRecency cfg (cfg.base layerId) (cache.step + 1) expertIds
            cache.expertRecency },
        rewriteIds fetched.slotForId (cfg.base layerId) expertIds) := rfl
  rw [cpu, sorted]
  rw [← fetches, loops]
  rfl

theorem fetchLoop_length (cacheSize : Nat) (oid : Nat → Option Nat) (missing : List Nat)
    (rounds : Nat) : (fetchLoop cfg cacheSize oid base step missing rounds lanes).srcIndices.length =
      lanes.srcIndices.length + rounds := by
  induction rounds generalizing lanes with
  | zero => rfl
  | succ rounds ih =>
    unfold fetchLoop
    rw [ih, FetchLanes.fetch, length_append, length_singleton]
    omega

theorem fetchCpu_fetched (experts : List Nat) (cur : OffloadMoeCache Bank Bytes) :
    (experts.foldl (fetchCpu layerId step cfg) cur).srcIndices = cur.srcIndices ++ experts := by
  induction experts generalizing cur with
  | nil => exact (append_nil _).symm
  | cons expert experts ih =>
    rw [foldl_cons, ih]
    exact append_assoc _ [expert] experts

/-- **With a wrap the kernel stages fewer rows than its mirror.** -/
theorem ensureExpertsHybrid_large (layerId : Nat)
    (routed : ∀ expert ∈ expertIds, expert < cfg.numExperts) (most : cfg.fracQ16 ≤ 2 ^ 16)
    (large : 2 ^ 31 ≤
      (missingIds cache.slotForId (cfg.base layerId) expertIds).length * cfg.fracQ16) :
    (ensureExpertsHybridGpu cfg cache layerId expertIds).1.srcIndices.length <
      (ensureExpertsHybridCpu cfg cache layerId expertIds).1.srcIndices.length := by
  have sorted := (@mergeSort_perm _ (missingIds cache.slotForId (cfg.base layerId) expertIds)
    (fetchBefore cfg cache.expertRecency (cfg.base layerId))).length_eq
  rw [(@missing_perm _ _ _ (cfg.base layerId) _ routed cache.slotForId).length_eq] at large sorted
  have fewer := kernelNumFetch_lt most large
  unfold ensureExpertsHybridGpu ensureExpertsHybridCpu
  rw [fetchLoop_length, fetchCpu_fetched, length_append, length_take, sorted]
  change 0 + _ < 0 + _
  omega

/-- **The kernel and its mirror agree** on the cache they leave, with its map, its usage, its
recencies and the rows to fetch, on the rewritten ids and on the number of misses, exactly when the
kernel's products do not wrap. -/
theorem ensureExpertsHybrid_mirror_iff (coherent : Coherent cfg cache) (layerId : Nat)
    {expertIds : List Nat} (routed : ∀ expert ∈ expertIds, expert < cfg.numExperts)
    (most : cfg.fracQ16 ≤ 2 ^ 16) :
    (ensureExpertsHybridGpu cfg cache layerId expertIds =
        ensureExpertsHybridCpu cfg cache layerId expertIds ∧
      (missingExperts cfg cache.slotForId (cfg.base layerId) expertIds).length =
        (missingIds cache.slotForId (cfg.base layerId) expertIds).length) ↔
      cfg.fracQ16 = 0 ∨
        (missingIds cache.slotForId (cfg.base layerId) expertIds).length * cfg.fracQ16 <
          2 ^ 31 := by
  refine ⟨fun ⟨same, _⟩ => ?_, fun small => ⟨ensureExpertsHybrid_small coherent layerId routed most
    small, (missing_perm routed cache.slotForId).length_eq.symm⟩⟩
  by_contra large
  have fewer := ensureExpertsHybrid_large layerId routed most (not_lt.mp (not_or.mp large).2)
  rw [same] at fewer
  exact lt_irrefl _ fewer

def cappedConfig : OffloadConfig Unit Nat :=
  { smallConfig with
    hybridMaxFetch := 1
    byRecency := true }

/-- An expert that is asked for twice is fetched once, and the other one is left to the CPU. -/
theorem ensureExpertsHybrid_mirror_capped : ∃ cache,
    init cappedConfig (fun _ => 9) 2 false = .ok cache ∧
    ensureExpertsHybridGpu cappedConfig cache 1 [1, 0, 1] =
      ensureExpertsHybridCpu cappedConfig cache 1 [1, 0, 1] ∧
    (ensureExpertsHybridGpu cappedConfig cache 1 [1, 0, 1]).2 = [none, some 0, none] := by
  refine ⟨_, rfl, ?_, by decide⟩
  exact ((ensureExpertsHybrid_mirror_iff (@coherent_init _ _ _ _ (fun _ => 9) 2 false rfl) 1
    (by decide) (by decide)).mpr (.inl rfl)).1

/-- One layer of `2 ^ 15` experts, whose misses are all to be fetched. -/
def wideConfig : OffloadConfig Unit Unit :=
  { flatConfig with
    numLayers := 1
    numExperts := 2 ^ 15
    fracQ16 := 2 ^ 16 }

/-- A new cache misses all of them, and `2 ^ 15 * 2 ^ 16` wraps. -/
theorem ensureExpertsHybrid_wraps : ∃ cache, init wideConfig (fun _ => ()) (2 ^ 15) false = .ok cache ∧
    Coherent wideConfig cache ∧ ensureExpertsHybridGpu wideConfig cache 0 (range (2 ^ 15)) ≠
      ensureExpertsHybridCpu wideConfig cache 0 (range (2 ^ 15)) := by
  obtain ⟨cache, built, empty⟩ : ∃ cache, init wideConfig (fun _ => ()) (2 ^ 15) false = .ok cache ∧
      cache.slotForId = fun _ => none := ⟨_, rfl, rfl⟩
  refine ⟨cache, built, coherent_init built, fun same => ?_⟩
  have missing : missingIds cache.slotForId (wideConfig.base 0) (range (2 ^ 15)) = range (2 ^ 15) := by
    unfold missingIds
    rw [empty, nodup_range.dedup, filter_eq_self]
    exact fun _ _ => decide_eq_true rfl
  have fewer := @ensureExpertsHybrid_large _ _ wideConfig cache (range (2 ^ 15)) 0
    (fun expert mem => mem_range.mp mem) le_rfl (by rw [missing, length_range]; exact le_rfl)
  rw [same] at fewer
  exact lt_irrefl _ fewer

end OffloadMoeCache

end FreeToken
