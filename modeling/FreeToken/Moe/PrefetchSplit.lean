/-
**The split prefetch of a layer is the plain copy.**

`_prefetch_split` fills one half of the prefill double buffer from three sides: a gather of the
resident rows, copies of the missing rows in runs, and the small banks as a whole. The gather reads
the map as it stands, the runs the snapshot of the chunk's begin. The copies are done in any order.
-/

import FreeToken.Lib.Copies
import FreeToken.Moe.NoStaleHit

namespace FreeToken

open List

namespace OffloadMoeCache

variable {Bank Bytes : Type}

/-! ### The copies -/

/-- `_prefill_hit_compact_kernel`: the buffer rows and the slots of a layer's resident experts. -/
def prefillHitCompact (cfg : OffloadConfig Bank Bytes) (slotForId : Nat → Option Nat)
    (layerId bufferId : Nat) : List (Nat × Nat) :=
  ((List.range cfg.numExperts).filter fun expert =>
    resident cfg (slotForId (cfg.base layerId + expert))).map fun expert =>
      (bufferId * cfg.numExperts + expert, (slotForId (cfg.base layerId + expert)).getD 0)

/-- The gather of one bank: `fast_index_copy_multi` skips an index outside the rows. -/
def gatherBank (cacheSize : Nat) (hits : List (Nat × Nat)) (bank : Bank) :
    List (Copy (Nat × Bank) Bytes) :=
  (hits.filter fun hit => hit.1 < cacheSize ∧ hit.2 < cacheSize).map fun hit =>
    { dst := (hit.1, bank), source := .cell (hit.2, bank) }

def gatherCopies (cfg : OffloadConfig Bank Bytes) (cacheSize : Nat) (hits : List (Nat × Nat))
    (banks : List Bank) : List (Copy (Nat × Bank) Bytes) :=
  banks.flatMap fun bank =>
    if cfg.smallBank bank then [] else gatherBank cacheSize hits bank

/-- An entry of the batch copy: consecutive rows of one bank of a layer. -/
structure BatchEntry (Bank : Type) where
  bank : Bank
  dst : Nat
  src : Nat
  rows : Nat

def BatchEntry.copies (cfg : OffloadConfig Bank Bytes) (layerId : Nat)
    (entry : BatchEntry Bank) : List (Copy (Nat × Bank) Bytes) :=
  (List.range entry.rows).map fun row =>
    { dst := (entry.dst + row, entry.bank)
      source := .value (cfg.bankSources layerId (entry.src + row) entry.bank) }

def wholeBank (cfg : OffloadConfig Bank Bytes) (bufferId : Nat) (bank : Bank) :
    BatchEntry Bank where
  bank := bank
  dst := bufferId * cfg.numExperts
  src := 0
  rows := cfg.numExperts

def splitMisses (cfg : OffloadConfig Bank Bytes) (slotForId : Nat → Option Nat)
    (layerId : Nat) : List Nat :=
  (List.range cfg.numExperts).filter fun expert =>
    !resident cfg (slotForId (cfg.base layerId + expert))

def bankEntries (cfg : OffloadConfig Bank Bytes) (bufferId : Nat) (miss : List Nat)
    (bank : Bank) : List (BatchEntry Bank) :=
  if cfg.smallBank bank then [wholeBank cfg bufferId bank]
  else if miss ≠ [] then
    (runs miss).map fun run =>
      { bank := bank, dst := bufferId * cfg.numExperts + run.1, src := run.1, rows := run.2 }
  else []

def batchEntries (cfg : OffloadConfig Bank Bytes) (bufferId : Nat) (miss : List Nat)
    (banks : List Bank) : List (BatchEntry Bank) :=
  banks.flatMap (bankEntries cfg bufferId miss)

/-- The copies of `_prefetch_split`, with the map that the compaction finds and the snapshot. -/
def prefetchSplitCopies (cfg : OffloadConfig Bank Bytes) (cacheSize : Nat)
    (live snapshot : Nat → Option Nat) (layerId bufferId : Nat) (banks : List Bank) :
    List (Copy (Nat × Bank) Bytes) :=
  gatherCopies cfg cacheSize (prefillHitCompact cfg live layerId bufferId) banks ++
    (batchEntries cfg bufferId (splitMisses cfg snapshot layerId) banks).flatMap
      (BatchEntry.copies cfg layerId)

def wholeLayerCopies (cfg : OffloadConfig Bank Bytes) (layerId bufferId : Nat)
    (banks : List Bank) : List (Copy (Nat × Bank) Bytes) :=
  banks.flatMap fun bank => (wholeBank cfg bufferId bank).copies cfg layerId

def cells (cache : OffloadMoeCache Bank Bytes) : Nat × Bank → Bytes := fun cell =>
  cache.bankCaches cell.1 cell.2

/-! ### A chunk -/

variable {cfg : OffloadConfig Bank Bytes} {cache : OffloadMoeCache Bank Bytes}

inductive InChunk (cfg : OffloadConfig Bank Bytes) :
    OffloadMoeCache Bank Bytes → OffloadMoeCache Bank Bytes → Prop where
  | begins (start : OffloadMoeCache Bank Bytes) : InChunk cfg start (beginPrefill cfg start)
  | prefetch {start cache after : OffloadMoeCache Bank Bytes} (prev : InChunk cfg start cache)
      (layerId : Nat) (run : prefetchPrefillLayer cfg cache layerId = .ok after) :
      InChunk cfg start after
  | release {start cache : OffloadMoeCache Bank Bytes} (prev : InChunk cfg start cache)
      (layerId : Nat) : InChunk cfg start (releasePrefillLayer cache layerId)

/-- **What holds in a chunk**: the snapshot has above the double buffer what the map has there. -/
structure Chunk (cfg : OffloadConfig Bank Bytes) (cache : OffloadMoeCache Bank Bytes) : Prop where
  coherent : Coherent cfg cache
  agrees : cache.prefillOverlap = true → cache.prefillHitD2dActive = true →
    ∀ id, resident cfg (cache.prefillSlotSnapshot id) = resident cfg (cache.slotForId id)

def SameHits (cfg : OffloadConfig Bank Bytes) (live slotForId : Nat → Option Nat) : Prop :=
  ∀ id, resident cfg (live id) = resident cfg (slotForId id) ∧
    (resident cfg (live id) = true → live id = slotForId id)

theorem sameHits_refl (slotForId : Nat → Option Nat) : SameHits cfg slotForId slotForId :=
  fun _ => ⟨rfl, fun _ => rfl⟩

theorem sameHits_invalidate (coherent : Coherent cfg cache) {bufferId : Nat} (half : bufferId < 2) :
    SameHits cfg (invalidatePrefillBuffer cfg cache bufferId).slotForId cache.slotForId := by
  intro id
  have same : (invalidatePrefillBuffer cfg cache bufferId).slotForId id =
      (cache.slotForId id).filter fun slot => !inBuffer cfg bufferId slot :=
    congrFun (congrArg SlotMap.slotOf (invalidate_map coherent.inverse bufferId)) id
  rw [same]
  cases held : cache.slotForId id with
  | none => exact ⟨rfl, fun _ => rfl⟩
  | some slot =>
    by_cases lt : inBuffer cfg bufferId slot = true
    · -- A slot of the double buffer is not resident, before or after.
      have low : ¬ 2 * cfg.numExperts ≤ slot := by
        unfold inBuffer at lt
        rw [decide_eq_true_iff] at lt
        have doubled : bufferId * cfg.numExperts ≤ 1 * cfg.numExperts :=
          Nat.mul_le_mul_right _ (by omega)
        omega
      have never : resident cfg (some slot) = false := decide_eq_false low
      rw [Option.filter_some, lt, never]
      exact ⟨rfl, fun bad => nomatch bad⟩
    · rw [Option.filter_some, Bool.eq_false_iff.mpr lt]
      exact ⟨rfl, fun _ => rfl⟩

theorem Chunk.prefetch (chunk : Chunk cfg cache) {layerId : Nat}
    {after : OffloadMoeCache Bank Bytes}
    (run : prefetchPrefillLayer cfg cache layerId = .ok after) : Chunk cfg after where
  coherent := chunk.coherent.prefetchPrefillLayer run
  agrees := by
    unfold OffloadMoeCache.prefetchPrefillLayer at run
    split at run
    · exact Except.ok.inj run ▸ chunk.agrees
    dsimp only at run
    split at run
    · exact Except.ok.inj run ▸ chunk.agrees
    obtain ⟨done, _, filled⟩ := bind_eq_ok.mp run
    cases filled
    have half : layerId % 2 < 2 := Nat.mod_lt _ (by omega)
    split
    · intro overlap active id
      exact (chunk.agrees overlap active id).trans
        (sameHits_invalidate chunk.coherent half id).1.symm
    · intro overlap active id
      exact (chunk.agrees overlap active id).trans
        (sameHits_invalidate chunk.coherent half id).1.symm

theorem InChunk.chunk {start : OffloadMoeCache Bank Bytes} (coherent : Coherent cfg start)
    (inChunk : InChunk cfg start cache) : Chunk cfg cache := by
  induction inChunk with
  | begins =>
    refine ⟨coherent.beginPrefill, ?_⟩
    unfold beginPrefill
    split
    · intro overlap active id
      dsimp only at active ⊢
      rw [if_pos active]
    · rename_i off
      exact fun overlap => absurd overlap off
  | prefetch _ layerId run kept => exact kept.prefetch run
  | release _ layerId kept =>
    refine ⟨kept.coherent.releasePrefillLayer layerId, ?_⟩
    unfold OffloadMoeCache.releasePrefillLayer
    split
    · exact kept.agrees
    · exact kept.agrees

/-! ### Every row once -/

variable {live snapshot : Nat → Option Nat} {layerId bufferId : Nat} {banks : List Bank}

def bufferCells (cfg : OffloadConfig Bank Bytes) (bufferId : Nat) (bank : Bank) :
    List (Nat × Bank) :=
  (List.range cfg.numExperts).map fun expert => (bufferId * cfg.numExperts + expert, bank)

theorem entry_cells (entry : BatchEntry Bank) : (entry.copies cfg layerId).map Copy.dst =
      (List.range' entry.src entry.rows).map fun expert =>
        (entry.dst + (expert - entry.src), entry.bank) := by
  unfold BatchEntry.copies
  rw [map_map, range'_eq_map_range, map_map]
  refine map_congr_left fun row _ => ?_
  simp only [Function.comp_apply, Nat.add_sub_cancel_left]

theorem whole_cells (bank : Bank) : ((wholeBank cfg bufferId bank).copies cfg layerId).map
    Copy.dst = bufferCells cfg bufferId bank := by
  unfold BatchEntry.copies wholeBank bufferCells
  rw [map_map]
  rfl

theorem entries_cells {bank : Bank} (big : cfg.smallBank bank = false) :
    (((bankEntries cfg bufferId (splitMisses cfg snapshot layerId) bank).flatMap
      (BatchEntry.copies cfg layerId)).map Copy.dst) =
      (splitMisses cfg snapshot layerId).map fun expert =>
        (bufferId * cfg.numExperts + expert, bank) := by
  unfold bankEntries
  rw [if_neg (by rw [big]; exact Bool.false_ne_true)]
  split
  · rename_i some
    have ordered : (splitMisses cfg snapshot layerId).Pairwise (· < ·) := pairwise_lt_range.filter _
    have whole := runs_flatten some ordered
    generalize splitMisses cfg snapshot layerId = miss at some ordered whole ⊢
    rw [map_flatMap, flatMap_map]
    conv_rhs => rw [← whole]
    rw [map_flatMap]
    refine flatMap_congr fun run _ => ?_
    rw [entry_cells]
    refine map_congr_left fun expert mem => ?_
    have above := (mem_range'_1.mp mem).1
    rw [add_assoc, Nat.add_sub_cancel' above]
  · rename_i none
    rw [not_not.mp none]
    rfl

theorem gather_cells (coherent : Coherent cfg cache) (overlap : cache.prefillOverlap = true)
    (half : bufferId < 2) (hits : SameHits cfg live cache.slotForId) (bank : Bank) :
    @gatherBank _ Bytes cache.cacheSize (prefillHitCompact cfg live layerId bufferId)
      bank =
      ((List.range cfg.numExperts).filter fun expert =>
        resident cfg (live (cfg.base layerId + expert))).map fun expert =>
          { dst := (bufferId * cfg.numExperts + expert, bank)
            source := .cell ((live (cfg.base layerId + expert)).getD 0, bank) } := by
  unfold gatherBank prefillHitCompact
  have kept : ∀ hit ∈ ((range cfg.numExperts).filter fun expert =>
      resident cfg (live (cfg.base layerId + expert))).map fun expert =>
        (bufferId * cfg.numExperts + expert, (live (cfg.base layerId + expert)).getD 0),
      decide (hit.1 < cache.cacheSize ∧ hit.2 < cache.cacheSize) = true := by
    intro hit mem
    obtain ⟨expert, chosen, rfl⟩ := mem_map.mp mem
    obtain ⟨lt, isResident⟩ := mem_filter.mp chosen
    have bound := mem_range.mp lt
    have fits := coherent.overlap overlap
    have doubled : bufferId * cfg.numExperts ≤ 1 * cfg.numExperts :=
      Nat.mul_le_mul_right _ (by omega)
    refine decide_eq_true ⟨by dsimp only; omega, ?_⟩
    cases held : live (cfg.base layerId + expert) with
    | none =>
      rw [held] at isResident
      cases isResident
    | some slot =>
      have same := (hits (cfg.base layerId + expert)).2 isResident
      exact (coherent.bounds slot _ ((coherent.inverse _ _).mp (same.symm.trans held))).1
  rw [filter_eq_self.mpr kept, map_map]
  rfl

def bankCopies (cfg : OffloadConfig Bank Bytes) (cacheSize : Nat)
    (live snapshot : Nat → Option Nat) (layerId bufferId : Nat) (bank : Bank) :
    List (Copy (Nat × Bank) Bytes) :=
  (if cfg.smallBank bank then []
    else gatherBank cacheSize (prefillHitCompact cfg live layerId bufferId) bank) ++
  (bankEntries cfg bufferId (splitMisses cfg snapshot layerId) bank).flatMap
    (BatchEntry.copies cfg layerId)

theorem splitCopies_perm (cacheSize : Nat) :
    (prefetchSplitCopies cfg cacheSize live snapshot layerId bufferId banks).Perm
      (banks.flatMap (bankCopies cfg cacheSize live snapshot layerId bufferId)) := by
  unfold prefetchSplitCopies gatherCopies batchEntries
  rw [flatMap_assoc]
  exact flatMap_append_perm banks _ _

theorem bankCells_perm (coherent : Coherent cfg cache) (overlap : cache.prefillOverlap = true)
    (half : bufferId < 2) (hits : SameHits cfg live cache.slotForId)
    (agrees : ∀ id, resident cfg (snapshot id) = resident cfg (cache.slotForId id))
    (bank : Bank) :
    ((bankCopies cfg cache.cacheSize live snapshot layerId bufferId bank).map Copy.dst).Perm
      (bufferCells cfg bufferId bank) := by
  unfold bankCopies
  by_cases small : cfg.smallBank bank = true
  · unfold bankEntries
    rw [if_pos small, if_pos small, nil_append, flatMap_singleton, whole_cells]
  · have big := Bool.eq_false_iff.mpr small
    rw [if_neg small, map_append, entries_cells big,
      gather_cells coherent overlap half hits, map_map]
    have rest : splitMisses cfg snapshot layerId = (range cfg.numExperts).filter fun expert =>
          !resident cfg (live (cfg.base layerId + expert)) := by
      refine filter_congr fun expert _ => ?_
      rw [agrees, (hits _).1]
    rw [rest]
    have parts := (filter_append_perm (fun expert =>
      resident cfg (live (cfg.base layerId + expert))) (range cfg.numExperts)).map
        fun expert => (bufferId * cfg.numExperts + expert, bank)
    rw [map_append] at parts
    exact parts

/-- **Every row is written once**, bank by bank. -/
theorem splitCells_perm (coherent : Coherent cfg cache) (overlap : cache.prefillOverlap = true)
    (half : bufferId < 2) (hits : SameHits cfg live cache.slotForId)
    (agrees : ∀ id, resident cfg (snapshot id) = resident cfg (cache.slotForId id)) :
    ((prefetchSplitCopies cfg cache.cacheSize live snapshot layerId bufferId banks).map
      Copy.dst).Perm (banks.flatMap (bufferCells cfg bufferId)) := by
  refine ((splitCopies_perm _).map Copy.dst).trans ?_
  rw [map_flatMap]
  exact Perm.flatMap_left banks fun bank _ => bankCells_perm coherent overlap half hits agrees bank

theorem bufferCells_nodup (nodup : banks.Nodup) :
    (banks.flatMap (bufferCells cfg bufferId)).Nodup := by
  refine nodup_flatMap.mpr ⟨fun bank _ => ?_, nodup.imp fun {left right} differs => ?_⟩
  · refine nodup_range.map fun left right same => ?_
    have rows := congrArg Prod.fst same
    omega
  · intro cell inLeft inRight
    obtain ⟨_, _, rfl⟩ := mem_map.mp inLeft
    obtain ⟨_, _, same⟩ := mem_map.mp inRight
    exact differs (congrArg Prod.snd same).symm

theorem mem_bufferCells {row : Nat} {bank : Bank} (written : (row, bank) ∈ banks.flatMap
    (bufferCells cfg bufferId)) : bank ∈ banks ∧ bufferId * cfg.numExperts ≤ row ∧
      row < bufferId * cfg.numExperts + cfg.numExperts := by
  obtain ⟨other, mem, lt⟩ := mem_flatMap.mp written
  obtain ⟨expert, bound, same⟩ := mem_map.mp lt
  cases same
  have less := mem_range.mp bound
  exact ⟨mem, Nat.le_add_right _ _, by omega⟩

/-! ### The contents -/

def sourceRow (cfg : OffloadConfig Bank Bytes) (layerId bufferId : Nat) (cell : Nat × Bank) :
    Bytes := cfg.bankSources layerId (cell.1 - bufferId * cfg.numExperts) cell.2

theorem whole_reads (memory : Nat × Bank → Bytes) {copy : Copy (Nat × Bank) Bytes}
    (mem : copy ∈ wholeLayerCopies cfg layerId bufferId banks) :
    copy.source.read memory = sourceRow cfg layerId bufferId copy.dst := by
  obtain ⟨bank, _, lt⟩ := mem_flatMap.mp mem
  obtain ⟨row, _, rfl⟩ := mem_map.mp lt
  unfold wholeBank sourceRow Source.read
  rw [Nat.zero_add, Nat.add_sub_cancel_left]

/-- **Every copy brings the row of its cell**: the gather because the map is coherent. -/
theorem split_reads (coherent : Coherent cfg cache) (overlap : cache.prefillOverlap = true)
    (half : bufferId < 2) (hits : SameHits cfg live cache.slotForId)
    {copy : Copy (Nat × Bank) Bytes}
    (mem : copy ∈ prefetchSplitCopies cfg cache.cacheSize live snapshot layerId bufferId
      banks) :
    copy.source.read cache.cells = sourceRow cfg layerId bufferId copy.dst ∧
      ∀ cell, copy.source = .cell cell → 2 * cfg.numExperts ≤ cell.1 := by
  rcases mem_append.mp mem with gathered | batched
  · obtain ⟨bank, _, lt⟩ := mem_flatMap.mp gathered
    split at lt
    · cases lt
    · rw [gather_cells coherent overlap half hits] at lt
      obtain ⟨expert, chosen, rfl⟩ := mem_map.mp lt
      obtain ⟨bound, isResident⟩ := mem_filter.mp chosen
      have same := (hits _).2 isResident
      cases held : live (cfg.base layerId + expert) with
      | none =>
        rw [held] at isResident
        cases isResident
      | some slot =>
        have owner := (coherent.inverse _ _).mp (same.symm.trans held)
        have row := coherent.rows slot _ owner
        rw [row_base (mem_range.mp bound)] at row
        unfold sourceRow Source.read cells
        dsimp only
        rw [Option.getD_some, row, Nat.add_sub_cancel_left]
        refine ⟨rfl, fun cell reads => ?_⟩
        cases reads
        rw [held] at isResident
        exact of_decide_eq_true isResident
  · obtain ⟨entry, isEntry, lt⟩ := mem_flatMap.mp batched
    obtain ⟨row, _, rfl⟩ := mem_map.mp lt
    have offset : entry.dst = bufferId * cfg.numExperts + entry.src := by
      obtain ⟨bank, _, ofBank⟩ := mem_flatMap.mp isEntry
      unfold bankEntries at ofBank
      split at ofBank
      · rw [mem_singleton.mp ofBank]
        rfl
      · split at ofBank
        · obtain ⟨run, _, rfl⟩ := mem_map.mp ofBank
          rfl
        · cases ofBank
    refine ⟨?_, fun cell reads => nomatch reads⟩
    unfold sourceRow Source.read
    rw [offset, Nat.add_assoc, Nat.add_sub_cancel_left]

theorem split_apart (coherent : Coherent cfg cache) (overlap : cache.prefillOverlap = true)
    (half : bufferId < 2) (hits : SameHits cfg live cache.slotForId)
    (agrees : ∀ id, resident cfg (snapshot id) = resident cfg (cache.slotForId id))
    (nodup : banks.Nodup) :
    Apart (prefetchSplitCopies cfg cache.cacheSize live snapshot layerId bufferId banks) where
  distinct := (splitCells_perm coherent overlap half hits agrees).nodup_iff.mpr
    (bufferCells_nodup nodup)
  unread := by
    intro copy mem cell reads written
    have above := (split_reads coherent overlap half hits mem).2 cell reads
    have below := (mem_bufferCells
      ((splitCells_perm coherent overlap half hits agrees).mem_iff.mp written)).2.2
    have doubled : bufferId * cfg.numExperts ≤ 1 * cfg.numExperts :=
      Nat.mul_le_mul_right _ (by omega)
    omega

theorem wholeCells (cfg : OffloadConfig Bank Bytes) (layerId bufferId : Nat)
    (banks : List Bank) : (wholeLayerCopies cfg layerId bufferId banks).map Copy.dst =
      banks.flatMap (bufferCells cfg bufferId) := by
  unfold wholeLayerCopies
  rw [map_flatMap]
  exact flatMap_congr fun bank _ => whole_cells bank

theorem whole_apart (nodup : banks.Nodup) :
    Apart (wholeLayerCopies cfg layerId bufferId banks) where
  distinct := by
    rw [wholeCells]
    exact bufferCells_nodup nodup
  unread := by
    intro copy mem cell reads
    obtain ⟨bank, _, lt⟩ := mem_flatMap.mp mem
    obtain ⟨row, _, rfl⟩ := mem_map.mp lt
    cases reads

/-- **The split prefetch is the plain copy.** In every state of a chunk, for every layer and every
set of banks: the copies of `_prefetch_split`, done in any order and with each entry of the map read
before or after it was invalidated, leave what the plain copy leaves; each row of each bank is written
once, and nothing else is. -/
theorem prefetchSplit_whole [DecidableEq Bank] {start cache : OffloadMoeCache Bank Bytes}
    (coherent : Coherent cfg start) (inChunk : InChunk cfg start cache)
    (overlap : cache.prefillOverlap = true) (active : cache.prefillHitD2dActive = true)
    (layerId : Nat) {banks : List Bank} (nodup : banks.Nodup) {live : Nat → Option Nat}
    (found : ∀ id, live id = cache.slotForId id ∨
      live id = (invalidatePrefillBuffer cfg cache (layerId % 2)).slotForId id)
    {order : List (Copy (Nat × Bank) Bytes)}
    (perm : order.Perm (prefetchSplitCopies cfg cache.cacheSize live cache.prefillSlotSnapshot
      layerId (layerId % 2) banks)) :
    runCopies cache.cells order =
        runCopies cache.cells (wholeLayerCopies cfg layerId (layerId % 2) banks) ∧
      (∀ bank ∈ banks, ∀ expert < cfg.numExperts,
        (order.map Copy.dst).count (layerId % 2 * cfg.numExperts + expert, bank) = 1 ∧
        runCopies cache.cells order (layerId % 2 * cfg.numExperts + expert, bank) =
          cfg.bankSources layerId expert bank) ∧
      ∀ copy ∈ order, copy.dst.2 ∈ banks ∧ inBuffer cfg (layerId % 2) copy.dst.1 = true := by
  have chunk := inChunk.chunk coherent
  have half : layerId % 2 < 2 := Nat.mod_lt _ (by omega)
  have hits : SameHits cfg live cache.slotForId := by
    intro id
    rcases found id with same | invalidated
    · rw [same]
      exact sameHits_refl _ id
    · rw [invalidated]
      exact sameHits_invalidate chunk.coherent half id
  have agrees := chunk.agrees overlap active
  have cells := (perm.map Copy.dst).trans
    (@splitCells_perm _ _ _ _ _ _ layerId _ banks chunk.coherent overlap half hits agrees)
  have apart := (split_apart chunk.coherent overlap half hits agrees nodup).perm perm
  have wholeApart := @whole_apart _ _ cfg layerId (layerId % 2) _ nodup
  have written : ∀ bank ∈ banks, ∀ expert < cfg.numExperts,
      (layerId % 2 * cfg.numExperts + expert, bank) ∈ order.map Copy.dst := by
    intro bank mem expert bound
    refine cells.mem_iff.mpr (mem_flatMap.mpr ⟨bank, mem, ?_⟩)
    exact mem_map.mpr ⟨expert, mem_range.mpr bound, rfl⟩
  refine ⟨?_, ?_, ?_⟩
  · refine runCopies_congr wholeApart apart ?_ ?_
    · intro copy mem
      have inWhole := cells.mem_iff.mp (mem_map_of_mem (f := Copy.dst) mem)
      rw [← wholeCells cfg layerId] at inWhole
      obtain ⟨other, otherMem, same⟩ := mem_map.mp inWhole
      refine ⟨other, otherMem, same, ?_⟩
      rw [whole_reads _ otherMem, same,
        (split_reads chunk.coherent overlap half hits (perm.mem_iff.mp mem)).1]
    · intro cell inWhole
      rw [wholeCells] at inWhole
      exact cells.mem_iff.mpr inWhole
  · intro bank mem expert bound
    have here := written bank mem expert bound
    refine ⟨count_eq_one_of_mem apart.distinct here, ?_⟩
    obtain ⟨copy, copyMem, cell⟩ := mem_map.mp here
    rw [← cell, runCopies_of_mem apart copyMem,
      (split_reads chunk.coherent overlap half hits (perm.mem_iff.mp copyMem)).1, cell]
    unfold sourceRow
    rw [Nat.add_sub_cancel_left]
  · intro copy mem
    have lt := mem_bufferCells (cells.mem_iff.mp (mem_map_of_mem (f := Copy.dst) mem))
    exact ⟨lt.1, decide_eq_true lt.2⟩

/-- Three layers of two experts, whose rows are their flat ids, with one slot above the double
buffer. -/
def bufferedConfig : OffloadConfig Unit Nat :=
  { flatConfig with
    numLayers := 3
    numExperts := 2
    prefillHitD2d := true
    hitD2dUsable := true
    bankSources := fun layerId expert _ => 2 * layerId + expert }

/-- The fifth expert that was served is resident: it is gathered, and the other one copied. -/
theorem prefetchSplit_whole_hit : ∃ start cache, Reachable lruReference bufferedConfig (fun _ => 9)
      start ∧ InChunk bufferedConfig start cache ∧
    prefillHitCompact bufferedConfig cache.slotForId 2 0 = [(0, 4)] ∧
    runCopies cache.cells (prefetchSplitCopies bufferedConfig cache.cacheSize cache.slotForId
        cache.prefillSlotSnapshot 2 0 [()]) =
      runCopies cache.cells (wholeLayerCopies bufferedConfig 2 0 [()]) := by
  have first := (@Reachable.init _ _ lruReference bufferedConfig (fun _ => 9) 5 true _ rfl).step
    (.ensureExperts _ 0 [0, 1] (by decide) (by decide) _ rfl)
  have second := first.step (.ensureExperts _ 1 [0, 1] (by decide) (by decide) _ rfl)
  have third := second.step (.ensureExperts _ 2 [0] (by decide) (by decide) _ rfl)
  refine ⟨_, _, third, .begins _, by decide, ?_⟩
  exact (prefetchSplit_whole (third.coherent lruReference_contract) (.begins _) rfl rfl 2
    (nodup_singleton ()) (fun id => .inl rfl) (Perm.refl _)).1

end OffloadMoeCache

end FreeToken
