/-
**The kernels on the bundles of a matrix.**
-/

import FreeToken.Kernel.Df11Kernels

namespace FreeToken.Df11

open BitStream List Option

def BeginsLow (tables : Tables) (b : BitVec 16) : Prop :=
  tables.codeArr (exponent b) < 2 ^ (tables.lenArr (exponent b) - 1)

def CodesLow (weight : Bf16Matrix) (lmax : Nat) (values : List (BitVec 16)) : Prop :=
  lmax < 32 ∨ ∀ tables, huffmanTables (bincount weight.exps) lmax = some tables →
    ∀ b ∈ values, BeginsLow tables b

/-- The padded positions of a matrix fit 32 bits, or its chunks are too many for an index of 32 bits. -/
def PositionsFit (n chunk : Nat) : Prop :=
  chunksOf n chunk ≤ 2 ^ 31 ∧
    (chunksOf n chunk < 2 ^ 31 → rowsOf n (chunksOf n chunk) * chunksOf n chunk ≤ 2 ^ 31)

theorem nonempty_of_built {exps : List Nat} {lmax : Nat} {tables : Tables}
    (built : huffmanTables (bincount exps) lmax = some tables) : exps ≠ [] := by
  rintro rfl
  have none : frequencies (bincount []) = [] := by
    unfold frequencies bincount
    simp
  unfold huffmanTables lengthLimitedLengths at built
  rw [none] at built
  cases built

section Run

variable {tables : Tables} {pre run after : List Nat} {numWords count : Nat}

theorem run_low {syms : List Nat} (decodes : ∀ sym ∈ syms, Decodes tables 32 sym)
    (room : (bitsOf tables syms + 31) / 32 + 2 ≤ numWords)
    (parts : pre ++ (run ++ after) = syms) (reach : run.length ≤ count)
    {seen : List (Int × Int)}
    (looked : windowsFrom (toStream (word 32 (codeItems tables 0 syms)) numWords) tables.lut 32
      count (bitsOf tables pre : Nat) = some seen)
    (low : ∀ window ∈ seen, window.2 < 2 ^ 31) :
    ∀ sym ∈ run, tables.codeArr sym < 2 ^ (tables.lenArr sym - 1) := by
  intro sym mem
  obtain ⟨i, within, rfl⟩ := mem_iff_getElem.mp mem
  obtain ⟨window, inSeen, rest, -, isWindow⟩ :=
    windows_run le_rfl decodes room parts reach looked i within
  have here := decodes run[i] (by simp [← parts])
  have small := low window inSeen
  rw [isWindow] at small
  have exponent : tables.lenArr run[i] - 1 + (32 - tables.lenArr run[i]) = 31 := by
    have positive := here.positive
    have short := here.short
    omega
  have bound : tables.codeArr run[i] * 2 ^ (32 - tables.lenArr run[i]) <
      2 ^ (tables.lenArr run[i] - 1) * 2 ^ (32 - tables.lenArr run[i]) := by
    rw [← pow_add, exponent]
    omega
  exact Nat.lt_of_mul_lt_mul_right bound

end Run

section Matrix

variable (weight : Bf16Matrix) (tables : Tables) {lmax : Nat} (narrow : lmax ≤ 32)
  (built : huffmanTables (bincount weight.exps) lmax = some tables)

include built

theorem data_nonempty : weight.data ≠ [] :=
  fun none => nonempty_of_built built (map_eq_nil_iff.mpr none)

theorem decodes_of_built (wide : 8 ≤ lmax) : ∀ sym ∈ weight.exps, Decodes tables lmax sym := by
  obtain ⟨others, -, sameTables, -, -, decodes⟩ :=
    tables_of_matrix weight (data_nonempty weight tables built) wide
  rw [built] at sameTables
  cases sameTables
  exact decodes

theorem codesLow_iff (values : List (BitVec 16)) :
    CodesLow weight lmax values ↔ lmax < 32 ∨ ∀ b ∈ values, BeginsLow tables b := by
  unfold CodesLow
  rw [built]
  simp

/-! ### The interleaved layout -/

section Chunks

variable {chunk : Nat} (positive : 1 ≤ chunk) (below : bitsBeforeLast weight chunk lmax < 2 ^ 31)

include positive below

theorem chunkBundle_own {j : Nat} (lt : j < chunksOf weight.data.length chunk) :
    bitsOf tables (chunkRun weight.exps (chunksOf weight.data.length chunk)
      (rowsOf weight.data.length (chunksOf weight.data.length chunk)) j) < 2 ^ 31 := by
  have count : weight.exps.length = weight.data.length := by rw [Bf16Matrix.exps, length_map]
  rw [bitsBeforeLast_eq weight tables (data_nonempty weight tables built) positive built,
    count] at below
  obtain ⟨later, rest⟩ := @chunkRun_initial weight.exps (chunksOf weight.data.length chunk)
    (rowsOf weight.data.length (chunksOf weight.data.length chunk)) j
    (chunksOf weight.data.length chunk - 1) (by omega)
  rw [← rest, bitsOf_append] at below
  omega

include narrow in
theorem chunkBundle_ok : (chunkBundle weight tables chunk lmax).Ok where
  lut := lutOk_of_built narrow built
  narrow := narrow
  low8 := length_map _
  starts := (length_map _).trans length_range
  nonempty := chunksOf_pos weight (data_nonempty weight tables built) positive
  isRow := rfl
  own := by
    intro start mem
    obtain ⟨j, isChunk, rfl⟩ := List.mem_map.mp mem
    have own := chunkBundle_own weight tables built positive below (mem_range.mp isChunk)
    rw [ofNat_toInt_iff.mpr own]
    exact Int.natCast_nonneg _

include narrow in
theorem chunkBundle_low_iff :
    (chunkBundle weight tables chunk lmax).Low ↔ CodesLow weight lmax weight.data := by
  have ok := chunkBundle_ok weight tables narrow built positive below
  have isSome := chunksOf_pos weight (data_nonempty weight tables built) positive
  have own := @chunkBundle_own weight tables lmax built chunk positive below
  have count : weight.exps.length = weight.data.length := by rw [Bf16Matrix.exps, length_map]
  rw [codesLow_iff weight tables built]
  rcases lt_or_ge lmax 32 with small | wide
  · refine iff_of_true ?_ (Or.inl small)
    intro start mem seen looked window isWindow
    obtain ⟨pos, isPos⟩ : ∃ pos : Nat, start.toInt = pos :=
      ⟨start.toInt.toNat, (Int.toNat_of_nonneg (ok.own start mem)).symm⟩
    rw [isPos] at looked
    have bits := @windowsFrom_small (chunkBundle weight tables chunk lmax).input ok.lut _ _ _
      looked window isWindow
    have most : (2 : Int) ^ lmax ≤ 2 ^ 31 := by
      exact_mod_cast Nat.pow_le_pow_right (by decide) (Nat.le_of_lt_succ small)
    exact lt_of_lt_of_le bits most
  · obtain rfl : lmax = 32 := le_antisymm narrow wide
    have decodes := decodes_of_built weight tables built (by decide)
    obtain ⟨g, isCount⟩ : ∃ g, chunksOf weight.data.length chunk = g := ⟨_, rfl⟩
    obtain ⟨rows, isRows⟩ : ∃ rows, rowsOf weight.data.length g = rows := ⟨_, rfl⟩
    have isRow : rows = rowsOf weight.exps.length g := by rw [count, isRows]
    rw [isCount] at isSome
    have inMatrix := fun sym mem => decodes sym
      (mem_chunkRun (j := g) weight.exps isSome isRow sym mem)
    have starts := @chunkBundle_start weight tables chunk 32
    have isStream : (chunkBundle weight tables chunk 32).bitstream =
        toStream (word 32 (codeItems tables 0 (chunkRun weight.exps g rows g)))
          ((bitsOf tables (chunkRun weight.exps g rows g) + 31) / 32 + 2) := by
      rw [← isRows, ← isCount]
      rfl
    rw [isCount, isRows] at own
    rw [isCount, isRows] at starts
    rw [or_iff_right (lt_irrefl 32)]
    constructor
    · intro low b mem
      obtain ⟨p, lt, isSym⟩ := mem_iff_getElem.mp
        (show exponent b ∈ weight.exps from List.mem_map_of_mem mem)
      have isChunk := Nat.mod_lt p isSome
      have place := Nat.div_add_mod p g
      rw [mul_comm] at place
      have owned := chunkExps_get weight.exps isSome isRow (p / g) (p % g)
      rw [place, if_pos lt, getD_eq_getElem _ _ lt, isSym] at owned
      have start := ofNat_toInt_iff.mpr (own isChunk)
      obtain ⟨seen, looked⟩ := @windowsFrom_total (chunkBundle weight tables chunk 32).input ok.lut
        rows (bitsOf tables (chunkRun weight.exps g rows (p % g)))
      obtain ⟨after, rest⟩ := @chunkRun_initial weight.exps g rows (p % g + 1) g isChunk
      rw [chunkRun_succ] at rest
      have quiet : ∀ window ∈ seen, window.2 < 2 ^ 31 := by
        refine low _ (mem_of_getElem? (starts isChunk)) seen ?_
        rw [start, show (chunkBundle weight tables chunk 32).rows = rows by
          rw [← isRows, ← isCount]; rfl]
        exact looked
      rw [show (chunkBundle weight tables chunk 32).input.stream = _ from isStream] at looked
      have length : (chunkExps weight.exps g rows (p % g)).length ≤ rows := by
        rw [chunkExps, length_map, length_range]
        exact (List.takeWhile_prefix _).length_le.trans_eq length_range
      exact run_low inMatrix le_rfl ((append_assoc _ _ _).symm.trans rest) length looked quiet _
        (mem_of_getElem? owned)
    · intro low start mem seen looked
      obtain ⟨j, isStart⟩ := mem_iff_getElem?.mp mem
      have isChunk : j < g := by
        have within := (List.getElem?_eq_some_iff.mp isStart).1
        rw [ok.starts] at within
        exact isCount ▸ within
      obtain rfl := some.inj ((starts isChunk).symm.trans isStart)
      obtain ⟨after, rest⟩ := @chunkRun_initial weight.exps g rows j g isChunk.le
      have whole : chunkRun weight.exps g rows j ++ (after ++ []) = chunkRun weight.exps g rows g := by
        rw [append_nil, rest]
      rw [ofNat_toInt_iff.mpr (own isChunk), isStream] at looked
      refine windows_low le_rfl inMatrix le_rfl whole (Or.inl rfl) ?_ looked
      intro sym isSym
      have inRun : sym ∈ chunkRun weight.exps g rows g := by
        rw [← rest]
        exact mem_append_right _ isSym
      obtain ⟨b, isValue, rfl⟩ := List.mem_map.mp
        (mem_chunkRun weight.exps isSome isRow sym inRun)
      exact low b isValue

end Chunks

/-! ### Rows as chunks -/

include narrow in
theorem rowBundle_ok : (rowBundle weight tables lmax).Ok where
  lut := lutOk_of_built narrow built
  narrow := narrow
  low8 := (length_map _).trans weight.whole
  starts := (length_map _).trans length_range

include narrow in
theorem rowBundle_low_iff {ids : List Nat} (inRange : ∀ r ∈ ids, r < weight.rows) :
    (rowBundle weight tables lmax).Low ids ↔ CodesLow weight lmax (ids.flatMap weight.row) := by
  have ok := rowBundle_ok weight tables narrow built
  rw [codesLow_iff weight tables built]
  rcases lt_or_ge lmax 32 with small | wide
  · refine iff_of_true ?_ (Or.inl small)
    intro r _ start _ seen looked window isWindow
    have bits := @windowsFrom_small (rowBundle weight tables lmax).input ok.lut _ _ _
      looked window isWindow
    have most : (2 : Int) ^ lmax ≤ 2 ^ 31 := by
      exact_mod_cast Nat.pow_le_pow_right (by decide) (Nat.le_of_lt_succ small)
    exact lt_of_lt_of_le bits most
  · obtain rfl : lmax = 32 := le_antisymm narrow wide
    have decodes := decodes_of_built weight tables built (by decide)
    have starts : ∀ r < weight.rows, (rowBundle weight tables 32).chunkStart[r]? =
        some (bitsOf tables (weight.exps.take (r * weight.cols))) := by
      intro r isRow
      change ((range weight.rows).map _)[r]? = _
      rw [getElem?_map, getElem?_range isRow, map_some]
    have isStream : (rowBundle weight tables 32).bitstream =
        toStream (word 32 (codeItems tables 0 weight.exps))
          ((bitsOf tables weight.exps + 31) / 32 + 2) := rfl
    have length : ∀ r < weight.rows, ((weight.row r).map exponent).length = weight.cols :=
      fun r isRow => by rw [length_map, weight.row_length isRow]
    rw [or_iff_right (lt_irrefl 32)]
    have eachRow : ∀ r < weight.rows,
        (∀ seen, windowsFrom (rowBundle weight tables 32).bitstream tables.lut 32 weight.cols
          (bitsOf tables (weight.exps.take (r * weight.cols)) : Nat) = some seen →
            ∀ window ∈ seen, window.2 < 2 ^ 31) ↔
          ∀ sym ∈ (weight.row r).map exponent, tables.codeArr sym < 2 ^ (tables.lenArr sym - 1) := by
      intro r isRow
      have whole := length r isRow
      obtain ⟨pre, isBefore⟩ : ∃ pre, weight.exps.take (r * weight.cols) = pre := ⟨_, rfl⟩
      obtain ⟨run, isRun⟩ : ∃ run, (weight.row r).map exponent = run := ⟨_, rfl⟩
      have around := weight.exps_around_row r
      obtain ⟨after, isAfter⟩ : ∃ after, weight.exps.drop ((r + 1) * weight.cols) = after := ⟨_, rfl⟩
      obtain ⟨seen, looked⟩ := @windowsFrom_total (rowBundle weight tables 32).input ok.lut
        weight.cols (bitsOf tables pre)
      rw [isBefore, isRun, isAfter] at around
      rw [isRun] at whole
      rw [append_assoc] at around
      rw [isStream, isBefore, isRun]
      rw [show (rowBundle weight tables 32).input.stream = _ from isStream] at looked
      constructor
      · intro low
        exact run_low decodes le_rfl around whole.le looked (low seen looked)
      · intro low others lookedToo
        exact windows_low le_rfl decodes le_rfl around (Or.inr whole.ge) low lookedToo
    constructor
    · intro low b mem
      obtain ⟨r, isId, inRow⟩ := mem_flatMap.mp mem
      have isRow := inRange r isId
      exact (eachRow r isRow).mp (low r isId _ (starts r isRow)) _ (List.mem_map_of_mem inRow)
    · intro low r isId start isStart
      have isRow := inRange r isId
      obtain rfl := some.inj ((starts r isRow).symm.trans isStart)
      refine (eachRow r isRow).mpr fun sym isSym => ?_
      obtain ⟨b, inRow, rfl⟩ := List.mem_map.mp isSym
      exact low b (mem_flatMap.mpr ⟨r, isId, inRow⟩)

end Matrix

/-- **When the kernels agree with the reference**: the decode kernel where the padded positions fit its
indices, the gather kernel where its lanes do, and both where no code that a lane reads begins with a one
or fewer than 32 bits are peeked. -/
theorem df11_kernels_agree (weight : Bf16Matrix) (lmax block k : Nat) (narrow : lmax ≤ 32)
    (width : k ≤ 31) (isBlock : block = 2 ^ k) :
    (∀ chunk c, 1 ≤ chunk → df11Compress weight chunk lmax = some c →
      bitsBeforeLast weight chunk lmax < 2 ^ 31 → (DecodeAgrees c block ↔
          PositionsFit weight.data.length chunk ∧ CodesLow weight lmax weight.data)) ∧
    ∀ rowBlock c ids, 1 ≤ rowBlock → df11CompressRows weight lmax rowBlock = some c →
      (∀ r ∈ ids, r < weight.rows) → (GatherAgrees c ids block ↔
          ids.length ≤ 2 ^ 31 ∧ CodesLow weight lmax (ids.flatMap weight.row)) := by
  constructor
  · intro chunk c positive compressed below
    obtain ⟨tables, built⟩ : ∃ tables, huffmanTables (bincount weight.exps) lmax = some tables := by
      unfold df11Compress at compressed
      simp only [bind_eq_bind] at compressed
      obtain ⟨tables, built, -⟩ := bind_eq_some_iff.mp compressed
      exact ⟨tables, built⟩
    rw [df11Compress_eq weight tables (data_nonempty weight tables built) positive built] at compressed
    cases compressed
    rw [decode_agrees_iff (chunkBundle_ok weight tables narrow built positive below) width isBlock,
      chunkBundle_low_iff weight tables narrow built positive below]
    exact Iff.rfl
  · intro rowBlock c ids positive compressed inRange
    obtain ⟨tables, built⟩ : ∃ tables, huffmanTables (bincount weight.exps) lmax = some tables := by
      unfold df11CompressRows at compressed
      dsimp only at compressed
      rw [firstPass_eq weight (rowBlocks_tiles weight.rows positive)] at compressed
      simp only [bind_eq_bind] at compressed
      obtain ⟨tables, built, -⟩ := bind_eq_some_iff.mp compressed
      exact ⟨tables, built⟩
    rw [df11CompressRows_eq weight tables positive built] at compressed
    cases compressed
    rw [gather_agrees_iff (rowBundle_ok weight tables narrow built) inRange width isBlock,
      rowBundle_low_iff weight tables narrow built inRange]

/-- Two rows, in chunks of two values, and looked up in another order. -/
theorem df11_kernels_agree_small :
    (∀ c, df11Compress ⟨2, 2, [0x3F80#16, 0x7F81#16, 0x3F80#16, 0x4000#16], rfl⟩ 2 8 = some c →
      DecodeAgrees c 128) ∧
    ∀ c, df11CompressRows ⟨2, 2, [0x3F80#16, 0x7F81#16, 0x3F80#16, 0x4000#16], rfl⟩ 8 1 = some c →
      GatherAgrees c [1, 0, 1] 128 := by
  obtain ⟨decode, gather⟩ := df11_kernels_agree
    ⟨2, 2, [0x3F80#16, 0x7F81#16, 0x3F80#16, 0x4000#16], rfl⟩ 8 128 7 (by decide) (by decide) rfl
  refine ⟨fun c compressed => (decode 2 c (by decide) compressed (by decide +kernel)).mpr
    ⟨by unfold PositionsFit; decide, Or.inl (by decide)⟩, fun c compressed => ?_⟩
  exact (gather 1 c [1, 0, 1] (by decide) compressed (by decide)).mpr ⟨by decide, Or.inl (by decide)⟩

/-! ### Two matrices on which they do not -/

theorem bitsBeforeLast_ones {weight : Bf16Matrix} {tables : Tables} {chunk lmax : Nat}
    (built : huffmanTables (bincount weight.exps) lmax = some tables) (positive : 1 ≤ chunk)
    (one : ∀ sym ∈ weight.exps, tables.lenArr sym = 1) :
    bitsBeforeLast weight chunk lmax +
      chunkLength weight.exps.length (chunksOf weight.exps.length chunk)
        (rowsOf weight.exps.length (chunksOf weight.exps.length chunk))
        (chunksOf weight.exps.length chunk - 1) = weight.exps.length := by
  have nonempty := data_nonempty weight tables built
  have count : weight.exps.length = weight.data.length := by rw [Bf16Matrix.exps, length_map]
  have isSome : 0 < chunksOf weight.exps.length chunk := count ▸ chunksOf_pos weight nonempty positive
  rw [bitsBeforeLast_eq weight tables nonempty positive built]
  obtain ⟨g, isCount⟩ : ∃ g, chunksOf weight.exps.length chunk = g := ⟨_, rfl⟩
  rw [isCount] at isSome ⊢
  have lengths : ((range weight.exps.length).map fun p =>
      tables.lenArr (weight.exps.getD p 0)) = replicate weight.exps.length 1 := by
    rw [eq_replicate_iff]
    refine ⟨by rw [length_map, length_range], fun length mem => ?_⟩
    obtain ⟨p, inRange, rfl⟩ := List.mem_map.mp mem
    have lt := mem_range.mp inRange
    rw [getD_eq_getElem _ _ lt]
    exact one _ (getElem_mem lt)
  have whole := bitsOf_chunkRun tables weight.exps isSome rfl (le_refl g)
  rw [filter_eq_self.mpr fun p _ => decide_eq_true (Nat.mod_lt p isSome), lengths,
    sum_replicate_nat, Nat.mul_one] at whole
  have split := chunkRun_succ weight.exps g (rowsOf weight.exps.length g) (g - 1)
  rw [Nat.sub_add_cancel isSome] at split
  have last : bitsOf tables (chunkExps weight.exps g (rowsOf weight.exps.length g) (g - 1)) =
      chunkLength weight.exps.length g (rowsOf weight.exps.length g) (g - 1) := by
    have ones : (chunkExps weight.exps g (rowsOf weight.exps.length g) (g - 1)).map tables.lenArr =
        replicate (chunkLength weight.exps.length g (rowsOf weight.exps.length g) (g - 1)) 1 := by
      rw [eq_replicate_iff]
      refine ⟨by rw [length_map, chunkExps, length_map, length_range], fun length mem => ?_⟩
      obtain ⟨sym, owned, rfl⟩ := List.mem_map.mp mem
      refine one _ (mem_chunkRun (j := g) weight.exps isSome rfl sym ?_)
      rw [split]
      exact mem_append_right _ owned
    unfold bitsOf
    rw [ones, sum_replicate_nat, Nat.mul_one]
  rw [← last, ← bitsOf_append, ← split, whole]

theorem two_values_tables :
    ∃ tables, huffmanTables (bincount (Bf16Matrix.exps ⟨1, 2, [0x3F80#16, 0x4000#16], rfl⟩)) 32 =
        some tables ∧
      tables.codeArr 128 = 1 ∧ tables.lenArr 127 = 1 ∧ tables.lenArr 128 = 1 := by
  have computed : (huffmanTables
      (bincount (Bf16Matrix.exps ⟨1, 2, [0x3F80#16, 0x4000#16], rfl⟩)) 32).map
        (fun tables => (tables.codeArr 128, tables.lenArr 127, tables.lenArr 128)) =
      some (1, 1, 1) := by
    decide +kernel
  obtain ⟨tables, built, parts⟩ := map_eq_some_iff.mp computed
  rw [Prod.mk.injEq, Prod.mk.injEq] at parts
  exact ⟨tables, built, parts⟩

theorem two_values_disagree :
    ∃ c, df11Compress ⟨1, 2, [0x3F80#16, 0x4000#16], rfl⟩ 256 32 = some c ∧
      bitsBeforeLast ⟨1, 2, [0x3F80#16, 0x4000#16], rfl⟩ 256 32 < 2 ^ 31 ∧
      ¬DecodeAgrees c 128 := by
  obtain ⟨tables, built, isOne, bit, bitToo⟩ := two_values_tables
  have nonempty := data_nonempty _ tables built
  have below : bitsBeforeLast ⟨1, 2, [0x3F80#16, 0x4000#16], rfl⟩ 256 32 < 2 ^ 31 := by
    have total := bitsBeforeLast_ones built (show 1 ≤ 256 by decide) (by
      intro sym mem
      have each : sym = 127 ∨ sym = 128 := by simpa [Bf16Matrix.exps, exponent] using mem
      rcases each with rfl | rfl
      · exact bit
      · exact bitToo)
    have two : (Bf16Matrix.exps ⟨1, 2, [0x3F80#16, 0x4000#16], rfl⟩).length = 2 := rfl
    omega
  refine ⟨_, df11Compress_eq _ tables nonempty (by decide) built, below, fun agrees => ?_⟩
  have ok := chunkBundle_ok _ tables le_rfl built (by decide) below
  have low := ((@decode_agrees_iff _ ok 128 7 (by decide) rfl).mp agrees).2
  rw [chunkBundle_low_iff _ tables le_rfl built (by decide) below,
    codesLow_iff _ tables built] at low
  rcases low with narrow | low
  · exact absurd narrow (lt_irrefl 32)
  · have small := low 0x4000#16 (by simp)
    unfold BeginsLow at small
    rw [show exponent 0x4000#16 = 128 from rfl, isOne, bitToo] at small
    exact absurd small (by decide)

theorem lopsided_disagrees {m : Nat} (isLarge : m = 2 ^ 31) :
    ∃ c, df11Compress (lopsided m) 256 8 = some c ∧
      bitsBeforeLast (lopsided m) 256 8 < 2 ^ 31 ∧ ¬DecodeAgrees c 128 := by
  obtain ⟨tables, built, -, bit, bitToo⟩ := lopsided_tables m isLarge
  have nonempty := data_nonempty _ tables built
  have length : (lopsided m).exps.length = 2 ^ 31 + 1 := by
    rw [Bf16Matrix.exps, length_map, lopsided_length, isLarge]
  have below : bitsBeforeLast (lopsided m) 256 8 < 2 ^ 31 := by
    have total := bitsBeforeLast_ones built (show 1 ≤ 256 by decide) (by
      intro sym mem
      rw [lopsided_exps] at mem
      rcases mem_append.mp mem with isBit | isBit
      · rw [eq_of_mem_replicate isBit]
        exact bit
      · rw [mem_singleton.mp isBit]
        exact bitToo)
    have last : 1 < chunkLength (lopsided m).exps.length (chunksOf (lopsided m).exps.length 256)
        (rowsOf (lopsided m).exps.length (chunksOf (lopsided m).exps.length 256))
        (chunksOf (lopsided m).exps.length 256 - 1) := by
      rw [lt_chunkLength (by rw [length]; decide) rfl, length]
      decide
    omega
  refine ⟨_, df11Compress_eq _ tables nonempty (by decide) built, below, fun agrees => ?_⟩
  have ok := chunkBundle_ok _ tables (by decide) built (by decide) below
  have bound : PositionsFit (lopsided m).data.length 256 :=
    ((@decode_agrees_iff _ ok 128 7 (by decide) rfl).mp agrees).1
  rw [lopsided_length, isLarge] at bound
  exact absurd (bound.2 (by decide)) (by decide)

/-- **The decode kernel does not always agree with the reference.** -/
theorem df11_kernels_disagree :
    (∃ c, df11Compress ⟨1, 2, [0x3F80#16, 0x4000#16], rfl⟩ 256 32 = some c ∧
      bitsBeforeLast ⟨1, 2, [0x3F80#16, 0x4000#16], rfl⟩ 256 32 < 2 ^ 31 ∧
      ¬DecodeAgrees c 128) ∧
    ∃ c, df11Compress (lopsided (2 ^ 31)) 256 8 = some c ∧
      bitsBeforeLast (lopsided (2 ^ 31)) 256 8 < 2 ^ 31 ∧ ¬DecodeAgrees c 128 :=
  ⟨two_values_disagree, lopsided_disagrees rfl⟩

end FreeToken.Df11
