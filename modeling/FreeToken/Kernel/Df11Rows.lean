/-
**The layout with rows as chunks.**
-/

import FreeToken.Kernel.Df11Codec

namespace FreeToken.Df11

open PrefixCode BitStream List

/-! ### Blocks of rows -/

/-- The blocks of rows follow one another. -/
theorem rowBlocks_tiles (rows : Nat) {rowBlock : Nat} (pos : 1 ≤ rowBlock) :
    Tiles 0 (rowBlocks rows rowBlock) rows := strides_tiles rows pos

/-! ### Slices -/

variable {r0 r1 : Nat}

namespace Bf16Matrix

variable (weight : Bf16Matrix)

def row (r : Nat) : List (BitVec 16) := (weight.data.drop (r * weight.cols)).take weight.cols

theorem take_block (forward : r0 ≤ r1) : weight.data.take (r1 * weight.cols) =
      weight.data.take (r0 * weight.cols) ++ weight.block (r0, r1) := by
  have lt : r0 * weight.cols ≤ r1 * weight.cols := Nat.mul_le_mul_right _ forward
  have whole := take_append_drop (r0 * weight.cols) (weight.data.take (r1 * weight.cols))
  rw [take_take, Nat.min_eq_left lt] at whole
  exact whole.symm

theorem row_length {r : Nat} (lt : r < weight.rows) : (weight.row r).length = weight.cols := by
  have reach : (r + 1) * weight.cols ≤ weight.rows * weight.cols := Nat.mul_le_mul_right _ lt
  rw [Nat.succ_mul] at reach
  rw [row, length_take, length_drop, weight.whole]
  omega

theorem exps_around_row (r : Nat) :
    weight.exps.take (r * weight.cols) ++ (weight.row r).map exponent ++
      weight.exps.drop ((r + 1) * weight.cols) = weight.exps := by
  have here : (weight.row r).map exponent = (weight.exps.drop (r * weight.cols)).take weight.cols := by
    unfold exps row
    rw [← map_drop, ← map_take]
  rw [here, ← take_add, ← Nat.succ_mul, take_append_drop]

theorem exps_block (forward : r0 ≤ r1) : weight.exps.take (r1 * weight.cols) =
      weight.exps.take (r0 * weight.cols) ++ (weight.block (r0, r1)).map exponent := by
  unfold exps
  rw [← map_take, weight.take_block forward, map_append, map_take]

theorem block_length (lt : r1 ≤ weight.rows) :
    (weight.block (r0, r1)).length = (r1 - r0) * weight.cols := by
  have bound : r1 * weight.cols ≤ weight.rows * weight.cols := Nat.mul_le_mul_right _ lt
  unfold block
  rw [length_drop, length_take, weight.whole, Nat.min_eq_left bound, ← Nat.sub_mul]

theorem block_row {r0 r1 r : Nat} (lt : r0 + r < r1) :
    ((weight.block (r0, r1)).drop (r * weight.cols)).take weight.cols = weight.row (r0 + r) := by
  have bound : (r0 + r + 1) * weight.cols ≤ r1 * weight.cols := Nat.mul_le_mul_right _ lt
  rw [Nat.succ_mul, Nat.add_mul] at bound
  change (((weight.data.take (r1 * weight.cols)).drop (r0 * weight.cols)).drop _).take _ = _
  unfold row
  rw [drop_drop, drop_take, take_take, Nat.add_mul, Nat.min_eq_left (by omega)]

end Bf16Matrix

variable (weight : Bf16Matrix)

theorem Bf16Matrix.exps_take {r0 r1 m : Nat} (forward : r0 ≤ r1)
    (lt : r1 ≤ weight.rows) (bound : m ≤ (r1 - r0) * weight.cols) :
    weight.exps.take (r0 * weight.cols + m) = weight.exps.take (r0 * weight.cols) ++
      ((weight.block (r0, r1)).map exponent).take m := by
  have last : r0 * weight.cols + m ≤ r1 * weight.cols := by
    have whole : r0 * weight.cols + (r1 - r0) * weight.cols = r1 * weight.cols := by
      rw [← Nat.add_mul, Nat.add_sub_cancel' forward]
    omega
  have pre : (weight.exps.take (r0 * weight.cols)).length = r0 * weight.cols := by
    have most : r0 * weight.cols ≤ weight.rows * weight.cols :=
      Nat.mul_le_mul_right _ (forward.trans lt)
    rw [length_take, exps, length_map, weight.whole, Nat.min_eq_left most]
  calc weight.exps.take (r0 * weight.cols + m)
      = (weight.exps.take (r1 * weight.cols)).take (r0 * weight.cols + m) := by
        rw [take_take, Nat.min_eq_left last]
    _ = (weight.exps.take (r0 * weight.cols) ++ (weight.block (r0, r1)).map exponent).take
          ((weight.exps.take (r0 * weight.cols)).length + m) := by rw [weight.exps_block forward, pre]
    _ = _ := take_length_add_append ..

theorem blockItems_eq (tables : Tables) (forward : r0 ≤ r1) (lt : r1 ≤ weight.rows) :
    blockItems weight tables
        (fun r => bitsOf tables (weight.exps.take (r * weight.cols))) (r0, r1) =
      codeItems tables (bitsOf tables (weight.exps.take (r0 * weight.cols)))
        ((weight.block (r0, r1)).map exponent) := by
  have length : ((weight.block (r0, r1)).map exponent).length = (r1 - r0) * weight.cols := by
    rw [length_map, weight.block_length lt]
  rw [codeItems_eq]
  refine map_congr_left fun p mem => ?_
  have bound : p < (r1 - r0) * weight.cols := length ▸ mem_range.mp mem
  have place : p / weight.cols * weight.cols + p % weight.cols = p := by
    rw [mul_comm]
    exact Nat.div_add_mod p weight.cols
  have rowBits := weight.exps_take forward lt
    (show p / weight.cols * weight.cols ≤ (r1 - r0) * weight.cols by omega)
  have prefixBits := @exclusive_eq tables ((weight.block (r0, r1)).map exponent)
    (p / weight.cols * weight.cols) (p % weight.cols) (by omega)
  have both : ((weight.block (r0, r1)).map exponent).take p =
      ((weight.block (r0, r1)).map exponent).take (p / weight.cols * weight.cols) ++
        (((weight.block (r0, r1)).map exponent).drop (p / weight.cols * weight.cols)).take
          (p % weight.cols) := by
    rw [← take_add, place]
  dsimp only
  rw [prefixBits, add_mul, rowBits, both, bitsOf_append, bitsOf_append, add_assoc]

/-! ### The passes -/

section Passes

variable (weight : Bf16Matrix) {blocks : List (Nat × Nat)} (tiles : Tiles 0 blocks weight.rows)

include tiles

theorem firstPass_eq :
    firstPass weight blocks = (bincount weight.exps, weight.data.map lowByte) := by
  let P : Nat → (Nat → Nat) × List Nat → Prop := fun r s =>
    s = (bincount ((weight.data.take (r * weight.cols)).map exponent),
      (weight.data.take (r * weight.cols)).map lowByte ++
        replicate ((weight.rows - r) * weight.cols) 0)
  have final : P weight.rows (firstPass weight blocks) := by
    refine tiles.fold (P := P) ?_ ?_
    · rintro r0 r1 s forward lt rfl
      have pre : ((weight.data.take (r0 * weight.cols)).map lowByte).length =
          r0 * weight.cols := by
        have bound : r0 * weight.cols ≤ weight.rows * weight.cols :=
          Nat.mul_le_mul_right _ (forward.trans lt)
        rw [length_map, length_take, weight.whole, Nat.min_eq_left bound]
      have here : ((weight.block (r0, r1)).map lowByte).length = (r1 - r0) * weight.cols := by
        rw [length_map, weight.block_length lt]
      have rest : (weight.rows - r0) * weight.cols - (r1 - r0) * weight.cols =
          (weight.rows - r1) * weight.cols := by
        rw [← Nat.sub_mul]
        congr 1
        omega
      have slice := setSlice_replicate ((weight.data.take (r0 * weight.cols)).map lowByte)
        ((weight.block (r0, r1)).map lowByte) ((weight.rows - r0) * weight.cols) 0
      rw [pre, here, rest] at slice
      refine Prod.ext ?_ ?_
      · funext sym
        change bincount _ sym + bincount _ sym = bincount _ sym
        unfold bincount
        rw [weight.take_block forward, map_append, count_append]
      · change setSlice _ _ _ = (weight.data.take (r1 * weight.cols)).map lowByte ++ _
        rw [slice, weight.take_block forward, map_append]
    · change _ = (_, _)
      rw [Nat.zero_mul, Nat.sub_zero]
      rfl
  rw [final]
  rw [Nat.sub_self, Nat.zero_mul, ← weight.whole, take_length]
  change (_, _ ++ []) = _
  rw [append_nil]
  rfl

variable (tables : Tables)

theorem secondPass_eq : secondPass weight tables.lenArr blocks =
      (List.range weight.rows).map fun r => bitsOf tables ((weight.row r).map exponent) := by
  let rowBits : Nat → Nat := fun r => bitsOf tables ((weight.row r).map exponent)
  let P : Nat → List Nat → Prop := fun r s =>
    s = (range r).map rowBits ++ replicate (weight.rows - r) 0
  have final : P weight.rows (secondPass weight tables.lenArr blocks) := by
    refine tiles.fold (P := P) ?_ ?_
    · rintro r0 r1 s forward lt rfl
      have values : ((range (r1 - r0)).map fun r =>
          ((((weight.block (r0, r1)).map (tables.lenArr ∘ exponentOfSigned)).drop
            (r * weight.cols)).take weight.cols).sum) =
          (range (r1 - r0)).map (rowBits ∘ (r0 + ·)) := by
        refine map_congr_left fun r mem => ?_
        have within : r0 + r < r1 := by
          have bound := mem_range.mp mem
          omega
        have same : tables.lenArr ∘ exponentOfSigned = tables.lenArr ∘ exponent :=
          funext fun b => congrArg tables.lenArr (exponentOfSigned_eq b)
        rw [← map_drop, ← map_take, weight.block_row within, same, ← map_map]
        rfl
      have slice := setSlice_replicate ((range r0).map rowBits)
        ((range (r1 - r0)).map (rowBits ∘ (r0 + ·))) (weight.rows - r0) 0
      have rest : weight.rows - r0 - (r1 - r0) = weight.rows - r1 := by omega
      have range : range r1 = range r0 ++ (range (r1 - r0)).map (r0 + ·) := by
        rw [← range_add, Nat.add_sub_cancel' forward]
      rw [length_map, length_range, length_map, length_range, rest] at slice
      change setSlice _ _ _ = _
      rw [values, slice, range, map_append, map_map]
    · rfl
  rw [final, Nat.sub_self]
  exact append_nil _

theorem thirdPass_eq :
    thirdPass weight tables (fun r => bitsOf tables (weight.exps.take (r * weight.cols))) blocks =
      word 32 (codeItems tables 0 weight.exps) := by
  let P : Nat → (Nat → Nat) → Prop := fun r words =>
    words = word 32 (codeItems tables 0 (weight.exps.take (r * weight.cols)))
  have final : P weight.rows (thirdPass weight tables
      (fun r => bitsOf tables (weight.exps.take (r * weight.cols))) blocks) := by
    refine tiles.fold (P := P) ?_ ?_
    · rintro r0 r1 words forward lt rfl
      have split := weight.exps_block forward
      funext w
      rw [indexAdd_eq, blockItems_eq weight tables forward lt, split, codeItems_append,
        word_append, zero_add]
    · change _ = _
      rw [Nat.zero_mul]
      rfl
  have whole : weight.exps.take (weight.rows * weight.cols) = weight.exps := by
    rw [← weight.whole]
    exact take_of_length_le (length_map _).le
  change _ = word 32 (codeItems tables 0 (weight.exps.take (weight.rows * weight.cols))) at final
  rw [whole] at final
  exact final

end Passes

/-! ### The bundle -/

section Whole

variable (weight : Bf16Matrix) (tables : Tables) {lmax : Nat}

def rowBundle (lmax : Nat) : RowBundle where
  low8 := weight.data.map lowByte
  bitstream := toStream (word 32 (codeItems tables 0 weight.exps))
    ((bitsOf tables weight.exps + 31) / 32 + 2)
  chunkStart := (List.range weight.rows).map fun r =>
    bitsOf tables (weight.exps.take (r * weight.cols))
  lut := tables.lut
  rows := weight.rows
  cols := weight.cols
  n := weight.rows * weight.cols
  lmax := lmax

theorem exclusive_rowBits (r : Nat) : exclusive (fun r => (((List.range weight.rows).map fun r =>
      bitsOf tables ((weight.row r).map exponent)).getD r 0)) r =
      bitsOf tables (weight.exps.take (r * weight.cols)) := by
  induction r with
  | zero =>
    rw [Nat.zero_mul]
    rfl
  | succ r ih =>
    have entry : ((range weight.rows).map fun r =>
        bitsOf tables ((weight.row r).map exponent)).getD r 0 =
        bitsOf tables ((weight.row r).map exponent) := by
      rw [getD_eq_getElem?_getD, getElem?_map]
      rcases Nat.lt_or_ge r weight.rows with lt | beyond
      · rw [getElem?_range lt]
        rfl
      · have past : weight.rows * weight.cols ≤ r * weight.cols := Nat.mul_le_mul_right _ beyond
        have none : weight.row r = [] := by
          unfold Bf16Matrix.row
          rw [drop_eq_nil_of_le (by rw [weight.whole]; exact past), take_nil]
        rw [none, getElem?_eq_none (by rwa [length_range])]
        rfl
    have row : (weight.exps.drop (r * weight.cols)).take weight.cols =
        (weight.row r).map exponent := by
      unfold Bf16Matrix.exps Bf16Matrix.row
      rw [← map_drop, ← map_take]
    rw [exclusive_succ, ih, entry, Nat.succ_mul, take_add, bitsOf_append, row]

theorem Bf16Matrix.rows_flatten :
    ((List.range weight.rows).map weight.row).flatten = weight.data := by
  have upTo : ∀ k, ((range k).map weight.row).flatten = weight.data.take (k * weight.cols) := by
    intro k
    induction k with
    | zero =>
      rw [Nat.zero_mul]
      rfl
    | succ k ih =>
      rw [range_succ, map_append, flatten_append, ih, Nat.succ_mul, take_add]
      exact congrArg _ (append_nil _)
  rw [upTo, ← weight.whole, take_length]

theorem exps_whole : weight.exps.take (weight.rows * weight.cols) = weight.exps := by
  rw [← weight.whole]
  exact take_of_length_le (length_map _).le

/-- The bundle does not depend on the blocks. -/
theorem df11CompressRows_eq {rowBlock : Nat} (pos : 1 ≤ rowBlock)
    (built : huffmanTables (bincount weight.exps) lmax = some tables) :
    df11CompressRows weight lmax rowBlock = some (rowBundle weight tables lmax) := by
  have tiles := rowBlocks_tiles weight.rows pos
  have rowBits := secondPass_eq weight tiles tables
  have starts := funext (exclusive_rowBits weight tables)
  have total : (if weight.rows = 0 then 0 else
      exclusive (fun r => (secondPass weight tables.lenArr
        (rowBlocks weight.rows rowBlock)).getD r 0) (weight.rows - 1) +
        (secondPass weight tables.lenArr
          (rowBlocks weight.rows rowBlock)).getD (weight.rows - 1) 0) =
      bitsOf tables weight.exps := by
    have all := congrFun starts weight.rows
    rw [exps_whole, ← rowBits] at all
    by_cases empty : weight.rows = 0
    · rw [if_pos empty, ← all, empty]
      rfl
    · rw [if_neg empty, ← all]
      obtain ⟨k, isSucc⟩ := Nat.exists_eq_succ_of_ne_zero empty
      rw [isSucc, exclusive_succ, Nat.succ_sub_one]
  unfold df11CompressRows
  dsimp only
  rw [firstPass_eq weight tiles]
  rw [built, Option.bind_eq_bind, Option.bind_some, total, rowBits, starts,
    thirdPass_eq weight tiles tables]
  rfl

variable (decodes : ∀ sym ∈ weight.exps, Decodes tables lmax sym) (narrow : lmax ≤ 32)

include decodes narrow

theorem decodeFrom_row {r : Nat} (lt : r < weight.rows) :
    decodeFrom (rowBundle weight tables lmax).bitstream tables.lut lmax weight.cols
      (bitsOf tables (weight.exps.take (r * weight.cols)) : Nat) =
      some ((weight.row r).map exponent) := by
  have split := weight.exps_around_row r
  have length : ((weight.row r).map exponent).length = weight.cols := by
    rw [length_map, weight.row_length lt]
  have run := @decodeFrom_run tables lmax (weight.exps.take (r * weight.cols))
    ((weight.row r).map exponent) (weight.exps.drop ((r + 1) * weight.cols)) _ narrow
    (by rwa [split]) le_rfl
  rwa [split, length] at run

/-- A row is decoded from its own start. -/
theorem decodeRow_eq {r : Nat} (lt : r < weight.rows) :
    decodeRow (rowBundle weight tables lmax) r = some ((weight.row r).map exponent) := by
  have start : (rowBundle weight tables lmax).chunkStart[r]? =
      some (bitsOf tables (weight.exps.take (r * weight.cols))) := by
    change ((range weight.rows).map _)[r]? = _
    rw [getElem?_map, getElem?_range lt, Option.map_some]
  unfold decodeRow
  rw [start]
  exact decodeFrom_row weight tables decodes narrow lt

theorem df11DecompressRowsRef_eq :
    df11DecompressRowsRef (rowBundle weight tables lmax) = some weight.data := by
  have rows : (range weight.rows).mapM (decodeRow (rowBundle weight tables lmax)) =
      some ((range weight.rows).map fun r => (weight.row r).map exponent) :=
    mapM_some fun r mem => decodeRow_eq weight tables decodes narrow (mem_range.mp mem)
  have whole : ((range weight.rows).map fun r => (weight.row r).map exponent).flatten =
      weight.data.map exponent := by
    rw [← weight.rows_flatten, map_flatten, map_map]
    rfl
  change ((range weight.rows).mapM _ >>= _) = _
  rw [rows, Option.bind_eq_bind, Option.bind_some, whole]
  exact congrArg some (join_values weight.data)

theorem gatherRows_eq {ids : List Nat} (lt : ∀ r ∈ ids, r < weight.rows) :
    gatherRows (rowBundle weight tables lmax) ids = some (ids.map weight.row) := by
  refine mapM_some fun r mem => ?_
  have bytes : ((weight.data.map lowByte).drop (r * weight.cols)).take weight.cols =
      (weight.row r).map lowByte := by
    rw [← map_drop, ← map_take]
    rfl
  rw [decodeRow_eq weight tables decodes narrow (lt r mem), Option.bind_eq_bind, Option.bind_some]
  change some (((_ : List Nat).zip (((weight.data.map lowByte).drop (r * weight.cols)).take
    weight.cols)).map _) = _
  rw [bytes, join_values]

end Whole

/-- **The layout by rows is lossless**, the same for all blocks, and any rows can be looked up, each
from its own start. -/
theorem row_codec_lossless (lmax : Nat)
    (nonempty : 0 < weight.rows * weight.cols) (wide : 8 ≤ lmax) (narrow : lmax ≤ 24) :
    ∃ c : RowBundle, (∀ rowBlock, 1 ≤ rowBlock → df11CompressRows weight lmax rowBlock = some c) ∧
      (c.rows = weight.rows ∧ c.cols = weight.cols ∧ df11DecompressRowsRef c = some weight.data) ∧
      (∀ r < weight.rows, ∃ start, c.chunkStart[r]? = some start ∧
        decodeFrom c.bitstream c.lut c.lmax c.cols start = some ((weight.row r).map exponent)) ∧
      ∀ ids, (∀ r ∈ ids, r < weight.rows) → gatherRows c ids = some (ids.map weight.row) := by
  have some_ : weight.data ≠ [] := by
    intro none
    have whole := weight.whole
    rw [none, length_nil] at whole
    omega
  obtain ⟨tables, -, built, -, -, decodes⟩ := tables_of_matrix weight some_ wide
  refine ⟨rowBundle weight tables lmax, fun rowBlock pos =>
    df11CompressRows_eq weight tables pos built, ⟨rfl, rfl,
    df11DecompressRowsRef_eq weight tables decodes (narrow.trans (by decide))⟩, fun r lt => ?_, fun ids lt =>
    gatherRows_eq weight tables decodes (narrow.trans (by decide)) lt⟩
  refine ⟨bitsOf tables (weight.exps.take (r * weight.cols)), ?_,
    decodeFrom_row weight tables decodes (narrow.trans (by decide)) lt⟩
  change ((range weight.rows).map _)[r]? = _
  rw [getElem?_map, getElem?_range lt, Option.map_some]

/-- Two rows, with a NaN in them, looked up in another order and twice. -/
theorem row_codec_lossless_small :
    ∃ c, df11CompressRows ⟨2, 2, [0x3F80#16, 0x7F81#16, 0x3F80#16, 0x4000#16], rfl⟩ 8 1 = some c ∧
      df11DecompressRowsRef c = some [0x3F80#16, 0x7F81#16, 0x3F80#16, 0x4000#16] ∧
      gatherRows c [1, 0, 1] = some [[0x3F80#16, 0x4000#16], [0x3F80#16, 0x7F81#16],
        [0x3F80#16, 0x4000#16]] := by
  obtain ⟨c, compressed, ⟨-, -, back⟩, -, gathered⟩ := row_codec_lossless
    ⟨2, 2, [0x3F80#16, 0x7F81#16, 0x3F80#16, 0x4000#16], rfl⟩ 8 (by decide) le_rfl (by decide)
  exact ⟨c, compressed 1 le_rfl, back, gathered [1, 0, 1] (by decide)⟩

end FreeToken.Df11
