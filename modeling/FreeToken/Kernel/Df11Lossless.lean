/-
**When the interleaved layout is lossless.**

The layout keeps the start of a chunk in a signed integer of 32 bits, where the layout by rows keeps
it in one of 64.
-/

import FreeToken.Kernel.Df11Chunks

namespace FreeToken.Df11

open PrefixCode BitStream List Option

variable (weight : Bf16Matrix)

/-- What the compression of a matrix is for. -/
def Lossless (chunk lmax : Nat) : Prop :=
  ∃ c tables lengths, df11Compress weight chunk lmax = some c ∧
    huffmanTables (bincount weight.exps) lmax = some tables ∧
    lengthLimitedLengths (frequencies (bincount weight.exps)) lmax = some lengths ∧
    (c.outFeatures = weight.rows ∧ c.inFeatures = weight.cols ∧
      df11DecompressRef c = some weight.data) ∧
    PrefixTable (canonicalCodes lengths) c.lut lmax weight.exps ∧
    (packed tables weight.exps c.numChunks c.rows).Pairwise (fun first second =>
      ∀ w, indexAdd (fun _ => 0) [first] w &&& indexAdd (fun _ => 0) [second] w = 0) ∧
    ∀ j < c.numChunks, c.chunkStart[j]?.map BitVec.toInt =
      some (off (weight.exps.map tables.lenArr) c.numChunks c.rows j : Int)

def bitsBeforeLast (chunk lmax : Nat) : Nat :=
  let n := weight.exps.length
  let g := chunksOf n chunk
  (huffmanTables (bincount weight.exps) lmax).elim 0 fun tables =>
    (((List.range n).filter fun p => p % g < g - 1).map fun p =>
      tables.lenArr (weight.exps.getD p 0)).sum

section Whole

variable (weight : Bf16Matrix) (tables : Tables) {chunk lmax : Nat}

theorem packed_disjoint (nonempty : weight.data ≠ []) (pos : 1 ≤ chunk)
    (decodes : ∀ sym ∈ weight.exps, Decodes tables lmax sym) (narrow : lmax ≤ 24) :
    (packed tables weight.exps (chunksOf weight.exps.length chunk)
      (rowsOf weight.exps.length (chunksOf weight.exps.length chunk))).Pairwise
      fun first second => ∀ w,
        indexAdd (fun _ => 0) [first] w &&& indexAdd (fun _ => 0) [second] w = 0 := by
  have count : weight.exps.length = weight.data.length := by rw [Bf16Matrix.exps, length_map]
  have some_ : 0 < chunksOf weight.exps.length chunk := count ▸ chunksOf_pos weight nonempty pos
  have inMatrix := mem_chunkRun (j := chunksOf weight.exps.length chunk) weight.exps some_ rfl
  have laid := @codeItems_laid tables lmax 0 _
    (fun sym mem => decodes sym (inMatrix sym mem)) (narrow.trans (by decide))
  have single : ∀ (item : Item) w, indexAdd (fun _ => 0) [item] w = item.part 32 w := by
    intro item w
    rw [indexAdd_eq, word_cons, word_nil, Nat.zero_add, Nat.add_zero]
  have disjoint := parts_disjoint laid (by decide)
  simp only [single]
  refine ((packed_perm tables weight.exps some_ rfl).pairwise_iff ?_).mpr disjoint
  intro first second apart w
  rw [Nat.and_comm]
  exact apart w

theorem bitsBeforeLast_eq (nonempty : weight.data ≠ []) (pos : 1 ≤ chunk)
    (built : huffmanTables (bincount weight.exps) lmax = some tables) :
    bitsBeforeLast weight chunk lmax =
      bitsOf tables (chunkRun weight.exps (chunksOf weight.exps.length chunk)
        (rowsOf weight.exps.length (chunksOf weight.exps.length chunk))
        (chunksOf weight.exps.length chunk - 1)) := by
  have count : weight.exps.length = weight.data.length := by rw [Bf16Matrix.exps, length_map]
  have some_ : 0 < chunksOf weight.exps.length chunk := count ▸ chunksOf_pos weight nonempty pos
  unfold bitsBeforeLast
  rw [built, bitsOf_chunkRun tables weight.exps some_ rfl (Nat.sub_le _ 1)]
  rfl

end Whole

/-! ### A matrix that does not come back -/

section Lopsided

variable (m : Nat)

/-- A matrix that does not come back. -/
def lopsided : Bf16Matrix where
  rows := 1
  cols := m + 1
  data := List.replicate m 0x3F80#16 ++ [0x4000#16]
  whole := by rw [List.length_append, List.length_replicate, Nat.one_mul]; rfl

theorem lopsided_exps : (lopsided m).exps = List.replicate m 127 ++ [128] := by
  unfold Bf16Matrix.exps lopsided
  rw [map_append, map_replicate]
  rfl

theorem lopsided_length : (lopsided m).data.length = m + 1 := by
  rw [(lopsided m).whole]
  exact one_mul _

theorem chunkRun_single (exps : List Nat) {k : Nat} (within : k ≤ exps.length) :
    chunkRun exps exps.length (rowsOf exps.length exps.length) k = exps.take k := by
  induction k with
  | zero => rfl
  | succ k ih =>
    have some_ : 0 < exps.length := by omega
    have single : chunkExps exps exps.length (rowsOf exps.length exps.length) k = [exps[k]] := by
      apply ext_getElem?
      intro i
      rw [chunkExps_get exps some_ rfl]
      cases i with
      | zero =>
        rw [Nat.zero_mul, zero_add, if_pos (show k < exps.length from within), getD_eq_getElem?_getD,
          getElem?_eq_getElem within]
        rfl
      | succ i =>
        rw [Nat.succ_mul, if_neg (by omega)]
        rfl
    rw [chunkRun_succ, ih (by omega), single, take_succ_eq_append_getElem within]

theorem word_zero {W : Nat} {items : List Item} (zero : ∀ item ∈ items, item.code = 0) (w : Nat) :
    word W items w = 0 := by
  induction items with
  | nil => rfl
  | cons item items ih =>
    have none := zero item mem_cons_self
    have part : item.part W w = 0 := by
      unfold Item.part Item.high Item.low
      rw [none]
      simp
    rw [word_cons, part, ih fun other mem => zero other (mem_cons_of_mem _ mem)]

theorem lopsided_tables (isLarge : m = 2 ^ 31) :
    ∃ tables, huffmanTables (bincount (lopsided m).exps) 8 = some tables ∧
      tables.codeArr 127 = 0 ∧ tables.lenArr 127 = 1 ∧ tables.lenArr 128 = 1 := by
  have hist : bincount (lopsided m).exps =
      fun sym => if sym = 127 then 2 ^ 31 else if sym = 128 then 1 else 0 := by
    funext sym
    unfold bincount
    rw [lopsided_exps, count_append, count_replicate, count_singleton, isLarge]
    by_cases one : sym = 127
    · subst one
      rfl
    · by_cases two : sym = 128
      · subst two
        rfl
      · have notOne : (127 == sym) = false := by
          rw [beq_eq_false_iff_ne]
          omega
        have notTwo : (128 == sym) = false := by
          rw [beq_eq_false_iff_ne]
          omega
        rw [if_neg one, if_neg two, notOne, notTwo]
        rfl
  have computed : (huffmanTables
      (fun sym => if sym = 127 then 2 ^ 31 else if sym = 128 then 1 else 0) 8).map
        (fun tables => (tables.codeArr 127, tables.lenArr 127, tables.lenArr 128)) =
      some (0, 1, 1) := by
    decide +kernel
  rw [hist]
  obtain ⟨tables, built, parts⟩ := map_eq_some_iff.mp computed
  rw [Prod.mk.injEq, Prod.mk.injEq] at parts
  exact ⟨tables, built, parts⟩

section Misread

variable {m} {tables : Tables} (isLarge : m = 2 ^ 31) (zeroCode : tables.codeArr 127 = 0)
  (oneBit : tables.lenArr 127 = 1)

include oneBit in
theorem lopsided_ones : bitsOf tables (List.replicate m 127) = m := by
  unfold bitsOf
  rw [map_replicate, oneBit, sum_replicate_nat, mul_one]

include isLarge zeroCode oneBit in
theorem lopsided_words {w : Nat} (early : w < 2 ^ 26) :
    word 32 (codeItems tables 0 (lopsided m).exps) w = 0 := by
  have ones : word 32 (codeItems tables 0 (replicate m 127)) w = 0 := by
    refine word_zero (fun item mem => ?_) w
    rw [codeItems_eq] at mem
    obtain ⟨p, lt, rfl⟩ := List.mem_map.mp mem
    rw [length_replicate, mem_range] at lt
    rw [getD_eq_getElem?_getD, getElem?_replicate, if_pos lt, getD_some, zeroCode]
  rw [lopsided_exps, codeItems_append, word_append, ones, lopsided_ones oneBit, zero_add,
    zero_add, codeItems, codeItems, word_cons, word_nil, add_zero]
  exact part_other (by dsimp only; omega) (by dsimp only; omega)

end Misread

theorem lopsided_last (isLarge : m = 2 ^ 31) {tables : Tables}
    (zeroCode : tables.codeArr 127 = 0) (oneBit : tables.lenArr 127 = 1)
    (oneBitToo : tables.lenArr 128 = 1) (decodes : Decodes tables 8 127) :
    decodeChunk (chunkBundle (lopsided m) tables 1 8) m = some [127] := by
  have length := lopsided_length m
  have count : (lopsided m).exps.length = m + 1 := by rw [Bf16Matrix.exps, length_map, length]
  have single : chunksOf (m + 1) 1 = m + 1 := Nat.div_one _
  have runs : ∀ k ≤ m + 1, chunkRun (lopsided m).exps (m + 1) (rowsOf (m + 1) (m + 1)) k =
      (lopsided m).exps.take k := by
    have all := fun k => @chunkRun_single (lopsided m).exps k
    rwa [count] at all
  have start : bitsOf tables (chunkRun (lopsided m).exps (m + 1) (rowsOf (m + 1) (m + 1)) m) =
      2 ^ 31 := by
    have ones : (lopsided m).exps.take m = replicate m 127 := by
      rw [lopsided_exps]
      exact take_left' length_replicate
    rw [runs m (by omega), ones, lopsided_ones oneBit, isLarge]
  have total : bitsOf tables (chunkRun (lopsided m).exps (m + 1) (rowsOf (m + 1) (m + 1))
      (m + 1)) = 2 ^ 31 + 1 := by
    have last : bitsOf tables [128] = 1 := oneBitToo
    rw [runs (m + 1) le_rfl, ← count, take_length, lopsided_exps, bitsOf_append,
      lopsided_ones oneBit, last, isLarge]
  have one : chunkLength (m + 1) (m + 1) (rowsOf (m + 1) (m + 1)) m = 1 := by
    have some_ : 0 < m + 1 := Nat.succ_pos m
    have first := @lt_chunkLength (m + 1) (m + 1) _ some_ 0 m rfl
    have second := @lt_chunkLength (m + 1) (m + 1) _ some_ 1 m rfl
    rw [Nat.zero_mul] at first
    rw [Nat.one_mul] at second
    omega
  have stored := @chunkBundle_start (lopsided m) tables 1 8 m (by rw [length, single]; omega)
  rw [length, single, start] at stored
  have place : (BitVec.ofNat 32 (2 ^ 31)).toInt = -2147483648 := by decide
  have wordThree := lopsided_words isLarge zeroCode oneBit (show 3 < 2 ^ 26 by decide)
  have wordFour := lopsided_words isLarge zeroCode oneBit (show 4 < 2 ^ 26 by decide)
  have third := @streamAt_negative (word 32 (codeItems tables 0 (lopsided m).exps)) 67108867 3
    (by decide) (by rw [wordThree]; decide)
  have fourth := @streamAt_negative (word 32 (codeItems tables 0 (lopsided m).exps)) 67108867 4
    (by decide) (by rw [wordFour]; decide)
  have peeked : peek (toStream (word 32 (codeItems tables 0 (lopsided m).exps)) 67108867) 8
      (-2147483648) = some 0 := by
    have w : (-2147483648 : Int) / 32 = (3 : Nat) - (67108867 : Nat) := by decide
    have next : ((3 : Nat) : Int) - (67108867 : Nat) + 1 = (4 : Nat) - (67108867 : Nat) := by decide
    unfold peek
    dsimp only
    rw [w, next, third, fourth, wordThree, wordFour]
    rfl
  have found := decodes.found 0 (Nat.two_pow_pos _)
  rw [zeroCode, Nat.zero_mul, oneBit] at found
  unfold decodeChunk
  rw [stored]
  change decodeFrom (chunkBundle (lopsided m) tables 1 8).bitstream tables.lut 8
    (chunkLength (lopsided m).data.length (chunksOf (lopsided m).data.length 1)
      (rowsOf (lopsided m).data.length (chunksOf (lopsided m).data.length 1)) m) _ = _
  rw [length, single, one, place]
  unfold chunkBundle
  dsimp only
  rw [length, single, total, runs (m + 1) le_rfl, ← count, take_length, decodeFrom]
  change (peek (toStream (word 32 (codeItems tables 0 (lopsided m).exps)) 67108867) 8
    (-2147483648) >>= _) = _
  rw [peeked]
  change (tables.lut[0]? >>= _) = _
  rw [found]
  rfl

theorem lopsided_misread (isLarge : m = 2 ^ 31) {tables : Tables}
    (last : decodeChunk (chunkBundle (lopsided m) tables 1 8) m = some [127]) :
    df11DecompressRef (chunkBundle (lopsided m) tables 1 8) ≠ some (lopsided m).data := by
  intro back
  have length := lopsided_length m
  have chunks : (chunkBundle (lopsided m) tables 1 8).numChunks = m + 1 := by
    change chunksOf (lopsided m).data.length 1 = _
    rw [length]
    exact Nat.div_one _
  have value : (lopsided m).data[m]? = some 0x4000#16 := by
    change (replicate m 0x3F80#16 ++ [0x4000#16])[m]? = _
    rw [getElem?_append_right length_replicate.le, length_replicate, Nat.sub_self]
    rfl
  have byte : (chunkBundle (lopsided m) tables 1 8).low8[m]? = some 0 := by
    change ((lopsided m).data.map lowByte)[m]? = _
    rw [getElem?_map, value]
    rfl
  unfold df11DecompressRef at back
  rw [chunks, range_succ, foldlM_append] at back
  obtain ⟨expOut, folded, joined⟩ := bind_eq_some_iff.mp back
  obtain ⟨pre, -, lastStep⟩ := bind_eq_some_iff.mp folded
  rw [foldlM_cons] at lastStep
  rw [last] at lastStep
  have isLast : scatterChunk (m + 1) pre m [127] = expOut := some_inj.mp lastStep
  have all : ((expOut.zip (chunkBundle (lopsided m) tables 1 8).low8).map fun value =>
      join value.1 value.2) = (lopsided m).data := some_inj.mp joined
  have entry : ((expOut.zip (chunkBundle (lopsided m) tables 1 8).low8).map fun value =>
      join value.1 value.2)[m]? = some 0x4000#16 := by rw [all, value]
  rw [getElem?_map] at entry
  obtain ⟨parts, zipped, isTwo⟩ := map_eq_some_iff.mp entry
  obtain ⟨exp, low⟩ := getElem?_zip_eq_some.mp zipped
  rw [byte] at low
  have isOne : parts.1 = 127 := by
    have get := scatter_get (show m < m + 1 from Nat.lt_succ_self m) [127] 0 pre m
    change (scatterChunk (m + 1) pre m [127])[m]? = _ at get
    rw [isLast, Nat.mod_eq_of_lt (Nat.lt_succ_self m), Nat.div_eq_of_lt (Nat.lt_succ_self m)] at get
    rw [get] at exp
    by_cases lt : m < pre.length
    · rw [if_pos ⟨rfl, le_rfl, by decide, lt⟩] at exp
      exact (some_inj.mp exp).symm
    · rw [if_neg (fun own => lt own.2.2.2), getElem?_eq_none (by omega)] at exp
      cases exp
  rw [isOne, ← some_inj.mp low] at isTwo
  exact absurd isTwo (by decide)

end Lopsided

/-! ### The condition -/

/-- **The layout is lossless if and only if the last chunk starts below bit `2 ^ 31`.** -/
theorem lossless_iff (chunk lmax : Nat) (nonempty : weight.data ≠ [])
    (pos : 1 ≤ chunk) (wide : 8 ≤ lmax) (narrow : lmax ≤ 24) :
    Lossless weight chunk lmax ↔ bitsBeforeLast weight chunk lmax < 2 ^ 31 := by
  obtain ⟨tables, lengths, built, computed, isTable, decodes⟩ :=
    tables_of_matrix weight nonempty wide
  have count : weight.exps.length = weight.data.length := by rw [Bf16Matrix.exps, length_map]
  have some_ := chunksOf_pos weight nonempty pos
  have compressed := df11Compress_eq weight tables nonempty pos built
  have starts : ∀ j < chunksOf weight.data.length chunk,
      off (weight.exps.map tables.lenArr) (chunksOf weight.data.length chunk)
        (rowsOf weight.data.length (chunksOf weight.data.length chunk)) j =
      bitsOf tables (chunkRun weight.exps (chunksOf weight.data.length chunk)
        (rowsOf weight.data.length (chunksOf weight.data.length chunk)) j) := by
    intro j lt
    have isRow : rowsOf weight.data.length (chunksOf weight.data.length chunk) =
        rowsOf weight.exps.length (chunksOf weight.data.length chunk) := by rw [count]
    have first := off_eq tables weight.exps some_ isRow 0 lt
    rw [Nat.zero_mul, zero_add] at first
    exact first
  rw [bitsBeforeLast_eq weight tables nonempty pos built, count]
  constructor
  · rintro ⟨c, others, -, isBundle, sameTables, -, -, -, -, own⟩
    rw [compressed] at isBundle
    cases isBundle
    rw [built] at sameTables
    cases sameTables
    have last := own (chunksOf weight.data.length chunk - 1) (Nat.sub_lt some_ one_pos)
    rw [chunkBundle_start weight tables (Nat.sub_lt some_ one_pos), map_some, some_inj] at last
    exact ofNat_toInt_iff.mp (last.trans (congrArg _ (starts _ (Nat.sub_lt some_ one_pos))))
  · intro below
    have own : ∀ j < chunksOf weight.data.length chunk,
        bitsOf tables (chunkRun weight.exps (chunksOf weight.data.length chunk)
          (rowsOf weight.data.length (chunksOf weight.data.length chunk)) j) < 2 ^ 31 := by
      intro j lt
      obtain ⟨later, rest⟩ := @chunkRun_initial weight.exps (chunksOf weight.data.length chunk)
        (rowsOf weight.data.length (chunksOf weight.data.length chunk)) j
        (chunksOf weight.data.length chunk - 1) (by omega)
      rw [← rest, bitsOf_append] at below
      omega
    have disjoint := packed_disjoint weight tables nonempty pos decodes narrow
    rw [count] at disjoint
    refine ⟨chunkBundle weight tables chunk lmax, tables, lengths, compressed, built, computed,
      ⟨rfl, rfl, df11DecompressRef_eq weight tables nonempty pos decodes
        (narrow.trans (by decide)) own⟩, isTable,
      disjoint, fun j lt => ?_⟩
    rw [chunkBundle_start weight tables lt, map_some, some_inj]
    exact (ofNat_toInt_iff.mpr (own j lt)).trans (congrArg _ (starts j lt).symm)

/-- Two rows of ones, twos and a NaN with a payload. -/
theorem lossless_small : Lossless ⟨2, 2, [0x3F80#16, 0x7F81#16, 0x3F80#16, 0x4000#16], rfl⟩ 2 8 :=
  (lossless_iff ⟨2, 2, [0x3F80#16, 0x7F81#16, 0x3F80#16, 0x4000#16], rfl⟩ 2 8
    (cons_ne_nil _ _) (by decide) le_rfl (by decide)).mpr (by decide +kernel)

/-- **A matrix of `2 ^ 31 + 1` values, in chunks of one value, does not come back.** -/
theorem lopsided_altered : ∃ c, df11Compress (lopsided (2 ^ 31)) 1 8 = some c ∧
      df11DecompressRef c ≠ some (lopsided (2 ^ 31)).data := by
  obtain ⟨m, isLarge⟩ : ∃ m, m = 2 ^ 31 := ⟨_, rfl⟩
  rw [← isLarge]
  have some_ : (lopsided m).data ≠ [] := append_ne_nil_of_right_ne_nil _ (cons_ne_nil _ _)
  have isOne : 127 ∈ (lopsided m).exps := by
    rw [lopsided_exps]
    exact mem_append_left _ (mem_replicate.mpr ⟨by omega, rfl⟩)
  obtain ⟨tables, built, zeroCode, oneBit, oneBitToo⟩ := lopsided_tables m isLarge
  obtain ⟨others, -, sameTables, -, -, decodes⟩ := tables_of_matrix (lopsided m) some_ le_rfl
  rw [built] at sameTables
  cases sameTables
  have last := lopsided_last m isLarge zeroCode oneBit oneBitToo (decodes 127 isOne)
  exact ⟨_, df11Compress_eq (lopsided m) tables some_ le_rfl built, lopsided_misread m isLarge last⟩

end FreeToken.Df11
