/-
**The interleaved layout.**

* `scatterChunk_spec`, `df11DecompressRef_eq`: the chunks are put back at their positions.
-/

import FreeToken.Kernel.Df11Codec
import Mathlib.Data.List.Perm.Lattice

namespace FreeToken.Df11

open PrefixCode BitStream List

/-! ### Positions -/

section Positions

variable {n g rows : Nat}

theorem lt_takeWhile_range (P : Nat → Bool) (closed : ∀ i k, i ≤ k → P k = true → P i = true)
    (rows i : Nat) :
    i < ((List.range rows).takeWhile P).length ↔ i < rows ∧ P i = true := by
  induction rows generalizing i with
  | zero => simp
  | succ rows ih =>
    rw [range_succ, takeWhile_append, length_range]
    by_cases all : ((range rows).takeWhile P).length = rows
    · rw [if_pos all, length_append, length_range]
      have lt := ih i
      rw [all] at lt
      cases last : P rows with
      | true =>
        rw [takeWhile_cons_of_pos last, takeWhile_nil, length_singleton]
        exact ⟨fun below => ⟨below, closed i rows (by omega) last⟩, fun both => both.1⟩
      | false =>
        rw [takeWhile_cons_of_neg (by rw [last]; decide), length_nil, add_zero]
        refine ⟨fun below => ⟨by omega, (lt.mp below).2⟩, fun both => ?_⟩
        have other : i ≠ rows := by
          rintro rfl
          rw [last] at both
          exact absurd both.2 (by decide)
        omega
    · have most := (takeWhile_sublist P (l := range rows)).length_le
      rw [length_range] at most
      rw [if_neg all, ih]
      refine ⟨fun both => ⟨by omega, both.2⟩, fun both => ⟨?_, both.2⟩⟩
      by_contra beyond
      have stopped := (ih ((range rows).takeWhile P).length).mpr
        ⟨by omega, closed _ i (by omega) both.2⟩
      omega

theorem lt_chunkLength (some_ : 0 < g) {i j : Nat} (isRow : rows = rowsOf n g) :
    i < chunkLength n g rows j ↔ i * g + j < n := by
  unfold chunkLength
  rw [lt_takeWhile_range _ fun i k pre lt => ?_]
  · rw [decide_eq_true_iff]
    refine ⟨fun both => both.2, fun lt => ⟨?_, lt⟩⟩
    rw [isRow, rowsOf, Nat.lt_iff_add_one_le, Nat.le_div_iff_mul_le some_, Nat.succ_mul]
    omega
  · rw [decide_eq_true_iff] at lt ⊢
    have step : i * g ≤ k * g := Nat.mul_le_mul_right _ pre
    omega

theorem chunk_of_position (i : Nat) {j : Nat} (lt : j < g) :
    (i * g + j) % g = j ∧ (i * g + j) / g = i := by
  have some_ : 0 < g := by omega
  rw [mul_comm]
  refine ⟨?_, ?_⟩
  · rw [Nat.mul_add_mod, Nat.mod_eq_of_lt lt]
  · rw [Nat.mul_add_div some_, Nat.div_eq_of_lt lt, add_zero]

def positions (n g rows k : Nat) : List Nat :=
  (List.range k).flatMap fun j => (List.range (chunkLength n g rows j)).map fun i => i * g + j

theorem positions_perm (some_ : 0 < g) (isRow : rows = rowsOf n g) {k : Nat} (within : k ≤ g) :
    (positions n g rows k).Perm ((List.range n).filter fun p => p % g < k) := by
  refine (perm_ext_iff_of_nodup ?_ (nodup_range.filter _)).mpr fun p => ?_
  · refine nodup_flatMap.mpr ⟨fun j mem => ?_, ?_⟩
    · refine Nodup.map_on (fun i _ k _ same => ?_) nodup_range
      exact Nat.eq_of_mul_eq_mul_right some_ (add_right_cancel same)
    · refine List.Pairwise.imp_of_mem ?_ (nodup_range (n := k))
      intro j l isChunk otherChunk ne p first second
      obtain ⟨i, -, rfl⟩ := mem_map.mp first
      obtain ⟨m, -, same⟩ := mem_map.mp second
      have left := (chunk_of_position i ((mem_range.mp isChunk).trans_le within)).1
      have right := (chunk_of_position m ((mem_range.mp otherChunk).trans_le within)).1
      rw [same] at right
      exact ne (left.symm.trans right)
  · rw [mem_filter, mem_range, decide_eq_true_iff, positions, mem_flatMap]
    constructor
    · rintro ⟨j, isChunk, mem⟩
      obtain ⟨i, owned, rfl⟩ := mem_map.mp mem
      have early := mem_range.mp isChunk
      refine ⟨(lt_chunkLength some_ isRow).mp (mem_range.mp owned), ?_⟩
      rw [(chunk_of_position i (early.trans_le within)).1]
      exact early
    · rintro ⟨lt, early⟩
      have place := Nat.div_add_mod p g
      rw [mul_comm] at place
      refine ⟨p % g, mem_range.mpr early, mem_map.mpr ⟨p / g, mem_range.mpr ?_, place⟩⟩
      rw [lt_chunkLength some_ isRow, place]
      exact lt

end Positions

/-! ### The codes chunk by chunk -/

section Layout

variable (tables : Tables) (exps : List Nat) (g rows : Nat)

/-- The exponents that a chunk owns, and `positions_perm`: the chunks own every position once. -/
def chunkExps (j : Nat) : List Nat :=
  (List.range (chunkLength exps.length g rows j)).map fun i => exps.getD (i * g + j) 0

def chunkRun (j : Nat) : List Nat := (List.range j).flatMap (chunkExps exps g rows)

theorem chunkRun_succ (j : Nat) :
    chunkRun exps g rows (j + 1) = chunkRun exps g rows j ++ chunkExps exps g rows j := by
  unfold chunkRun
  rw [range_succ, flatMap_append, flatMap_singleton]

variable {g rows} (some_ : 0 < g) (isRow : rows = rowsOf exps.length g)

include some_ isRow

theorem chunkExps_get (i j : Nat) :
    (chunkExps exps g rows j)[i]? = if i * g + j < exps.length then some (exps.getD (i * g + j) 0)
      else none := by
  have bound := lt_chunkLength (j := j) (i := i) some_ isRow
  unfold chunkExps
  rw [getElem?_map]
  by_cases lt : i * g + j < exps.length
  · rw [getElem?_range (bound.mpr lt), if_pos lt, Option.map_some]
  · have beyond := mt bound.mp lt
    rw [getElem?_eq_none (by rw [length_range]; omega), if_neg lt, Option.map_none]

theorem sum_len2d (i j : Nat) :
    ((List.range i).map fun i => len2d (exps.map tables.lenArr) g i j).sum =
      bitsOf tables ((chunkExps exps g rows j).take i) := by
  induction i with
  | zero => rfl
  | succ i ih =>
    have entry : len2d (exps.map tables.lenArr) g i j =
        bitsOf tables (chunkExps exps g rows j)[i]?.toList := by
      rw [chunkExps_get exps some_ isRow, len2d, getD_eq_getElem?_getD, getElem?_map]
      by_cases lt : i * g + j < exps.length
      · rw [if_pos lt, getD_eq_getElem?_getD, getElem?_eq_getElem lt]
        rfl
      · rw [if_neg lt, getElem?_eq_none (by omega)]
        rfl
    rw [range_succ, map_append, sum_append, ih, map_singleton,
      sum_singleton, entry, take_add_one, bitsOf_append]

theorem colBits_eq (j : Nat) :
    colBits (exps.map tables.lenArr) g rows j = bitsOf tables (chunkExps exps g rows j) := by
  have most : (chunkExps exps g rows j).length ≤ rows := by
    unfold chunkExps chunkLength
    rw [length_map, length_range]
    exact (takeWhile_sublist _).length_le.trans length_range.le
  unfold colBits
  rw [sum_len2d tables exps some_ isRow, take_of_length_le most]

theorem chunkStart_eq (j : Nat) :
    chunkStart (exps.map tables.lenArr) g rows j = bitsOf tables (chunkRun exps g rows j) := by
  unfold chunkStart
  induction j with
  | zero => rfl
  | succ j ih =>
    rw [exclusive_succ, ih, colBits_eq tables exps some_ isRow, chunkRun_succ, bitsOf_append]

theorem off_eq (i : Nat) {j : Nat} (lt : j < g) :
    off (exps.map tables.lenArr) g rows (i * g + j) = bitsOf tables (chunkRun exps g rows j) +
        bitsOf tables ((chunkExps exps g rows j).take i) := by
  obtain ⟨chunk, row⟩ := chunk_of_position i lt
  unfold off exclusive
  rw [chunk, row, chunkStart_eq tables exps some_ isRow, sum_len2d tables exps some_ isRow]

theorem codeItems_chunkRun (j : Nat) (within : j ≤ g) :
    codeItems tables 0 (chunkRun exps g rows j) = (positions exps.length g rows j).map fun p =>
        (⟨off (exps.map tables.lenArr) g rows p, tables.codeArr (exps.getD p 0),
          (exps.map tables.lenArr).getD p 0⟩ : Item) := by
  unfold positions
  induction j with
  | zero => rfl
  | succ j ih =>
    have length : (chunkExps exps g rows j).length = chunkLength exps.length g rows j := by
      rw [chunkExps, length_map, length_range]
    rw [chunkRun_succ, codeItems_append, ih (by omega), range_succ, flatMap_append,
      flatMap_singleton, map_append, zero_add, codeItems_eq, length, map_map]
    congr 1
    refine map_congr_left fun i mem => ?_
    have lt := (lt_chunkLength some_ isRow).mp (mem_range.mp mem)
    have value : (chunkExps exps g rows j).getD i 0 = exps.getD (i * g + j) 0 := by
      rw [getD_eq_getElem?_getD, chunkExps_get exps some_ isRow, if_pos lt, Option.getD_some]
    have width : (exps.map tables.lenArr).getD (i * g + j) 0 =
        tables.lenArr (exps.getD (i * g + j) 0) := by
      rw [getD_eq_getElem?_getD, getElem?_map, getD_eq_getElem?_getD, getElem?_eq_getElem lt]
      rfl
    rw [Function.comp_apply, off_eq tables exps some_ isRow i (by omega), value, width]

/-- The codes, as they are packed, are those of the chunks one behind the other. -/
theorem packed_perm :
    (packed tables exps g rows).Perm (codeItems tables 0 (chunkRun exps g rows g)) := by
  have every : ((range exps.length).filter fun p => p % g < g) = range exps.length :=
    filter_eq_self.mpr fun p _ => decide_eq_true (Nat.mod_lt p some_)
  have perm := positions_perm some_ isRow (le_refl g)
  rw [every] at perm
  rw [codeItems_chunkRun tables exps some_ isRow g le_rfl]
  exact (perm.map _).symm

theorem bitsOf_chunkRun {k : Nat} (within : k ≤ g) : bitsOf tables (chunkRun exps g rows k) =
      (((List.range exps.length).filter fun p => p % g < k).map fun p =>
        tables.lenArr (exps.getD p 0)).sum := by
  have run : chunkRun exps g rows k =
      (positions exps.length g rows k).map fun p => exps.getD p 0 := by
    unfold chunkRun positions
    rw [map_flatMap]
    refine flatMap_congr fun j _ => ?_
    rw [map_map]
    rfl
  unfold bitsOf
  rw [run, map_map]
  exact ((positions_perm some_ isRow within).map _).sum_eq

omit isRow some_ in
theorem chunkRun_initial {j k : Nat} (below : j ≤ k) :
    chunkRun exps g rows j <+: chunkRun exps g rows k := by
  induction k, below using Nat.le_induction with
  | base => exact prefix_rfl
  | succ k _ ih =>
    rw [chunkRun_succ]
    exact ih.trans (prefix_append _ _)

theorem mem_chunkRun {j : Nat} : ∀ sym ∈ chunkRun exps g rows j, sym ∈ exps := by
  intro sym mem
  obtain ⟨k, -, owned⟩ := mem_flatMap.mp mem
  obtain ⟨i, within, rfl⟩ := mem_map.mp owned
  have lt := (lt_chunkLength some_ isRow).mp (mem_range.mp within)
  rw [getD_eq_getElem?_getD, getElem?_eq_getElem lt]
  exact getElem_mem lt

end Layout

/-! ### The chunks at their positions -/

section Scatter

variable {g j : Nat}

theorem scatter_get (lt : j < g) (symbols : List Nat) (k : Nat) (expOut : List Nat) (p : Nat) :
    ((symbols.zipIdx k).foldl (fun expOut entry => expOut.set (entry.2 * g + j) entry.1) expOut)[p]? =
      if p % g = j ∧ k ≤ p / g ∧ p / g < k + symbols.length ∧ p < expOut.length
      then symbols[p / g - k]? else expOut[p]? := by
  induction symbols generalizing k expOut with
  | nil =>
    rw [length_nil, if_neg (by omega)]
    rfl
  | cons symbol symbols ih =>
    rw [zipIdx_cons, foldl_cons, ih, length_set, length_cons]
    obtain ⟨chunk, row⟩ := chunk_of_position k lt
    by_cases here : k * g + j = p
    · subst here
      rw [chunk, row, if_neg (by omega)]
      by_cases bound : k * g + j < expOut.length
      · rw [getElem?_set_self bound, if_pos ⟨rfl, le_rfl, by omega, bound⟩, Nat.sub_self,
          getElem?_cons_zero]
      · rw [if_neg (by omega), getElem?_eq_none (by rw [length_set]; omega),
          getElem?_eq_none (by omega)]
    · rw [getElem?_set_ne here]
      by_cases own : p % g = j ∧ k ≤ p / g ∧ p / g < k + (symbols.length + 1) ∧ p < expOut.length
      · have other : p / g ≠ k := by
          intro same
          have place := Nat.div_add_mod p g
          rw [same, own.1, Nat.mul_comm] at place
          exact here place
        rw [if_pos own, if_pos ⟨own.1, by omega, by omega, own.2.2.2⟩]
        have index : p / g - k = p / g - (k + 1) + 1 := by omega
        rw [index, getElem?_cons_succ]
      · rw [if_neg own, if_neg (by omega)]

theorem scatterChunk_get {exps expOut : List Nat} {rows : Nat} (isRow : rows = rowsOf exps.length g)
    (lt : j < g) (whole : expOut.length = exps.length) (p : Nat) :
    (scatterChunk g expOut j (chunkExps exps g rows j))[p]? =
      if p % g = j then exps[p]? else expOut[p]? := by
  have some_ : 0 < g := by omega
  have place := Nat.div_add_mod p g
  rw [Nat.mul_comm] at place
  have length : (chunkExps exps g rows j).length = chunkLength exps.length g rows j := by
    rw [chunkExps, length_map, length_range]
  have get := scatter_get lt (chunkExps exps g rows j) 0 expOut p
  rw [Nat.zero_add, Nat.sub_zero, length, chunkExps_get exps some_ isRow] at get
  refine get.trans ?_
  by_cases own : p % g = j
  · rw [own] at place
    rw [if_pos own, place]
    by_cases within : p < exps.length
    · have counted : p / g < chunkLength exps.length g rows j := by
        rw [lt_chunkLength some_ isRow, place]
        exact within
      rw [if_pos ⟨own, Nat.zero_le _, counted, by omega⟩, if_pos within,
        getD_eq_getElem?_getD, getElem?_eq_getElem within, Option.getD_some]
    · rw [if_neg (by omega), getElem?_eq_none (by omega), getElem?_eq_none (by omega)]
  · rw [if_neg own, if_neg (by omega)]

end Scatter

/-! ### The bundle -/

theorem ofNat_toInt_iff {start : Nat} : (BitVec.ofNat 32 start).toInt = start ↔ start < 2 ^ 31 := by
  refine ⟨fun same => ?_, fun small => ?_⟩
  · have bound : (BitVec.ofNat 32 start).toInt < 2 ^ 31 := BitVec.toInt_lt
    omega
  · have value : (BitVec.ofNat 32 start).toNat = start := by
      rw [BitVec.toNat_ofNat, Nat.mod_eq_of_lt (by omega)]
    rw [BitVec.toInt_eq_toNat_of_lt (by omega), value]

section Whole

variable (weight : Bf16Matrix) (tables : Tables) (chunk : Nat) {lmax : Nat}

/-- The bundle, in terms of the chunks. -/
def chunkBundle (lmax : Nat) : Bundle :=
  let g := chunksOf weight.data.length chunk
  let rows := rowsOf weight.data.length g
  { low8 := weight.data.map lowByte
    bitstream := toStream (word 32 (codeItems tables 0 (chunkRun weight.exps g rows g)))
      ((bitsOf tables (chunkRun weight.exps g rows g) + 31) / 32 + 2)
    chunkStart := (List.range g).map fun j =>
      BitVec.ofNat 32 (bitsOf tables (chunkRun weight.exps g rows j))
    lut := tables.lut
    outFeatures := weight.rows
    inFeatures := weight.cols
    n := weight.data.length
    numChunks := g
    rows := rows
    lmax := lmax }

variable {chunk}

theorem chunkBundle_start {j : Nat} (lt : j < chunksOf weight.data.length chunk) :
    (chunkBundle weight tables chunk lmax).chunkStart[j]? =
      some (BitVec.ofNat 32 (bitsOf tables (chunkRun weight.exps
        (chunksOf weight.data.length chunk)
        (rowsOf weight.data.length (chunksOf weight.data.length chunk)) j))) := by
  change ((range (chunksOf weight.data.length chunk)).map _)[j]? = _
  rw [getElem?_map, getElem?_range lt, Option.map_some]

variable (nonempty : weight.data ≠ []) (pos : 1 ≤ chunk)

include nonempty pos

theorem chunksOf_pos : 0 < chunksOf weight.data.length chunk := by
  have some_ := length_pos_iff.mpr nonempty
  exact Nat.div_pos (by omega) (by omega)

theorem df11Compress_eq (built : huffmanTables (bincount weight.exps) lmax = some tables) :
    df11Compress weight chunk lmax = some (chunkBundle weight tables chunk lmax) := by
  obtain ⟨g, isCount⟩ : ∃ g, chunksOf weight.data.length chunk = g := ⟨_, rfl⟩
  have some_ : 0 < g := isCount ▸ chunksOf_pos weight nonempty pos
  have isRow : rowsOf weight.data.length g = rowsOf weight.exps.length g := by
    rw [Bf16Matrix.exps, length_map]
  have starts := funext (chunkStart_eq tables weight.exps some_ isRow)
  have total : (if weight.data.length = 0 then 0 else
      chunkStart (weight.exps.map tables.lenArr) g (rowsOf weight.data.length g) (g - 1) +
        colBits (weight.exps.map tables.lenArr) g (rowsOf weight.data.length g) (g - 1)) =
      bitsOf tables (chunkRun weight.exps g (rowsOf weight.data.length g) g) := by
    have last : g - 1 + 1 = g := Nat.sub_add_cancel some_
    rw [if_neg (length_pos_iff.mpr nonempty).ne', starts,
      colBits_eq tables weight.exps some_ isRow, ← bitsOf_append, ← chunkRun_succ, last]
  have words : indexAdd (fun _ => 0)
      (packed tables weight.exps g (rowsOf weight.data.length g)) =
      word 32 (codeItems tables 0 (chunkRun weight.exps g (rowsOf weight.data.length g) g)) := by
    funext w
    rw [indexAdd_eq, Nat.zero_add, word_perm (packed_perm tables weight.exps some_ isRow)]
  unfold df11Compress chunkBundle
  dsimp only
  change (huffmanTables (bincount weight.exps) lmax >>= _) = _
  rw [built, Option.bind_eq_bind, Option.bind_some, isCount]
  rw [Bf16Matrix.exps] at total words starts
  rw [total, words, starts]
  rfl

variable (decodes : ∀ sym ∈ weight.exps, Decodes tables lmax sym) (narrow : lmax ≤ 32)

include decodes narrow

omit nonempty pos in
/-- A chunk whose stored start is its own is read back. -/
theorem decodeChunk_eq {j : Nat} (lt : j < chunksOf weight.data.length chunk)
    (own : bitsOf tables (chunkRun weight.exps (chunksOf weight.data.length chunk)
      (rowsOf weight.data.length (chunksOf weight.data.length chunk)) j) < 2 ^ 31) :
    decodeChunk (chunkBundle weight tables chunk lmax) j =
      some (chunkExps weight.exps (chunksOf weight.data.length chunk)
        (rowsOf weight.data.length (chunksOf weight.data.length chunk)) j) := by
  have start := @chunkBundle_start weight tables chunk lmax j lt
  obtain ⟨g, isCount⟩ : ∃ g, chunksOf weight.data.length chunk = g := ⟨_, rfl⟩
  obtain ⟨rows, isRows⟩ : ∃ rows, rowsOf weight.data.length g = rows := ⟨_, rfl⟩
  rw [isCount, isRows] at own start
  rw [isCount] at lt
  have some_ : 0 < g := by omega
  have count : weight.exps.length = weight.data.length := by rw [Bf16Matrix.exps, length_map]
  have isRow : rows = rowsOf weight.exps.length g := by rw [count, isRows]
  have place := ofNat_toInt_iff.mpr own
  obtain ⟨after, rest⟩ := @chunkRun_initial weight.exps g rows (j + 1) g lt
  rw [chunkRun_succ] at rest
  have length : (chunkExps weight.exps g rows j).length =
      chunkLength weight.data.length g rows j := by
    rw [chunkExps, length_map, length_range, count]
  have run := @decodeFrom_run tables lmax (chunkRun weight.exps g rows j)
    (chunkExps weight.exps g rows j) after _ narrow
    (by
      rw [rest]
      exact fun sym mem => decodes sym (mem_chunkRun weight.exps some_ isRow sym mem))
    le_rfl
  rw [rest, length] at run
  unfold decodeChunk
  rw [start]
  change decodeFrom (chunkBundle weight tables chunk lmax).bitstream tables.lut lmax _ _ = _
  rw [place, isCount, isRows]
  unfold chunkBundle
  dsimp only
  rw [isCount, isRows]
  exact run

theorem df11DecompressRef_eq (own : ∀ j < chunksOf weight.data.length chunk,
      bitsOf tables (chunkRun weight.exps (chunksOf weight.data.length chunk)
        (rowsOf weight.data.length (chunksOf weight.data.length chunk)) j) < 2 ^ 31) :
    df11DecompressRef (chunkBundle weight tables chunk lmax) = some weight.data := by
  have some_ := chunksOf_pos weight nonempty pos
  have count : weight.exps.length = weight.data.length := by rw [Bf16Matrix.exps, length_map]
  have upTo : ∀ k ≤ chunksOf weight.data.length chunk, ∃ expOut,
      (range k).foldlM (fun expOut j => do
        return scatterChunk (chunksOf weight.data.length chunk) expOut j
          (← decodeChunk (chunkBundle weight tables chunk lmax) j))
        (replicate weight.data.length 0) = some expOut ∧
      expOut.length = weight.exps.length ∧
      ∀ p, p % chunksOf weight.data.length chunk < k → expOut[p]? = weight.exps[p]? := by
    intro k
    induction k with
    | zero =>
      intro _
      exact ⟨_, rfl, by rw [length_replicate, count], fun p none => absurd none (by omega)⟩
    | succ k ih =>
      intro within
      obtain ⟨expOut, folded, whole, pre⟩ := ih (by omega)
      have lt : k < chunksOf weight.data.length chunk := within
      have isRow : rowsOf weight.data.length (chunksOf weight.data.length chunk) =
          rowsOf weight.exps.length (chunksOf weight.data.length chunk) := by rw [count]
      have get := scatterChunk_get isRow lt whole
      refine ⟨_, ?_, ?_, fun p below => (get p).trans ?_⟩
      · rw [range_succ, foldlM_append, folded]
        change (decodeChunk _ k >>= _) >>= _ = _
        rw [decodeChunk_eq weight tables decodes narrow lt (own k lt)]
        rfl
      · have keeps : ∀ (entries : List (Nat × Nat)) (expOut : List Nat) (g : Nat),
            (entries.foldl (fun expOut entry => expOut.set (entry.2 * g + k) entry.1)
              expOut).length = expOut.length := by
          intro entries
          induction entries with
          | nil => exact fun _ _ => rfl
          | cons entry entries ih => exact fun expOut g => (ih _ g).trans length_set
        exact (keeps _ _ _).trans whole
      · by_cases here : p % chunksOf weight.data.length chunk = k
        · rw [if_pos here]
        · rw [if_neg here]
          exact pre p (by omega)
  obtain ⟨expOut, folded, whole, same⟩ := upTo _ le_rfl
  have all : expOut = weight.data.map exponent := ext_getElem? fun p => same p (Nat.mod_lt p some_)
  refine (congrArg (· >>= _) folded).trans ?_
  rw [all]
  exact congrArg some (join_values weight.data)

end Whole

end FreeToken.Df11
