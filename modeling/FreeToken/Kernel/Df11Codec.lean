/-
**Reading back what was packed.**
-/

import FreeToken.Kernel.Df11Huffman

namespace FreeToken.Df11

open PrefixCode BitStream List

/-! ### The parts of a value -/

variable (b : BitVec 16)

theorem exponent_eq : exponent b = b.toNat / 128 % 256 := by
  unfold exponent
  rw [Nat.shiftRight_eq_div_pow]
  exact Nat.and_two_pow_sub_one_eq_mod _ 8

theorem exponent_lt : exponent b < 256 := by
  rw [exponent_eq]
  exact Nat.mod_lt _ (by decide)

theorem lowByte_eq : lowByte b = b.toNat / 32768 % 2 * 128 + b.toNat % 128 := by
  have mantissa : b.toNat &&& 0x7F = b.toNat % 2 ^ 7 := Nat.and_two_pow_sub_one_eq_mod _ 7
  have sign : (b.toNat >>> 15) &&& 1 = b.toNat / 32768 % 2 := by
    rw [Nat.shiftRight_eq_div_pow]
    exact Nat.and_two_pow_sub_one_eq_mod _ 1
  unfold lowByte
  rw [mantissa, sign, ← Nat.shiftLeft_add_eq_or_of_lt (Nat.mod_lt _ (by decide)), Nat.shiftLeft_eq]

/-- A value is its exponent, its sign and its mantissa. -/
theorem join_parts : join (exponent b) (lowByte b) = b := by
  have low := lowByte_eq b
  have exp := exponent_eq b
  have small := b.isLt
  generalize lowByte b = low8 at low ⊢
  generalize exponent b = e at exp ⊢
  have mantissa : low8 &&& 0x7F = low8 % 2 ^ 7 := Nat.and_two_pow_sub_one_eq_mod _ 7
  have sign : (low8 >>> 7) &&& 1 = low8 / 128 % 2 := by
    rw [Nat.shiftRight_eq_div_pow]
    exact Nat.and_two_pow_sub_one_eq_mod _ 1
  have inner : e <<< 7 ||| low8 % 2 ^ 7 = e * 128 + low8 % 128 := by
    rw [← Nat.shiftLeft_add_eq_or_of_lt (Nat.mod_lt _ (by decide)), Nat.shiftLeft_eq]
  unfold join
  rw [mantissa, sign, Nat.or_assoc, inner, ← Nat.shiftLeft_add_eq_or_of_lt (by omega),
    Nat.shiftLeft_eq]
  apply BitVec.eq_of_toNat_eq
  rw [BitVec.toNat_ofNat]
  omega

theorem join_values (values : List (BitVec 16)) :
    (((values.map exponent).zip (values.map lowByte)).map fun value => join value.1 value.2) =
      values := by
  induction values with
  | nil => rfl
  | cons value values ih => rw [map_cons, map_cons, zip_cons_cons, map_cons, join_parts, ih]

theorem exponentOfSigned_eq : exponentOfSigned b = exponent b := by
  apply Nat.eq_of_testBit_eq
  intro i
  have mask : Nat.testBit 0xFF i = decide (i < 8) := Nat.testBit_two_pow_sub_one 8 i
  have mask32 : (0xFF#32).getLsbD i = decide (i < 8) := by
    rw [← BitVec.testBit_toNat]
    exact mask
  unfold exponentOfSigned exponent
  rw [BitVec.testBit_toNat, BitVec.getLsbD_and, Nat.testBit_and, Nat.testBit_shiftRight, mask, mask32,
    BitVec.getLsbD_sshiftRight, BitVec.getLsbD_signExtend, BitVec.testBit_toNat]
  by_cases lt : i < 8
  · rw [if_pos (by omega), if_pos (by omega), decide_eq_false (by omega),
      decide_eq_true (show 7 + i < 32 by omega)]
    rfl
  · rw [decide_eq_false lt, Bool.and_false, Bool.and_false]

def Bf16Matrix.exps (weight : Bf16Matrix) : List Nat := weight.data.map exponent

/-! ### The words -/

theorem high_eq (item : Item) : high item = item.high 32 := by
  have offset : item.offset &&& 31 = item.offset % 32 := Nat.and_two_pow_sub_one_eq_mod _ 5
  unfold high Item.high Item.rest Item.inWord
  rw [offset]

theorem low_eq (item : Item) : low item = item.low 32 := by
  have offset : item.offset &&& 31 = item.offset % 32 := Nat.and_two_pow_sub_one_eq_mod _ 5
  unfold low Item.low Item.rest Item.inWord
  rw [offset]

theorem indexAdd_eq (words : Nat → Nat) (items : List Item) (w : Nat) :
    indexAdd words items w = words w + word 32 items w := by
  have shift : ∀ item : Item, item.offset >>> 5 = item.offset / 32 := fun item =>
    Nat.shiftRight_eq_div_pow _ 5
  unfold indexAdd word
  congr 1
  induction items with
  | nil => rfl
  | cons item items ih =>
    simp only [map_cons, sum_cons, shift, high_eq, low_eq, Item.part] at ih ⊢
    omega

section Stream

variable {words : Nat → Nat} {numWords w : Nat}

theorem toStream_length : (toStream words numWords).length = numWords := by
  rw [toStream, length_map, length_range]

theorem toStream_get (lt : w < numWords) (small : words w < 2 ^ 32) :
    (toStream words numWords)[w]?.map BitVec.toNat = some (words w) := by
  have mask : words w &&& 0xFFFFFFFF = words w := by
    have cut : words w &&& 0xFFFFFFFF = words w % 2 ^ 32 := Nat.and_two_pow_sub_one_eq_mod _ 32
    rw [cut, Nat.mod_eq_of_lt small]
  rw [toStream, getElem?_map, getElem?_range lt, Option.map_some, Option.map_some,
    BitVec.toNat_ofNat, mask, Nat.mod_eq_of_lt small]

theorem streamAt_toStream (lt : w < numWords) (small : words w < 2 ^ 32) :
    streamAt (toStream words numWords) w = some (words w) := by
  unfold streamAt
  rw [toStream_length, if_pos (Int.ofNat_lt.mpr lt), if_pos (Int.natCast_nonneg w),
    Int.toNat_natCast, toStream_get lt small]

theorem streamAt_negative (lt : w < numWords) (small : words w < 2 ^ 32) :
    streamAt (toStream words numWords) ((w : Int) - numWords) = some (words w) := by
  have index : ((w : Int) - numWords + numWords).toNat = w := by omega
  unfold streamAt
  rw [toStream_length, if_pos (by omega), if_neg (by omega), if_pos (by omega), index,
    toStream_get lt small]

end Stream

theorem peek_toStream {words : Nat → Nat} {numWords : Nat} (lmax : Nat) {pos : Nat}
    (lt : pos / 32 + 1 < numWords) (small : ∀ w, words w < 2 ^ 32) :
    peek (toStream words numWords) lmax pos =
      some ((words (pos / 32) * 2 ^ 32 + words (pos / 32 + 1)) /
        2 ^ (2 * 32 - pos % 32 - lmax) % 2 ^ lmax) := by
  have here : pos / 32 < numWords := by omega
  have first := streamAt_toStream here (small _)
  have second := streamAt_toStream lt (small _)
  have place : (pos : Int) / 32 = ((pos / 32 : Nat) : Int) := (Int.natCast_div _ _).symm
  have offset : ((pos : Int) % 32).toNat = pos % 32 := by omega
  have next : ((pos / 32 : Nat) : Int) + 1 = ((pos / 32 + 1 : Nat) : Int) := rfl
  unfold peek
  dsimp only
  rw [place, offset, next, first, second]
  change some _ = _
  rw [← Nat.shiftLeft_add_eq_or_of_lt (small _), Nat.shiftLeft_eq, Nat.shiftRight_eq_div_pow,
    Nat.shiftLeft_eq, one_mul, Nat.and_two_pow_sub_one_eq_mod]

/-! ### The codes of symbols -/

/-- The codes of some symbols, one behind the other. -/
def codeItems (tables : Tables) : Nat → List Nat → List Item
  | _, [] => []
  | start, sym :: syms =>
      ⟨start, tables.codeArr sym, tables.lenArr sym⟩ :: codeItems tables (start + tables.lenArr sym) syms

def bitsOf (tables : Tables) (syms : List Nat) : Nat := (syms.map tables.lenArr).sum

section Codes

variable {tables : Tables} {lmax start : Nat} {syms pre run after : List Nat}

theorem bitsOf_append : bitsOf tables (pre ++ after) = bitsOf tables pre + bitsOf tables after := by
  unfold bitsOf
  rw [map_append, sum_append]

theorem codeItems_append : codeItems tables start (pre ++ after) =
    codeItems tables start pre ++ codeItems tables (start + bitsOf tables pre) after := by
  induction pre generalizing start with
  | nil => rfl
  | cons sym pre ih =>
    rw [cons_append, codeItems, ih, codeItems, cons_append, add_assoc]
    rfl

theorem codeItems_eq : codeItems tables start syms = (List.range syms.length).map fun p =>
    (⟨start + bitsOf tables (syms.take p), tables.codeArr (syms.getD p 0),
      tables.lenArr (syms.getD p 0)⟩ : Item) := by
  induction syms generalizing start with
  | nil => rfl
  | cons sym syms ih =>
    rw [codeItems, ih, length_cons, range_succ_eq_map, map_cons, map_map]
    congr 1
    refine map_congr_left fun p _ => ?_
    have bits : bitsOf tables ((sym :: syms).take (p + 1)) =
        tables.lenArr sym + bitsOf tables (syms.take p) := rfl
    rw [Function.comp_apply, bits, add_assoc]
    rfl

theorem exclusive_succ (values : Nat → Nat) (n : Nat) :
    exclusive values (n + 1) = exclusive values n + values n := by
  unfold exclusive
  rw [range_succ, map_append, sum_append, map_singleton, sum_singleton]

theorem exclusive_eq {m k : Nat} (lt : m + k ≤ syms.length) :
    exclusive (fun q => tables.lenArr (syms.getD (m + q) 0)) k =
      bitsOf tables ((syms.drop m).take k) := by
  unfold exclusive bitsOf
  congr 1
  apply ext_getElem
  · simp only [length_map, length_range, length_take, length_drop]
    omega
  · intro q left _
    have bound : q < k := by simpa using left
    simp only [getElem_map, getElem_range, getElem_take, getElem_drop]
    rw [getD_eq_getElem?_getD, getElem?_eq_getElem (by omega), Option.getD_some]

theorem codeItems_laid (decodes : ∀ sym ∈ syms, Decodes tables lmax sym) (narrow : lmax ≤ 32) :
    Laid 32 start (codeItems tables start syms) := by
  induction syms generalizing start with
  | nil => exact .nil _
  | cons sym syms ih =>
    have here := decodes sym mem_cons_self
    let item : Item := ⟨start, tables.codeArr sym, tables.lenArr sym⟩
    exact @Laid.cons 32 item _ here.fits (here.short.trans narrow)
      (ih fun other mem => decodes other (mem_cons_of_mem _ mem))

theorem entry_split {sym length : Nat} (short : length < 256) :
    (sym <<< 8 ||| length) >>> 8 = sym ∧ (sym <<< 8 ||| length) &&& 0xFF = length := by
  have mask : (sym <<< 8 ||| length) &&& 0xFF = (sym <<< 8 ||| length) % 2 ^ 8 :=
    Nat.and_two_pow_sub_one_eq_mod _ 8
  rw [mask, ← Nat.shiftLeft_add_eq_or_of_lt short, Nat.shiftLeft_eq, Nat.shiftRight_eq_div_pow]
  omega

theorem decodeFrom_succ {stream : List (BitVec 32)} {count v sym : Nat} {pos : Nat} {later : List Nat}
    (peeked : peek stream lmax pos = some v) (short : tables.lenArr sym < 256)
    (found : tables.lut[v]? = some (sym <<< 8 ||| tables.lenArr sym))
    (rest : decodeFrom stream tables.lut lmax count (pos + tables.lenArr sym : Nat) = some later) :
    decodeFrom stream tables.lut lmax (count + 1) pos = some (sym :: later) := by
  obtain ⟨symbol, length⟩ := @entry_split sym _ short
  have next : (pos : Int) + (tables.lenArr sym : Int) = (pos + tables.lenArr sym : Nat) := rfl
  rw [decodeFrom, peeked]
  change (tables.lut[v]? >>= _) = _
  rw [found]
  change (decodeFrom _ _ _ _ _ >>= _) = _
  rw [length, next, rest]
  change some (_ :: later) = _
  rw [symbol]

theorem peek_run {numWords sym : Nat} (narrow : lmax ≤ 32)
    (decodes : ∀ other ∈ pre ++ sym :: after, Decodes tables lmax other)
    (room : (bitsOf tables (pre ++ sym :: after) + 31) / 32 + 2 ≤ numWords) :
    ∃ rest < 2 ^ (lmax - tables.lenArr sym),
      peek (toStream (word 32 (codeItems tables 0 (pre ++ sym :: after))) numWords) lmax
          (bitsOf tables pre : Nat) =
        some (tables.codeArr sym * 2 ^ (lmax - tables.lenArr sym) + rest) := by
  have here := decodes sym (mem_append_right _ mem_cons_self)
  have laid := @codeItems_laid tables lmax 0 _ decodes narrow
  let item : Item := ⟨bitsOf tables pre, tables.codeArr sym, tables.lenArr sym⟩
  have split : codeItems tables 0 (pre ++ sym :: after) = codeItems tables 0 pre ++ item ::
        codeItems tables (bitsOf tables pre + tables.lenArr sym) after := by
    rw [codeItems_append, zero_add, codeItems]
  have small : ∀ w, word 32 (codeItems tables 0 (pre ++ sym :: after)) w < 2 ^ 32 :=
    word_lt laid (by decide)
  have total : bitsOf tables (pre ++ sym :: after) =
      bitsOf tables pre + (tables.lenArr sym + bitsOf tables after) := by
    rw [bitsOf_append]
    rfl
  have positive := here.positive
  have lt : bitsOf tables pre / 32 + 1 < numWords := by omega
  rw [split] at laid
  obtain ⟨rest, restSmall, found⟩ := window_item laid (by decide) here.short (by
    have below := Nat.mod_lt item.offset (show 0 < 32 by decide)
    omega)
  rw [← split] at found
  refine ⟨rest, restSmall, ?_⟩
  rw [peek_toStream lmax lt small]
  exact congrArg some found

/-- **A run of symbols is read back.** The decoder starts at the first bit of the run; the symbols
before and after it share words with it. -/
theorem decodeFrom_run {numWords : Nat} (narrow : lmax ≤ 32)
    (decodes : ∀ sym ∈ pre ++ run ++ after, Decodes tables lmax sym)
    (room : (bitsOf tables (pre ++ run ++ after) + 31) / 32 + 2 ≤ numWords) :
    decodeFrom (toStream (word 32 (codeItems tables 0 (pre ++ run ++ after))) numWords)
      tables.lut lmax run.length (bitsOf tables pre : Nat) = some run := by
  induction run generalizing pre with
  | nil => rfl
  | cons sym run ih =>
    have here := decodes sym (by simp)
    have short := here.short
    have joined : pre ++ sym :: (run ++ after) = pre ++ sym :: run ++ after := by simp
    obtain ⟨rest, restSmall, peeked⟩ := @peek_run tables lmax pre (run ++ after) numWords sym
      narrow (by rwa [joined]) (by rwa [joined])
    rw [joined] at peeked
    have shifted : pre ++ [sym] ++ run ++ after = pre ++ sym :: run ++ after := by simp
    have later := @ih (pre ++ [sym]) (by rwa [shifted]) (by rwa [shifted])
    have one : bitsOf tables (pre ++ [sym]) = bitsOf tables pre + tables.lenArr sym := by
      rw [bitsOf_append]
      rfl
    rw [shifted, one] at later
    exact decodeFrom_succ peeked (by omega) (here.found rest restSmall) later

end Codes

theorem tables_of_matrix (weight : Bf16Matrix) {lmax : Nat} (nonempty : weight.data ≠ [])
    (wide : 8 ≤ lmax) :
    ∃ tables lengths, huffmanTables (bincount weight.exps) lmax = some tables ∧
      lengthLimitedLengths (frequencies (bincount weight.exps)) lmax = some lengths ∧
      PrefixTable (canonicalCodes lengths) tables.lut lmax weight.exps ∧
      ∀ sym ∈ weight.exps, Decodes tables lmax sym := by
  have occur : ∀ sym ∈ weight.exps, sym < 256 ∧ bincount weight.exps sym ≠ 0 := by
    intro sym mem
    refine ⟨?_, (count_pos_iff.mpr mem).ne'⟩
    obtain ⟨b, -, rfl⟩ := mem_map.mp mem
    exact exponent_lt b
  obtain ⟨sym, mem⟩ : ∃ sym, sym ∈ weight.exps :=
    exists_mem_of_ne_nil _ fun none => nonempty (map_eq_nil_iff.mp none)
  obtain ⟨tables, lengths, built, computed, isLut, isCode, decodes⟩ :=
    huffmanTables_spec wide (occur sym mem).1 (occur sym mem).2
  refine ⟨tables, lengths, built, computed, ?_, fun sym mem =>
    decodes sym (occur sym mem).1 (occur sym mem).2⟩
  rw [isLut]
  exact isCode.prefixTable occur

end FreeToken.Df11
