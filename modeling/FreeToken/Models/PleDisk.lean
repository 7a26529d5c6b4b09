/-
**The rows that the disk backend stages.**

Where the rows are read from, and when the device waits for them, is left out.
-/

import FreeToken.Models.PleRuns

namespace FreeToken

open List

def posMod (value size : BitVec 64) : BitVec 64 :=
  let rest := value.srem size
  if rest.slt 0 then rest + size else rest

/-- The constants of `PleStore`. -/
structure PleStore where
  mult : List (BitVec 64)
  sizes : List (BitVec 64)
  offsets : List (BitVec 64)
  eos : BitVec 64
  deriving DecidableEq, Repr

namespace PleStore

variable (store : PleStore)

/-- `hash_rows`, of the last of three tokens. -/
def hashRows (pre last token : BitVec 64) : List (BitVec 64) :=
  let pre := if last = store.eos then store.eos else pre
  let bigram := token * store.mult.getD 0 0 ^^^ last * store.mult.getD 1 0
  let trigram := bigram ^^^ pre * store.mult.getD 2 0
  let half := store.sizes.length / 2
  (List.range store.sizes.length).map fun head =>
    posMod (if head < half then bigram else trigram) (store.sizes.getD head 0) +
      store.offsets.getD head 0

/-- `stage`: the rows of all tokens but the two in front. -/
def stage (tokens : List (BitVec 64)) : List (List (BitVec 64)) :=
  (List.range (tokens.length - 2)).map fun i =>
    store.hashRows (tokens.getD i 0) (tokens.getD (i + 1) 0) (tokens.getD (i + 2) 0)

/-- `fill`: the rows of all runs, in order. -/
def fill (runs : List (List TokenId)) : List (List (BitVec 64)) :=
  runs.flatMap fun run => store.stage (run.map (·.signExtend 64))

/-- The store was made from the constants of the embedding, which has a size and an offset for every
head. -/
structure Matches (args : NgramArgs) : Prop where
  trigrams : args.ngramSize = 3
  mult : store.mult = args.multipliers
  sizes : store.sizes = args.headsVocabSizes
  offsets : store.offsets = args.headsOffsets
  eos : store.eos = args.boundary.signExtend 64
  sizeOfEach : args.headsVocabSizes.length = 2 * args.headsPerNgram
  offsetOfEach : args.headsOffsets.length = 2 * args.headsPerNgram
  positive : ∀ size ∈ args.headsVocabSizes, 0 < size.toInt

end PleStore

/-- `_context`: the two ids before a position. -/
def hostContext (ids : List TokenId) (position : Nat) (eos : TokenId) : Option (List TokenId) := do
  let pre ← (if position ≥ 2 then ids[position - 2]? else some eos)
  let last ← (if position ≥ 1 then ids[position - 1]? else some eos)
  return [pre, last]

structure HostReq where
  ids : List TokenId
  cachedLen : Nat
  deviceLen : Nat
  deriving DecidableEq, Repr

/-- A batch on the host; the tokens of a decode step, which are those of the padded batch, are read
back from the device. -/
structure HostBatch where
  reqs : List HostReq
  readback : List TokenId
  isDecode : Bool
  deriving DecidableEq, Repr

namespace HostBatch

variable (eos : TokenId) (batch : HostBatch)

/-- The runs of `host_fill_batch`, with and without a graph. -/
def runs : Option (List (List TokenId)) :=
  if batch.isDecode then
    (batch.reqs.zip batch.readback).mapM fun (req, token) =>
      (hostContext req.ids (req.deviceLen - 1) eos).map (· ++ [token])
  else
    batch.reqs.mapM fun req =>
      (hostContext req.ids req.cachedLen eos).map
        (· ++ (req.ids.take req.deviceLen).drop req.cachedLen)

/-- `host_fill_batch`. -/
def fill (store : PleStore) : Option (List (List (BitVec 64))) := (batch.runs eos).map store.fill

end HostBatch

/-! ### The two hashes -/

theorem posMod_eq {value size : BitVec 64} (pos : 0 < size.toInt) :
    posMod value size = NgramEmbedding.remainder value size := by
  have floor : value.toInt.fmod size.toInt =
      (value.srem size).toInt + if (value.srem size).slt 0 then size.toInt else 0 := by
    have isSlt : (value.srem size).slt 0 = decide ((value.srem size).toInt < 0) := rfl
    rw [isSlt, BitVec.toInt_srem, Int.fmod_eq_emod_of_nonneg _ pos.le, Int.tmod_eq_emod]
    have low := Int.emod_nonneg value.toInt pos.ne'
    have high := Int.emod_lt_of_pos value.toInt pos
    have isSize : (size.toInt.natAbs : Int) = size.toInt := Int.natAbs_of_nonneg pos.le
    by_cases kept : 0 ≤ value.toInt ∨ size.toInt ∣ value.toInt
    · rw [if_pos kept, Nat.cast_zero, Int.sub_zero, if_neg (by simpa using low), Int.add_zero]
    · rw [if_neg kept, isSize, if_pos (by simpa using high)]
      omega
  unfold NgramEmbedding.remainder posMod
  rw [floor]
  dsimp only
  split
  · rw [BitVec.ofInt_add, BitVec.ofInt_toInt, BitVec.ofInt_toInt]
  · rw [Int.add_zero, BitVec.ofInt_toInt]

theorem zip_slices {sizes offsets : List (BitVec 64)} {start count : Nat}
    (sizeOfEach : start + count ≤ sizes.length) (offsetOfEach : start + count ≤ offsets.length)
    (row : BitVec 64 → BitVec 64 → BitVec 64) :
    (((sizes.drop start).take count).zip ((offsets.drop start).take count)).map
        (fun (size, offset) => row size offset) =
      (List.range count).map fun i => row (sizes.getD (start + i) 0) (offsets.getD (start + i) 0) := by
  refine ext_getElem ?_ fun i _ there => ?_
  · simp only [length_map, length_zip, length_take, length_drop, length_range]
    omega
  · rw [length_map, length_range] at there
    rw [getElem_map, getElem_zip, getElem_map, getElem_range]
    simp only [getElem_take, getElem_drop]
    rw [getD_eq_getElem _ _ (by omega), getD_eq_getElem _ _ (by omega)]

section Hash

variable {store : PleStore} {args : NgramArgs} (same : store.Matches args)

include same

theorem headIds_trigrams (tokens : Nat → TokenId) :
    NgramEmbedding.headIds args tokens = (List.range store.sizes.length).map fun head =>
      posMod (if head < store.sizes.length / 2 then NgramEmbedding.mixed args tokens 2
        else NgramEmbedding.mixed args tokens 3) (store.sizes.getD head 0) +
          store.offsets.getD head 0 := by
  have pos : ∀ head, head < 2 * args.headsPerNgram →
      0 < (args.headsVocabSizes.getD head 0).toInt := by
    intro head lt
    rw [← same.sizeOfEach] at lt
    rw [getD_eq_getElem _ _ lt]
    exact same.positive _ (getElem_mem lt)
  have sizeOfEach := same.sizeOfEach
  have offsetOfEach := same.offsetOfEach
  have orders : range' 2 (args.ngramSize - 1) = [2, 3] := by
    rw [same.trigrams]
    rfl
  have half : 2 * args.headsPerNgram / 2 = args.headsPerNgram := by omega
  unfold NgramEmbedding.headIds
  rw [orders, flatMap_cons, flatMap_cons, flatMap_nil, append_nil, same.sizes,
    same.offsets, sizeOfEach, half]
  rw [zip_slices (by omega) (by omega) fun size offset =>
      NgramEmbedding.remainder (NgramEmbedding.mixed args tokens 2) size + offset,
    zip_slices (by omega) (by omega) fun size offset =>
      NgramEmbedding.remainder (NgramEmbedding.mixed args tokens 3) size + offset,
    Nat.two_mul, range_add, map_append, map_map]
  congr 1
  · refine map_congr_left fun head mem => ?_
    have lt := mem_range.mp mem
    rw [if_pos lt, Nat.sub_self, Nat.zero_mul, Nat.zero_add, posMod_eq (pos _ (by omega))]
  · refine map_congr_left fun head mem => ?_
    have lt := mem_range.mp mem
    have start : (3 - 2) * args.headsPerNgram = args.headsPerNgram := Nat.one_mul _
    rw [start, Function.comp_apply, if_neg (by omega), posMod_eq (pos _ (by omega))]

omit same in
theorem shifted_two (row : Nat → TokenId) (col : Nat) :
    NgramEmbedding.shifted args row 1 (col + 2) = row (col + 1) ∧
      NgramEmbedding.shifted args row 2 (col + 2) =
        if row (col + 1) = args.boundary then args.boundary else row col := by
  by_cases isBoundary : row (col + 1) = args.boundary
  · rw [if_pos isBoundary, isBoundary]
    exact ⟨NgramEmbedding.shifted_crossed (by omega) le_rfl le_rfl isBoundary,
      NgramEmbedding.shifted_crossed (by omega) le_rfl (by omega) isBoundary⟩
  · rw [if_neg isBoundary]
    refine ⟨NgramEmbedding.shifted_clear (by omega) fun left some_ pre => ?_, ?_⟩
    · obtain rfl : left = 1 := by omega
      exact isBoundary
    · by_cases isFirst : row col = args.boundary
      · rw [isFirst]
        exact NgramEmbedding.shifted_crossed (by omega) (by omega) le_rfl isFirst
      · refine NgramEmbedding.shifted_clear (by omega) fun left some_ pre => ?_
        obtain rfl | rfl : left = 1 ∨ left = 2 := by omega
        · exact isBoundary
        · exact isFirst

/-- The store's hash of three tokens is the embedding's. -/
theorem hashRows_eq (row : Nat → TokenId) (col : Nat) :
    store.hashRows ((row col).signExtend 64) ((row (col + 1)).signExtend 64)
      ((row (col + 2)).signExtend 64) =
      NgramEmbedding.headIds args fun shift => NgramEmbedding.shifted args row shift (col + 2) := by
  obtain ⟨one, two⟩ := @shifted_two args row col
  have pre : (if (row (col + 1)).signExtend 64 = store.eos then store.eos
      else (row col).signExtend 64) =
      (NgramEmbedding.shifted args row 2 (col + 2)).signExtend 64 := by
    rw [two, same.eos]
    by_cases isBoundary : row (col + 1) = args.boundary
    · rw [if_pos isBoundary, if_pos (by rw [isBoundary])]
    · rw [if_neg isBoundary, if_neg]
      intro equal
      have ints := congrArg BitVec.toInt equal
      rw [BitVec.toInt_signExtend_of_le (by omega), BitVec.toInt_signExtend_of_le (by omega)] at ints
      exact isBoundary (BitVec.eq_of_toInt_eq ints)
  have bigram : NgramEmbedding.mixed args
      (fun shift => NgramEmbedding.shifted args row shift (col + 2)) 2 =
      (row (col + 2)).signExtend 64 * args.multipliers.getD 0 0 ^^^
        (row (col + 1)).signExtend 64 * args.multipliers.getD 1 0 := by
    rw [← one]
    rfl
  have trigram : NgramEmbedding.mixed args
      (fun shift => NgramEmbedding.shifted args row shift (col + 2)) 3 =
      ((row (col + 2)).signExtend 64 * args.multipliers.getD 0 0 ^^^
        (row (col + 1)).signExtend 64 * args.multipliers.getD 1 0) ^^^
        (NgramEmbedding.shifted args row 2 (col + 2)).signExtend 64 *
          args.multipliers.getD 2 0 := by
    rw [← one]
    rfl
  rw [headIds_trigrams same, bigram, trigram]
  unfold PleStore.hashRows
  rw [pre, same.mult]

omit same in
theorem run_getElem {stream tokens : List TokenId} {i : Nat}
    (lt : i < (contextOf args stream ++ tokens).length) :
    (contextOf args stream ++ tokens)[i] = padded args (stream ++ tokens) (stream.length + i) := by
  by_cases isContext : i < args.ctxLen
  · rw [getElem_append_left (by rwa [contextOf_length]), contextOf_getElem,
      padded_append (by omega)]
  · obtain ⟨place, rfl⟩ := Nat.exists_eq_add_of_le (not_lt.mp isContext)
    have there : stream.length + (args.ctxLen + place) =
        args.ctxLen + (stream.length + place) := by omega
    have within := lt
    rw [length_append, contextOf_length] at within
    rw [there, padded_new, getD_eq_getElem _ _ (by omega),
      getElem_append_right (by rw [contextOf_length]; omega)]
    congr 1
    rw [contextOf_length]
    omega

/-- The rows of one run are those of its tokens in their stream. -/
theorem stage_eq (stream tokens : List TokenId) :
    store.stage ((contextOf args stream ++ tokens).map (·.signExtend 64)) =
      (List.range tokens.length).map fun place =>
        tokenRows args (stream ++ tokens) (stream.length + place) := by
  have two : args.ctxLen = 2 := by
    unfold NgramArgs.ctxLen
    rw [same.trigrams]
  have long : ((contextOf args stream ++ tokens).map (·.signExtend 64)).length =
      tokens.length + 2 := by
    rw [length_map, length_append, contextOf_length, two, Nat.add_comm]
  have token : ∀ i, i < tokens.length + 2 →
      ((contextOf args stream ++ tokens).map (·.signExtend 64)).getD i 0 =
        (padded args (stream ++ tokens) (stream.length + i)).signExtend 64 := by
    intro i lt
    rw [getD_eq_getElem _ _ (by omega), getElem_map, run_getElem]
  unfold PleStore.stage
  rw [long, Nat.add_sub_cancel]
  refine map_congr_left fun place mem => ?_
  have lt := mem_range.mp mem
  rw [token place (by omega), token (place + 1) (by omega), token (place + 2) (by omega)]
  refine (hashRows_eq same (padded args (stream ++ tokens)) (stream.length + place)).trans ?_
  unfold tokenRows
  rw [two, Nat.add_comm 2]

end Hash

end FreeToken
