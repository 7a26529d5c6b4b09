/-
**One forward of the short convolution.**
-/

import FreeToken.Lib.Traverse
import FreeToken.Models.PleConvPacked

set_option linter.unusedSectionVars false

namespace FreeToken

open List

/-- A batch: a request or more, of a token or more each, in distinct slots. -/
structure ConvStep.WellFormed {Channel R : Type} (step : ConvStep Channel R) (numSlots : Nat) :
    Prop where
  served : step.info.stateSlots ≠ []
  distinct : step.info.stateSlots.Nodup
  inSlab : ∀ slot ∈ step.info.stateSlots, slot < numSlots
  oneLen : step.info.seqLens.length = step.info.stateSlots.length
  flags : ∀ fresh, step.info.freshSlots = some fresh → fresh.length = step.info.stateSlots.length
  positive : ∀ n ∈ step.info.seqLens, 1 ≤ n
  packed : step.x.length = step.info.seqLens.sum
  decode : step.info.isDecode = true → ∀ n ∈ step.info.seqLens, n = 1

def ConvMetadata.freshAt (info : ConvMetadata) (i : Nat) : Bool :=
  (info.freshSlots.getD []).getD i false

namespace ShortConv

variable {Channel R : Type} [CommSemiring R] {conv : ShortConv Channel R}

def stateOf (states : List (List (Channel → R))) (slot : Nat) (fresh : Bool) : List (Channel → R) :=
  if fresh then (states.getD slot []).map fun _ => 0 else states.getD slot []

/-- The outputs of a request over `[state | chunk]`. -/
def outputs (conv : ShortConv Channel R) (history : List (Channel → R)) (count : Nat) :
    List (Channel → R) :=
  (List.range count).map (conv.outputAt history)

variable {info : ConvMetadata} {states : List (List (Channel → R))} {x : List (Channel → R)}
  (shaped : ∀ cols ∈ states, cols.length = conv.stateLen)
  (inSlab : ∀ slot ∈ info.stateSlots, slot < states.length)
  (oneLen : info.seqLens.length = info.stateSlots.length) (packed : x.length = info.seqLens.sum)

section Step

def statesRead (info : ConvMetadata) (states : List (List (Channel → R))) :
    List (List (Channel → R)) :=
  (List.range info.stateSlots.length).map fun i =>
    stateOf states (info.stateSlots.getD i 0) (info.freshAt i)

def nextStates (info : ConvMetadata) (states : List (List (Channel → R))) (x : List (Channel → R)) :
    List (List (Channel → R)) :=
  (List.range info.seqLens.length).map fun i =>
    (block info.seqLens (statesRead info states) x i).drop (info.seqLens.getD i 0)

def Forward (conv : ShortConv Channel R) (info : ConvMetadata) (x : List (Channel → R))
    (states : List (List (Channel → R))) : List (Channel → R) × List (List (Channel → R)) :=
  (conv.activate ((List.range info.seqLens.length).flatMap fun i =>
      conv.outputs (block info.seqLens (statesRead info states) x i) (info.seqLens.getD i 0)),
    storeRows states (info.stateSlots.zip (nextStates info states x)))

theorem stateOf_length (shaped : ∀ cols ∈ states, cols.length = conv.stateLen) {slot : Nat}
    (inSlab : slot < states.length) (fresh : Bool) :
    (stateOf states slot fresh).length = conv.stateLen := by
  have held : (states.getD slot []).length = conv.stateLen := by
    rw [getD_eq_getElem?_getD, getElem?_eq_getElem inSlab, Option.getD_some]
    exact shaped _ (getElem_mem inSlab)
  unfold stateOf
  split
  · rw [length_map, held]
  · exact held

/-! ### The states read and stored -/

theorem statesRead_length : (statesRead info states).length = info.stateSlots.length :=
  (length_map _).trans length_range

theorem statesRead_getElem {i : Nat} (isReq : i < info.stateSlots.length) :
    (statesRead info states).getD i [] = stateOf states info.stateSlots[i] (info.freshAt i) := by
  unfold statesRead
  rw [getD_eq_getElem?_getD, getElem?_map, getElem?_range isReq, Option.map_some,
    Option.getD_some, getD_eq_getElem?_getD, getElem?_eq_getElem isReq, Option.getD_some]

theorem statesRead_get {i : Nat} (isReq : i < info.stateSlots.length)
    (lt : i < (statesRead info states).length) :
    (statesRead info states)[i] = stateOf states info.stateSlots[i] (info.freshAt i) := by
  rw [← statesRead_getElem isReq, getD_eq_getElem?_getD, getElem?_eq_getElem lt, Option.getD_some]

theorem readState_eq (inSlab : ∀ slot ∈ info.stateSlots, slot < states.length)
    (flags : ∀ fresh, info.freshSlots = some fresh → fresh.length = info.stateSlots.length) :
    readState info states = some (statesRead info states) := by
  have selected : indexSelect states info.stateSlots =
      some (info.stateSlots.map fun slot => states.getD slot []) := by
    apply indexSelect_eq (length_map _)
    intro k slot isSlot
    have lt := inSlab slot (mem_of_getElem? isSlot)
    rw [getElem?_map, isSlot, Option.map_some, getD_eq_getElem?_getD,
      getElem?_eq_getElem lt, Option.getD_some]
  unfold readState
  rw [selected, Option.bind_eq_bind, Option.bind_some]
  cases isFresh : info.freshSlots with
  | none =>
    dsimp only
    congr 1
    apply ext_get (by rw [length_map, statesRead_length])
    intro i lt insideRead
    rw [length_map] at lt
    rw [get_eq_getElem, get_eq_getElem, getElem_map, statesRead_get lt insideRead]
    unfold stateOf ConvMetadata.freshAt
    rw [isFresh]
    rfl
  | some fresh =>
    have oneFlag := flags fresh isFresh
    dsimp only
    rw [if_pos (by rw [length_map, oneFlag])]
    congr 1
    have size : ∀ spread : Bool → List (Channel → R) → List (Channel → R),
        (zipWith spread fresh (info.stateSlots.map fun slot => states.getD slot [])).length =
          info.stateSlots.length := by
      intro spread
      rw [length_zipWith, length_map, oneFlag, min_self]
    apply ext_get (by rw [size, statesRead_length])
    intro i lt insideRead
    rw [size] at lt
    have insideFlags : i < fresh.length := oneFlag ▸ lt
    have flag : info.freshAt i = fresh[i] := by
      unfold ConvMetadata.freshAt
      rw [isFresh, Option.getD_some, getD_eq_getElem?_getD,
        getElem?_eq_getElem insideFlags, Option.getD_some]
    rw [get_eq_getElem, get_eq_getElem, getElem_zipWith, getElem_map,
      statesRead_get lt insideRead, flag]
    rfl

theorem statesRead_even (shaped : ∀ cols ∈ states, cols.length = conv.stateLen)
    (inSlab : ∀ slot ∈ info.stateSlots, slot < states.length) :
    ∀ cols ∈ statesRead info states, cols.length = conv.stateLen := by
  intro cols mem
  obtain ⟨i, isReq, rfl⟩ := mem_map.mp mem
  rw [mem_range] at isReq
  apply stateOf_length shaped
  rw [getD_eq_getElem?_getD, getElem?_eq_getElem isReq, Option.getD_some]
  exact inSlab _ (getElem_mem isReq)

include shaped inSlab oneLen packed

theorem block_size {i : Nat} (isReq : i < info.seqLens.length) :
    (block info.seqLens (statesRead info states) x i).length = conv.stateLen + info.seqLens[i] :=
  block_length (statesRead_even shaped inSlab) (statesRead_length.trans oneLen.symm) packed isReq

theorem storeStates_eq : conv.storeStates states info.stateSlots (nextStates info states x) =
      some (storeRows states (info.stateSlots.zip (nextStates info states x))) := by
  unfold storeStates
  rw [if_pos]
  · apply indexCopy_eq _ inSlab
    rw [← oneLen]
    exact ((length_map _).trans length_range).symm
  · intro cols mem
    obtain ⟨i, isReq, rfl⟩ := mem_map.mp mem
    rw [mem_range] at isReq
    rw [length_drop, block_size shaped inSlab oneLen packed isReq, getD_eq isReq,
      Nat.add_sub_cancel]

end Step

/-! ### The packed convolution -/

theorem outputAt_block {history block : List (Channel → R)} {start t : Nat}
    (same : ∀ place ≤ t + conv.stateLen, history[start + place]? = block[place]?) :
    conv.outputAt history (start + t) = conv.outputAt block t := by
  funext channel
  apply Finset.sum_congr rfl
  intro k isTap
  have reach : k * conv.dilation ≤ conv.stateLen :=
    Nat.mul_le_mul_right _ (Nat.le_sub_one_of_lt (Finset.mem_range.mp isTap))
  simp only [getD_eq_getElem?_getD]
  rw [Nat.add_assoc, same (t + k * conv.dilation) (Nat.add_le_add_left reach t)]

theorem splitStates_flatMap {count : Nat} {parts : Nat → List (Channel → R)}
    (even : ∀ i < count, (parts i).length = conv.stateLen) :
    conv.splitStates ((List.range count).flatMap parts) count = (List.range count).map parts := by
  have evenAll : ∀ cols ∈ (range count).map parts, cols.length = conv.stateLen := by
    intro cols mem
    obtain ⟨i, isPart, rfl⟩ := mem_map.mp mem
    exact even i (mem_range.mp isPart)
  apply map_congr_left
  intro i mem
  have isPart := mem_range.mp mem
  have isItem : i < ((range count).map parts).length := by rwa [length_map, length_range]
  apply ext_getElem?
  intro place
  rcases lt_or_ge place conv.stateLen with lt | outside
  · rw [getElem?_take_of_lt lt, getElem?_drop, flatMap_def,
      flatten_getElem? evenAll isItem lt, getD_eq_getElem?_getD, getElem?_map,
      getElem?_range isPart]
    rfl
  · rw [getElem?_eq_none ((length_take_le _ _).trans outside),
      getElem?_eq_none (by rwa [even i isPart])]

theorem outputs_sizes (lens : List Nat) (history : Nat → List (Channel → R)) :
    (List.range lens.length).map (fun i => (conv.outputs (history i) (lens.getD i 0)).length) =
      lens := by
  unfold outputs
  simp only [length_map, length_range]
  exact map_getD_range _

section Prefill

include shaped inSlab oneLen packed

theorem picked_eq {history : List (Channel → R)}
    (isHistory : history = (List.range info.seqLens.length).flatMap
      (block info.seqLens (statesRead info states) x)) :
    indexSelect ((List.range (history.length - conv.stateLen)).map (conv.outputAt history))
        (outIndex conv.stateLen info.seqLens) =
      some ((List.range info.seqLens.length).flatMap fun i =>
        conv.outputs (block info.seqLens (statesRead info states) x i)
          (info.seqLens.getD i 0)) := by
  have even := statesRead_even shaped inSlab
  have oneState := (@statesRead_length _ _ _ info states).trans oneLen.symm
  have size : history.length = info.seqLens.sum + info.seqLens.length * conv.stateLen := by
    rw [isHistory]
    exact blocks_length even oneState packed
  have lens := @outputs_sizes _ _ _ conv info.seqLens
    (block info.seqLens (statesRead info states) x)
  apply indexSelect_eq
  · rw [outIndex_length, length_flatMap, lens]
  · intro k col isCol
    obtain ⟨part, isPart, place, lt, rfl, rfl⟩ := outIndex_cases isCol
    have reach : base conv.stateLen info.seqLens part + (conv.stateLen + place) < history.length :=
      size ▸ base_lt isPart (by omega)
    have isItem : part < (range info.seqLens.length).length := by rwa [length_range]
    have located := @flatMap_getElem? _ _ (range info.seqLens.length) (fun i => conv.outputs
      (block info.seqLens (statesRead info states) x i) (info.seqLens.getD i 0)) part place isItem
      (by
        unfold outputs
        rwa [length_map, length_range, getElem_range, getD_eq isPart])
    rw [lens, getElem_range] at located
    rw [located, getElem?_map, getElem?_range (by omega), getD_eq isPart]
    unfold outputs
    rw [getElem?_map, getElem?_range lt, Option.map_some, Option.map_some]
    congr 1
    apply outputAt_block
    intro there within
    rw [isHistory]
    exact blocks_getElem? even oneState packed isPart (by omega)

theorem nextSelected_eq {history : List (Channel → R)}
    (isHistory : history = (List.range info.seqLens.length).flatMap
      (block info.seqLens (statesRead info states) x)) :
    (indexSelect history (nextStateIndex conv.stateLen info.seqLens)).map
        (conv.splitStates · info.seqLens.length) = some (nextStates info states x) := by
  have even := statesRead_even shaped inSlab
  have oneState := (@statesRead_length _ _ _ info states).trans oneLen.symm
  have tails : ∀ i < info.seqLens.length,
      ((block info.seqLens (statesRead info states) x i).drop (info.seqLens.getD i 0)).length =
        conv.stateLen := by
    intro i isReq
    rw [length_drop, block_size shaped inSlab oneLen packed isReq, getD_eq isReq,
      Nat.add_sub_cancel]
  have evenTails : ∀ cols ∈ nextStates info states x, cols.length = conv.stateLen := by
    intro cols mem
    obtain ⟨i, isReq, rfl⟩ := mem_map.mp mem
    exact tails i (mem_range.mp isReq)
  have count : (nextStates info states x).length = info.seqLens.length :=
    (length_map _).trans length_range
  have selected : indexSelect history (nextStateIndex conv.stateLen info.seqLens) =
      some (nextStates info states x).flatten := by
    apply indexSelect_eq
    · rw [nextStateIndex_length, length_flatten, map_congr_left evenTails,
        map_const', sum_replicate_nat, count]
    · intro k col isCol
      obtain ⟨within, -⟩ := List.getElem?_eq_some_iff.mp isCol
      rw [nextStateIndex_length] at within
      obtain ⟨part, place, isPart, lt, rfl, -⟩ := stateIndex_cases
        (getElem?_eq_getElem (by rwa [stateIndex_length]))
      rw [nextStateIndex_getElem? isPart lt] at isCol
      have isItem : part < (nextStates info states x).length := by rwa [count]
      have held := flatten_getElem? evenTails isItem lt
      have atPart : (nextStates info states x).getD part [] =
          (block info.seqLens (statesRead info states) x part).drop (info.seqLens.getD part 0) := by
        unfold nextStates
        rw [getD_eq_getElem?_getD, getElem?_map, getElem?_range isPart]
        rfl
      rw [atPart, getElem?_drop, getD_eq isPart] at held
      have here := @blocks_getElem? conv.stateLen _ _ _ x even oneState packed part
        (info.seqLens[part] + place) isPart (by omega)
      rw [← Option.some.inj isCol, isHistory, Nat.add_assoc, here]
      exact held.symm
  have split := splitStates_flatMap tails
  rw [flatMap_def] at split
  rw [selected, Option.map_some]
  exact congrArg some split

theorem prefillConv_forward (served : info.stateSlots ≠ [])
    (flags : ∀ fresh, info.freshSlots = some fresh → fresh.length = info.stateSlots.length)
    (pos : ∀ n ∈ info.seqLens, 1 ≤ n) (blank : Nat → Channel → R) :
    conv.prefillConv x info states blank = some (conv.Forward info x states) := by
  have even := statesRead_even shaped inSlab
  have oneState := (@statesRead_length _ _ _ info states).trans oneLen.symm
  obtain ⟨history, isHistory⟩ : ∃ history, history = (range info.seqLens.length).flatMap
    (block info.seqLens (statesRead info states) x) := ⟨_, rfl⟩
  have size : history.length = info.seqLens.sum + info.seqLens.length * conv.stateLen := by
    rw [isHistory]
    exact blocks_length even oneState packed
  -- a request holds a token, so that the history is as long as the kernel reaches
  have reaches : conv.stateLen + 1 ≤ history.length := by
    have some : 0 < info.seqLens.length := by
      rw [oneLen]
      exact length_pos_iff.mpr served
    have one := pos _ (getElem_mem some)
    have first := sum_take_succ some
    have whole := @sum_take_mono info.seqLens (0 + 1) _ some
    rw [take_length] at whole
    have room := Nat.le_mul_of_pos_left conv.stateLen some
    omega
  have packedUp := packed_history even oneState packed
    (show ((range (x.length + info.seqLens.length * conv.stateLen)).map blank).length = _ by
      rw [length_map, length_range, packed])
  have next := nextSelected_eq shaped inSlab oneLen packed isHistory
  rw [Option.map_eq_some_iff] at next
  obtain ⟨newState, selected, split⟩ := next
  unfold prefillConv
  rw [Option.bind_eq_some_iff] at packedUp
  obtain ⟨withStates, statesIn, rowsIn⟩ := packedUp
  rw [← isHistory] at rowsIn
  have convolved : conv.conv1d history = some _ := if_pos reaches
  simp only [Option.bind_eq_bind, readState_eq inSlab flags, Option.bind_some, statesIn, rowsIn,
    convolved, selected, split, storeStates_eq shaped inSlab oneLen packed,
    picked_eq shaped inSlab oneLen packed isHistory]
  rfl

end Prefill

/-! ### The tap read -/

theorem everyTap_getElem? {state : List (Channel → R)} (size : state.length = conv.stateLen)
    (dilated : 0 < conv.dilation) :
    (conv.everyTap state).length = conv.kernel - 1 ∧
      ∀ k < conv.kernel - 1, (conv.everyTap state)[k]? = some (state.getD (k * conv.dilation) 0) := by
  have count : (state.length + conv.dilation - 1) / conv.dilation = conv.kernel - 1 := by
    rw [size]
    unfold stateLen
    rw [Nat.add_sub_assoc dilated, Nat.add_comm, Nat.add_mul_div_right _ _ dilated,
      Nat.div_eq_of_lt (Nat.sub_lt dilated Nat.one_pos), Nat.zero_add]
  unfold everyTap
  rw [count]
  refine ⟨(length_map _).trans length_range, fun k isTap => ?_⟩
  rw [getElem?_map, getElem?_range isTap]
  rfl

theorem tapRead_eq {state : List (Channel → R)} (size : state.length = conv.stateLen)
    (dilated : 0 < conv.dilation) (someTap : 1 ≤ conv.kernel) (col : Channel → R) :
    conv.tapRead state col = some (conv.outputAt (state ++ [col]) 0) := by
  obtain ⟨count, taps⟩ := everyTap_getElem? size dilated
  unfold tapRead
  rw [if_pos (by rw [length_append, count, length_singleton]; omega)]
  congr 1
  funext channel
  apply Finset.sum_congr rfl
  intro k isTap
  rw [Finset.mem_range] at isTap
  rw [mul_comm, Nat.zero_add]
  congr 1
  simp only [getD_eq_getElem?_getD]
  rcases Nat.lt_or_ge k (conv.kernel - 1) with isOld | isLast
  · have reach : k * conv.dilation < state.length := by
      rw [size]
      exact Nat.mul_lt_mul_of_pos_right isOld dilated
    rw [getElem?_append_left (by rwa [count]), taps k isOld,
      getElem?_append_left reach, getD_eq_getElem?_getD]
    rfl
  · have isK : k = conv.kernel - 1 := by omega
    have reach : k * conv.dilation = state.length := by
      rw [size, isK]
      rfl
    rw [getElem?_append_right (by rwa [count]), count, isK, Nat.sub_self, ← isK, reach,
      getElem?_append_right le_rfl, Nat.sub_self]

section Decode

variable (single : ∀ n ∈ info.seqLens, n = 1)

include oneLen packed single

omit oneLen in
theorem rows_eq : x.length = info.seqLens.length := by
  rw [packed, eq_replicate_of_mem single, sum_replicate_nat, length_replicate, mul_one]

omit oneLen in
theorem chunk_single {i : Nat} (isReq : i < info.seqLens.length) :
    chunk info.seqLens x i = [x.getD i 0] := by
  have count : x.length = info.seqLens.length := rows_eq packed single
  have pre : (info.seqLens.take i).sum = i := by
    rw [eq_replicate_of_mem single, take_replicate, sum_replicate_nat, mul_one]
    exact min_eq_left isReq.le
  unfold chunk
  rw [pre, getD_eq isReq, single _ (getElem_mem isReq), getD_eq_getElem?_getD,
    getElem?_eq_getElem (count ▸ isReq), drop_eq_getElem_cons (count ▸ isReq)]
  rfl

include shaped inSlab

theorem decodeConv_forward (dilated : 0 < conv.dilation) (twoTaps : 2 ≤ conv.kernel)
    (flags : ∀ fresh, info.freshSlots = some fresh → fresh.length = info.stateSlots.length) :
    conv.decodeConv x info states = some (conv.Forward info x states) := by
  have even := statesRead_even shaped inSlab
  have oneState := (@statesRead_length _ _ _ info states).trans oneLen.symm
  have count : x.length = info.seqLens.length := rows_eq packed single
  have oneRow : (statesRead info states).length = x.length := oneState.trans count.symm
  have blocks : (range info.seqLens.length).map (block info.seqLens (statesRead info states) x) =
      ((statesRead info states).zip x).map fun pair => pair.1 ++ [pair.2] := by
    apply ext_getElem
    · rw [length_map, length_range, length_map, length_zip, oneRow, count, Nat.min_self]
    · intro i isReq _
      rw [length_map, length_range] at isReq
      have isState : i < (statesRead info states).length := oneState.symm ▸ isReq
      have isRow : i < x.length := count.symm ▸ isReq
      rw [getElem_map, getElem_range, getElem_map, getElem_zip]
      unfold block
      rw [chunk_single packed single isReq, getD_eq_getElem?_getD, getD_eq_getElem?_getD,
        getElem?_eq_getElem isState, getElem?_eq_getElem isRow]
      rfl
  have read : ((statesRead info states).zip x).mapM (fun pair => conv.tapRead pair.1 pair.2) =
      some ((range info.seqLens.length).map fun i =>
        conv.outputAt (block info.seqLens (statesRead info states) x i) 0) := by
    have each : ∀ pair ∈ (statesRead info states).zip x, conv.tapRead pair.1 pair.2 =
        some (conv.outputAt (pair.1 ++ [pair.2]) 0) := by
      intro pair mem
      exact tapRead_eq (even _ (of_mem_zip mem).1) dilated (by omega) _
    have outs := congrArg (map (conv.outputAt · 0)) blocks
    rw [map_map, map_map] at outs
    rw [mapM_some each]
    exact congrArg some outs.symm
  have next : zipWith (fun cols col => cols.drop 1 ++ [col])
      (statesRead info states) x = nextStates info states x := by
    have tails := congrArg (map (drop 1)) blocks
    rw [map_map, map_map] at tails
    rw [← map_uncurry_zip_eq_zipWith]
    refine Eq.trans (map_congr_left fun pair mem => ?_) (tails.symm.trans ?_)
    · -- the state holds a column, which is the one that goes
      have size := even _ (of_mem_zip mem).1
      have some : 1 ≤ conv.stateLen := Nat.mul_pos (by omega) dilated
      exact (drop_append_of_le_length (by omega)).symm
    · apply map_congr_left
      intro i isReq
      rw [mem_range] at isReq
      rw [getD_eq isReq, single _ (getElem_mem isReq)]
      rfl
  unfold decodeConv
  rw [readState_eq inSlab flags, Option.bind_eq_bind, Option.bind_some, if_pos oneRow, read, next,
    Option.bind_eq_bind, Option.bind_some, storeStates_eq shaped inSlab oneLen packed,
    Option.bind_some]
  rw [map_eq_flatMap]
  congr 3
  apply flatMap_congr
  intro i isReq
  rw [mem_range] at isReq
  rw [getD_eq isReq, single _ (getElem_mem isReq)]
  rfl

end Decode

end ShortConv

end FreeToken
