/-
**The packed history of a prefill.**

* `ShortConv.outputAt_block`: an output reads no column but those of its request.
-/

import FreeToken.Models.PleConv

namespace FreeToken.ShortConv

open List

variable {stateLen : Nat} {lens : List Nat}

/-! ### Where the requests lie -/

def widths (stateLen : Nat) (lens : List Nat) : List Nat := lens.map (stateLen + ·)

theorem widths_sum (part : Nat) (within : part ≤ lens.length) :
    ((widths stateLen lens).take part).sum = base stateLen lens part := by
  unfold base widths
  rw [cumsum_getD within]
  induction part with
  | zero => rw [take_zero, take_zero, sum_nil, Nat.zero_mul, add_zero]
  | succ part ih =>
    have lt : part < lens.length := within
    have insideMap : part < (lens.map (stateLen + ·)).length := by rwa [length_map]
    rw [sum_take_succ lt, sum_take_succ insideMap, ih lt.le, getElem_map, Nat.succ_mul]
    omega

theorem widths_total : (widths stateLen lens).sum = lens.sum + lens.length * stateLen := by
  have whole := @widths_sum stateLen lens lens.length le_rfl
  unfold base at whole
  rw [cumsum_getD le_rfl, take_length, take_of_length_le] at whole
  · exact whole
  · exact (length_map _).le

theorem base_unique {part other place there : Nat} (isPart : part < lens.length)
    (isOther : other < lens.length) (lt : place < stateLen + lens[part])
    (within : there < stateLen + lens[other])
    (same : base stateLen lens part + place = base stateLen lens other + there) :
    part = other ∧ place = there := by
  have partMap : part < (widths stateLen lens).length := by
    rwa [show (widths stateLen lens).length = lens.length from length_map _]
  have otherMap : other < (widths stateLen lens).length := by
    rwa [show (widths stateLen lens).length = lens.length from length_map _]
  apply @split_unique (widths stateLen lens) part other place there partMap otherMap
  · rwa [show (widths stateLen lens)[part] = stateLen + lens[part] from getElem_map _]
  · rwa [show (widths stateLen lens)[other] = stateLen + lens[other] from getElem_map _]
  · rw [widths_sum part isPart.le, widths_sum other isOther.le]
    exact same

theorem base_lt {part place : Nat} (isPart : part < lens.length)
    (lt : place < stateLen + lens[part]) :
    base stateLen lens part + place < lens.sum + lens.length * stateLen := by
  have partMap : part < (widths stateLen lens).length := by
    rwa [show (widths stateLen lens).length = lens.length from length_map _]
  have next := sum_take_succ partMap
  rw [show (widths stateLen lens)[part] = stateLen + lens[part] from getElem_map _,
    widths_sum part isPart.le] at next
  have mono := @sum_take_mono (widths stateLen lens) (part + 1) _ partMap
  rw [take_length, widths_total] at mono
  omega

/-! ### The index vectors -/

section Index

variable {part place : Nat}

theorem even_sum (count size : Nat) (part : Nat) (within : part ≤ count) :
    (((List.range count).map fun _ => size).take part).sum = part * size := by
  rw [map_const', take_replicate, length_range, sum_replicate_nat, min_eq_left within]

theorem stateIndex_getElem? (isPart : part < lens.length) (lt : place < stateLen) :
    (stateIndex stateLen lens)[part * stateLen + place]? = some (base stateLen lens part + place) := by
  have isItem : part < (range lens.length).length := by rwa [length_range]
  have size : ∀ i, ((range stateLen).map (base stateLen lens i + ·)).length = stateLen :=
    fun i => by rw [length_map, length_range]
  have located := @flatMap_getElem? _ _ (range lens.length)
    (fun i => (range stateLen).map (base stateLen lens i + ·)) part place isItem
    (by rwa [size])
  rw [funext size, even_sum _ _ _ isPart.le, getElem_range, getElem?_map,
    getElem?_range lt] at located
  exact located

theorem stateIndex_length : (stateIndex stateLen lens).length = lens.length * stateLen := by
  unfold stateIndex
  rw [length_flatMap]
  simp only [length_map, length_range]
  rw [map_const', length_range, sum_replicate_nat]

theorem zipIdx_sizes (lens : List Nat) : (lens.zipIdx.map fun part => part.1) = lens := by
  rw [zipIdx_map_fst]

theorem outIndex_getElem? (isPart : part < lens.length) (lt : place < lens[part]) :
    (outIndex stateLen lens)[(lens.take part).sum + place]? =
      some (base stateLen lens part + place) := by
  have isItem : part < lens.zipIdx.length := by rwa [length_zipIdx]
  have atPart : lens.zipIdx[part] = (lens[part], part) := by rw [getElem_zipIdx, zero_add]
  have size : ∀ item : Nat × Nat, (replicate item.1 (item.2 * stateLen)).length = item.1 :=
    fun item => length_replicate
  have located := @flatMap_getElem? _ _ lens.zipIdx
    (fun item => replicate item.1 (item.2 * stateLen)) part place isItem
    (by rwa [size, atPart])
  rw [funext size, zipIdx_sizes, atPart, getElem?_replicate_of_lt lt] at located
  have next := sum_take_succ isPart
  have bound := @sum_take_mono lens (part + 1) _ isPart
  rw [take_length] at bound
  unfold outIndex
  rw [cumsum_getD le_rfl, take_length, getElem?_zipWith, getElem?_range (by omega), located]
  unfold base
  rw [cumsum_getD isPart.le, add_right_comm]

theorem outIndex_length : (outIndex stateLen lens).length = lens.sum := by
  unfold outIndex
  rw [cumsum_getD le_rfl, take_length, length_zipWith, length_range, length_flatMap]
  simp only [length_replicate]
  rw [zipIdx_sizes, min_self]

theorem nextStateIndex_getElem? (isPart : part < lens.length) (lt : place < stateLen) :
    (nextStateIndex stateLen lens)[part * stateLen + place]? =
      some (base stateLen lens part + lens[part] + place) := by
  have isItem : part < lens.zipIdx.length := by rwa [length_zipIdx]
  have atPart : lens.zipIdx[part] = (lens[part], part) := by rw [getElem_zipIdx, zero_add]
  have size : ∀ item : Nat × Nat,
      ((range stateLen).map (base stateLen lens item.2 + item.1 + ·)).length = stateLen :=
    fun item => by rw [length_map, length_range]
  have located := @flatMap_getElem? _ _ lens.zipIdx
    (fun item => (range stateLen).map (base stateLen lens item.2 + item.1 + ·)) part place
    isItem (by rwa [size])
  have sums : ((lens.zipIdx.map fun _ => stateLen).take part).sum = part * stateLen := by
    rw [map_const', take_replicate, length_zipIdx, sum_replicate_nat, min_eq_left isPart.le]
  rw [funext size, sums, atPart, getElem?_map, getElem?_range lt] at located
  exact located

theorem nextStateIndex_length : (nextStateIndex stateLen lens).length = lens.length * stateLen := by
  unfold nextStateIndex
  rw [length_flatMap]
  simp only [length_map, length_range]
  rw [map_const', length_zipIdx, sum_replicate_nat]

theorem stateIndex_cases {k col : Nat} (isCol : (stateIndex stateLen lens)[k]? = some col) :
    ∃ part place, part < lens.length ∧ place < stateLen ∧ k = part * stateLen + place ∧
      col = base stateLen lens part + place := by
  obtain ⟨within, -⟩ := List.getElem?_eq_some_iff.mp isCol
  rw [stateIndex_length] at within
  have pos : 0 < stateLen := by
    rcases Nat.eq_zero_or_pos stateLen with none | some
    · rw [none, Nat.mul_zero] at within
      exact absurd within (Nat.not_lt_zero _)
    · exact some
  have isPart : k / stateLen < lens.length := Nat.div_lt_of_lt_mul (by rwa [Nat.mul_comm])
  have lt : k % stateLen < stateLen := Nat.mod_lt _ pos
  have split : k = k / stateLen * stateLen + k % stateLen := by
    rw [Nat.mul_comm]
    exact (Nat.div_add_mod k stateLen).symm
  refine ⟨k / stateLen, k % stateLen, isPart, lt, split, ?_⟩
  rw [split, stateIndex_getElem? isPart lt] at isCol
  exact (Option.some.inj isCol).symm

theorem outIndex_cases {k col : Nat} (isCol : (outIndex stateLen lens)[k]? = some col) :
    ∃ (part : Nat) (isPart : part < lens.length) (place : Nat), place < lens[part] ∧
      k = (lens.take part).sum + place ∧ col = base stateLen lens part + place := by
  obtain ⟨within, -⟩ := List.getElem?_eq_some_iff.mp isCol
  rw [outIndex_length] at within
  obtain ⟨part, isPart, place, lt, split⟩ := split_position within
  refine ⟨part, isPart, place, lt, split, ?_⟩
  rw [split, outIndex_getElem? isPart lt] at isCol
  exact (Option.some.inj isCol).symm

end Index

/-! ### The history -/

section History

variable {α : Type} {state : List (List α)} {x empty : List α}

def chunk (lens : List Nat) (x : List α) (i : Nat) : List α :=
  (x.drop (lens.take i).sum).take (lens.getD i 0)

/-- `[state_i | chunk_i]` -/
def block (lens : List Nat) (state : List (List α)) (x : List α) (i : Nat) : List α :=
  state.getD i [] ++ chunk lens x i

theorem getD_eq {i : Nat} (isReq : i < lens.length) : lens.getD i 0 = lens[i] := by
  rw [getD_eq_getElem?_getD, getElem?_eq_getElem isReq, Option.getD_some]

theorem map_getD_range (lens : List Nat) :
    (List.range lens.length).map (fun i => lens.getD i 0) = lens := by
  apply ext_getElem
  · rw [length_map, length_range]
  · intro i _ isReq
    rw [getElem_map, getElem_range, getD_eq isReq]

theorem chunk_getElem? {part place : Nat} (isPart : part < lens.length) (lt : place < lens[part]) :
    (chunk lens x part)[place]? = x[(lens.take part).sum + place]? := by
  unfold chunk
  rw [getElem?_take_of_lt (by rwa [getD_eq isPart]), getElem?_drop]

theorem chunk_length {part : Nat} (isPart : part < lens.length) (packed : x.length = lens.sum) :
    (chunk lens x part).length = lens[part] := by
  have next := sum_take_succ isPart
  have bound := @sum_take_mono lens (part + 1) _ isPart
  rw [take_length] at bound
  unfold chunk
  rw [length_take, length_drop, getD_eq isPart]
  omega

theorem chunk_flatMap {parts : Nat → List α} {part : Nat} (isPart : part < lens.length)
    (sizes : (List.range lens.length).map (fun i => (parts i).length) = lens) :
    chunk lens ((List.range lens.length).flatMap parts) part = parts part := by
  have isItem : part < (range lens.length).length := by rwa [length_range]
  have size : (parts part).length = lens[part] := by
    have here : ((range lens.length).map fun i => (parts i).length)[part]? = lens[part]? := by
      rw [sizes]
    rw [getElem?_map, getElem?_range isPart, getElem?_eq_getElem isPart] at here
    exact Option.some.inj here
  have packed : ((range lens.length).flatMap parts).length = lens.sum := by
    rw [length_flatMap, sizes]
  apply ext_getElem?
  intro place
  rcases lt_or_ge place lens[part] with lt | outside
  · have located := @flatMap_getElem? _ _ (range lens.length) parts part place isItem
      (by rwa [getElem_range, size])
    rw [sizes, getElem_range] at located
    rw [chunk_getElem? isPart lt, located]
  · rw [getElem?_eq_none (by rwa [chunk_length isPart packed]), getElem?_eq_none (by rwa [size])]

theorem flatten_getElem? {part place : Nat} (even : ∀ cols ∈ state, cols.length = stateLen)
    (isPart : part < state.length) (lt : place < stateLen) :
    state.flatten[part * stateLen + place]? = (state.getD part [])[place]? := by
  have size : state.map (fun cols => (id cols).length) = state.map fun _ => stateLen :=
    map_congr_left even
  have located := @flatMap_getElem? _ _ state id part place isPart
    (by rwa [id, even _ (getElem_mem isPart)])
  rw [flatMap_id, size, map_const', take_replicate, sum_replicate_nat,
    min_eq_left isPart.le] at located
  rw [getD_eq_getElem?_getD, getElem?_eq_getElem isPart]
  exact located

variable (even : ∀ cols ∈ state, cols.length = stateLen) (oneState : state.length = lens.length)
  (packed : x.length = lens.sum)

include even oneState packed

theorem block_length {part : Nat} (isPart : part < lens.length) :
    (block lens state x part).length = stateLen + lens[part] := by
  have isState : part < state.length := oneState ▸ isPart
  unfold block
  rw [length_append, chunk_length isPart packed, getD_eq_getElem?_getD,
    getElem?_eq_getElem isState, Option.getD_some, even _ (getElem_mem isState)]

theorem block_sizes : (List.range lens.length).map (fun i => (block lens state x i).length) =
    widths stateLen lens := by
  apply ext_getElem
  · rw [length_map, length_range]
    exact (length_map _).symm
  · intro i lt _
    rw [length_map, length_range] at lt
    rw [getElem_map, getElem_range, block_length even oneState packed lt]
    exact (getElem_map _).symm

theorem blocks_getElem? {part place : Nat} (isPart : part < lens.length)
    (lt : place < stateLen + lens[part]) :
    ((List.range lens.length).flatMap (block lens state x))[base stateLen lens part + place]? =
      (block lens state x part)[place]? := by
  have isItem : part < (range lens.length).length := by rwa [length_range]
  have located := @flatMap_getElem? _ _ (range lens.length) (block lens state x) part place
    isItem (by rwa [getElem_range, block_length even oneState packed isPart])
  rw [block_sizes even oneState packed, widths_sum part isPart.le, getElem_range] at located
  exact located

theorem blocks_length : ((List.range lens.length).flatMap (block lens state x)).length =
    lens.sum + lens.length * stateLen := by
  rw [length_flatMap, block_sizes even oneState packed, widths_total]

omit even oneState packed in
theorem rows_off_states {part place : Nat} (isPart : part < lens.length) (isOld : place < stateLen)
    (rows : List α) :
    (storeRows rows (((outIndex stateLen lens).map (· + stateLen)).zip x))[
      base stateLen lens part + place]? = rows[base stateLen lens part + place]? := by
  apply indexCopy_of_notMem
  intro mem
  obtain ⟨pre, isBefore, same⟩ := mem_map.mp mem
  obtain ⟨k, isCol⟩ := mem_iff_getElem?.mp isBefore
  obtain ⟨other, isOther, there, lt, -, rfl⟩ := outIndex_cases isCol
  have unique := base_unique isPart isOther (show place < stateLen + lens[part] by omega)
    (show there + stateLen < stateLen + lens[other] by omega) (by rw [← same, add_assoc])
  omega

omit packed in
theorem stateIndex_flatten : (stateIndex stateLen lens).length = state.flatten.length := by
  rw [stateIndex_length, length_flatten, map_congr_left even, map_const',
    sum_replicate_nat, oneState]

omit packed in
theorem stored_state {part place : Nat} (isPart : part < lens.length) (isOld : place < stateLen)
    (size : empty.length = lens.sum + lens.length * stateLen) :
    (storeRows empty ((stateIndex stateLen lens).zip state.flatten))[
      base stateLen lens part + place]? = (state.getD part [])[place]? := by
  have isState : part < state.length := oneState ▸ isPart
  have atState := stateIndex_getElem? isPart isOld
  have held : place < (state.getD part []).length := by
    rwa [getD_eq_getElem?_getD, getElem?_eq_getElem isState, Option.getD_some,
      even _ (getElem_mem isState)]
  rw [getElem?_eq_getElem held]
  apply indexCopy_of_value (stateIndex_flatten even oneState)
  · rw [size]
    exact base_lt isPart (by omega)
  · exact mem_of_getElem? atState
  · intro k isCol
    obtain ⟨other, there, isOther, lt, isK, same⟩ := stateIndex_cases isCol
    obtain ⟨rfl, rfl⟩ := base_unique isPart isOther (by omega) (by omega) same
    rw [isK, flatten_getElem? even isState isOld, getElem?_eq_getElem held]

omit even oneState in
theorem stored_row {part place : Nat} (isPart : part < lens.length) (isNew : place < lens[part])
    {rows : List α} (size : rows.length = lens.sum + lens.length * stateLen) :
    (storeRows rows (((outIndex stateLen lens).map (· + stateLen)).zip x))[
      base stateLen lens part + (stateLen + place)]? = (chunk lens x part)[place]? := by
  have held : place < (chunk lens x part).length := by rwa [chunk_length isPart packed]
  have lt : stateLen + place < stateLen + lens[part] := by omega
  have atRow : (outIndex stateLen lens)[(lens.take part).sum + place]? = some _ :=
    outIndex_getElem? isPart isNew
  rw [getElem?_eq_getElem held]
  apply indexCopy_of_value
  · rw [length_map, outIndex_length, packed]
  · rw [size]
    exact base_lt isPart lt
  · refine mem_map.mpr ⟨_, mem_of_getElem? atRow, ?_⟩
    omega
  · intro k isCol
    rw [getElem?_map, Option.map_eq_some_iff] at isCol
    obtain ⟨pre, isCol, same⟩ := isCol
    obtain ⟨other, isOther, there, within, isK, rfl⟩ := outIndex_cases isCol
    obtain ⟨rfl, isPlace⟩ := base_unique isPart isOther lt
      (show there + stateLen < stateLen + lens[other] by omega) (by omega)
    obtain rfl : place = there := by omega
    rw [isK, ← chunk_getElem? isPart isNew, getElem?_eq_getElem held]

/-- What is copied to these columns is `[state | chunk]` of each request, one behind the other. -/
theorem packed_history (size : empty.length = lens.sum + lens.length * stateLen) :
    ((indexCopy empty (stateIndex stateLen lens) state.flatten).bind fun withStates =>
      indexCopy withStates ((outIndex stateLen lens).map (· + stateLen)) x) =
        some ((List.range lens.length).flatMap (block lens state x)) := by
  have statesInside : ∀ col ∈ stateIndex stateLen lens, col < empty.length := by
    intro col mem
    obtain ⟨k, isCol⟩ := mem_iff_getElem?.mp mem
    obtain ⟨part, place, isPart, lt, -, rfl⟩ := stateIndex_cases isCol
    rw [size]
    exact base_lt isPart (by omega)
  have rowsLength : ((outIndex stateLen lens).map (· + stateLen)).length = x.length := by
    rw [length_map, outIndex_length, packed]
  have rowsInside : ∀ col ∈ (outIndex stateLen lens).map (· + stateLen), col <
      (storeRows empty ((stateIndex stateLen lens).zip state.flatten)).length := by
    intro col mem
    obtain ⟨pre, isBefore, rfl⟩ := mem_map.mp mem
    obtain ⟨k, isCol⟩ := mem_iff_getElem?.mp isBefore
    obtain ⟨part, isPart, place, lt, -, rfl⟩ := outIndex_cases isCol
    rw [storeRows_length, size, Nat.add_assoc]
    exact base_lt isPart (by omega)
  rw [indexCopy_eq (stateIndex_flatten even oneState) statesInside, Option.bind_some,
    indexCopy_eq rowsLength rowsInside]
  congr 1
  have blocks := blocks_length even oneState packed
  apply ext_getElem?
  intro col
  rcases Nat.lt_or_ge col (widths stateLen lens).sum with within | outside
  · obtain ⟨part, isItem, place, lt, rfl⟩ := split_position within
    have isPart : part < lens.length := by
      rwa [show (widths stateLen lens).length = lens.length from length_map _] at isItem
    rw [show (widths stateLen lens)[part] = stateLen + lens[part] from getElem_map _] at lt
    rw [widths_sum part isPart.le, blocks_getElem? even oneState packed isPart lt]
    have isState : part < state.length := oneState ▸ isPart
    have stateSize : (state.getD part []).length = stateLen := by
      rw [getD_eq_getElem?_getD, getElem?_eq_getElem isState, Option.getD_some]
      exact even _ (getElem_mem isState)
    unfold block
    rcases Nat.lt_or_ge place stateLen with isOld | isNew
    · rw [getElem?_append_left (by omega), rows_off_states isPart isOld,
        stored_state even oneState isPart isOld size]
    · obtain ⟨there, rfl⟩ := Nat.exists_eq_add_of_le isNew
      rw [getElem?_append_right (by omega), stateSize, Nat.add_sub_cancel_left]
      exact stored_row packed isPart (by omega) (by rw [storeRows_length, size])
  · rw [widths_total] at outside
    rw [getElem?_eq_none (by rwa [storeRows_length, storeRows_length, size]),
      getElem?_eq_none (by rwa [blocks])]

end History

end FreeToken.ShortConv
