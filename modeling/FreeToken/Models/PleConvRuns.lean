/-
**Runs of the short convolution.**
-/

import FreeToken.Models.PleConvSteps
import Mathlib.Algebra.Ring.Int.Defs

set_option linter.unusedSectionVars false

namespace FreeToken

open List

namespace ConvStep

variable {Channel R : Type}

def request (step : ConvStep Channel R) (slot : Nat) : Option (Bool × List (Channel → R)) :=
  if slot ∈ step.info.stateSlots then
    some (step.info.freshAt (step.info.stateSlots.idxOf slot),
      ShortConv.chunk step.info.seqLens step.x (step.info.stateSlots.idxOf slot))
  else none

def outputOf (step : ConvStep Channel R) (slot : Nat) (out : List (Channel → R)) :
    List (Channel → R) :=
  if slot ∈ step.info.stateSlots then
    ShortConv.chunk step.info.seqLens out (step.info.stateSlots.idxOf slot)
  else []

end ConvStep

namespace ShortConv

variable {Channel R : Type} [CommSemiring R] {conv : ShortConv Channel R}

/-- The pieces of each sequence put together: a piece that starts no sequence goes on with the one
before. -/
def lives {α : Type} : List (Bool × List α) → List (Bool × List α)
  | [] => []
  | piece :: pieces =>
      match lives pieces with
      | (false, rows) :: rest => (piece.1, piece.2 ++ rows) :: rest
      | rest => piece :: rest

def aloneInfo (slot : Nat) (fresh : Bool) (count : Nat) : ConvMetadata where
  seqLens := [count]
  stateSlots := [slot]
  freshSlots := some [fresh]

def aloneRun (conv : ShortConv Channel R) (slot : Nat) : List (Bool × List (Channel → R)) →
    List (List (Channel → R)) → Option (List (Channel → R) × List (List (Channel → R)))
  | [], states => some ([], states)
  | piece :: pieces, states => do
      let (out, states) ← conv.shortConvReference piece.2 (aloneInfo slot piece.1 piece.2.length) states
      let (outs, states) ← aloneRun conv slot pieces states
      some (out ++ outs, states)

def served (steps : List (ConvStep Channel R)) (slot : Nat) : List (Bool × List (Channel → R)) :=
  steps.filterMap (·.request slot)

def slotOutputs (slot : Nat) (steps : List (ConvStep Channel R))
    (outs : List (List (Channel → R))) : List (Channel → R) :=
  (steps.zip outs).flatMap fun pair => pair.1.outputOf slot pair.2

/-- **A run matches the reference**: it returns, and every slot has the outputs and the state that the
reference gives its sequences alone. -/
def Matches (conv : ShortConv Channel R) (states : List (List (Channel → R)))
    (steps : List (ConvStep Channel R)) : Prop :=
  ∃ outs final, conv.runSteps steps states = some (outs, final) ∧ ∀ slot < states.length, ∃ alone,
      conv.aloneRun slot (lives (served steps slot)) states =
        some (slotOutputs slot steps outs, alone) ∧ alone[slot]? = final[slot]?

/-! ### A request alone -/

def startOf (fresh : Bool) (state : List (Channel → R)) : List (Channel → R) :=
  if fresh then state.map fun _ => 0 else state

/-- The outputs and the next state over `[state | rows]`. -/
def advance (conv : ShortConv Channel R) (state rows : List (Channel → R)) :
    List (Channel → R) × List (Channel → R) :=
  (conv.activate (conv.outputs (state ++ rows) rows.length), (state ++ rows).drop rows.length)

def advances (conv : ShortConv Channel R) : List (Bool × List (Channel → R)) → List (Channel → R) →
    List (Channel → R) × List (Channel → R)
  | [], state => ([], state)
  | piece :: pieces, state =>
      ((conv.advance (startOf piece.1 state) piece.2).1 ++
          (advances conv pieces (conv.advance (startOf piece.1 state) piece.2).2).1,
        (advances conv pieces (conv.advance (startOf piece.1 state) piece.2).2).2)

theorem advances_cons (piece : Bool × List (Channel → R)) (pieces : List (Bool × List (Channel → R)))
    (state : List (Channel → R)) :
    conv.advances (piece :: pieces) state = ((conv.advance (startOf piece.1 state) piece.2).1 ++
          (conv.advances pieces (conv.advance (startOf piece.1 state) piece.2).2).1,
        (conv.advances pieces (conv.advance (startOf piece.1 state) piece.2).2).2) := rfl

theorem startOf_length (fresh : Bool) (state : List (Channel → R)) :
    (startOf fresh state).length = state.length := by
  unfold startOf
  split
  · exact length_map _
  · rfl

theorem advance_length (state rows : List (Channel → R)) :
    (conv.advance state rows).2.length = state.length := by
  show ((state ++ rows).drop rows.length).length = state.length
  rw [length_drop, length_append, Nat.add_sub_cancel]

theorem advance_append {state : List (Channel → R)} (size : state.length = conv.stateLen)
    (rows more : List (Channel → R)) :
    conv.advance state (rows ++ more) =
      ((conv.advance state rows).1 ++ (conv.advance (conv.advance state rows).2 more).1,
        (conv.advance (conv.advance state rows).2 more).2) := by
  have history : state ++ (rows ++ more) = (state ++ rows) ++ more := (append_assoc _ _ _).symm
  have early : ∀ t < rows.length,
      conv.outputAt (state ++ (rows ++ more)) t = conv.outputAt (state ++ rows) t := by
    intro t lt
    rw [← zero_add t, ← outputAt_block, zero_add]
    intro place within
    have reach : place < (state ++ rows).length := by
      rw [length_append]
      omega
    rw [zero_add, history, getElem?_append_left reach]
  have late : ∀ t, conv.outputAt (state ++ (rows ++ more)) (rows.length + t) =
      conv.outputAt ((state ++ rows).drop rows.length ++ more) t := by
    intro t
    apply outputAt_block
    intro place _
    rw [history, ← getElem?_drop, drop_append_of_le_length]
    rw [length_append]
    omega
  have states : (state ++ (rows ++ more)).drop (rows ++ more).length =
      ((state ++ rows).drop rows.length ++ more).drop more.length := by
    rw [history, length_append, ← drop_drop, drop_append_of_le_length]
    rw [length_append]
    omega
  have outs : conv.outputs (state ++ (rows ++ more)) (rows ++ more).length =
      conv.outputs (state ++ rows) rows.length ++
        conv.outputs ((state ++ rows).drop rows.length ++ more) more.length := by
    unfold outputs
    rw [length_append, range_add, map_append, map_map]
    congr 1
    · apply map_congr_left
      intro t mem
      exact early t (mem_range.mp mem)
    · apply map_congr_left
      intro t _
      exact late t
  unfold advance
  rw [outs, states]
  unfold activate
  rw [map_append]

theorem advances_lives (pieces : List (Bool × List (Channel → R))) {state : List (Channel → R)}
    (size : state.length = conv.stateLen) :
    conv.advances (lives pieces) state = conv.advances pieces state := by
  induction pieces generalizing state with
  | nil => rfl
  | cons piece pieces ih =>
    have nextSize : (conv.advance (startOf piece.1 state) piece.2).2.length = conv.stateLen := by
      rw [advance_length, startOf_length, size]
    have rest := ih nextSize
    have startSize : (startOf piece.1 state).length = conv.stateLen := by rw [startOf_length, size]
    unfold lives
    split
    · rename_i rows more isLives
      rw [isLives, advances_cons] at rest
      rw [advances_cons, advances_cons, ← rest, advance_append startSize piece.2 rows, append_assoc]
      rfl
    · rw [advances_cons, advances_cons, rest]

/-! ### The reference alone -/

section Alone

variable {states : List (List (Channel → R))} {slot : Nat}
  (shaped : ∀ cols ∈ states, cols.length = conv.stateLen) (inSlab : slot < states.length)
  (someState : 0 < conv.stateLen)

include shaped inSlab

theorem state_length : (states.getD slot []).length = conv.stateLen := by
  rw [getD_eq_getElem?_getD, getElem?_eq_getElem inSlab, Option.getD_some]
  exact shaped _ (getElem_mem inSlab)

omit shaped in
theorem getD_set (cols : List (Channel → R)) : (states.set slot cols).getD slot [] = cols := by
  rw [getD_eq_getElem?_getD, getElem?_set_self inSlab, Option.getD_some]

theorem shaped_set {cols : List (Channel → R)} (size : cols.length = conv.stateLen) :
    ∀ other ∈ states.set slot cols, other.length = conv.stateLen := by
  intro other mem
  rcases mem_or_eq_of_mem_set mem with old | rfl
  · exact shaped other old
  · exact size

include someState

/-- **The reference on a request alone** advances the state of its slot. -/
theorem reference_alone (fresh : Bool) {rows : List (Channel → R)} (nonempty : rows ≠ []) :
    conv.shortConvReference rows (aloneInfo slot fresh rows.length) states =
      some ((conv.advance (startOf fresh (states.getD slot [])) rows).1,
        states.set slot (conv.advance (startOf fresh (states.getD slot [])) rows).2) := by
  have pos := length_pos_iff.mpr nonempty
  have read : readState (aloneInfo slot fresh rows.length) states =
      some [startOf fresh (states.getD slot [])] := by
    apply readState_eq
    · intro other mem
      obtain rfl := mem_singleton.mp mem
      exact inSlab
    · intro flags isFlags
      rw [← Option.some.inj isFlags]
      rfl
  obtain ⟨state, isState⟩ : ∃ state, state = startOf fresh (states.getD slot []) := ⟨_, rfl⟩
  have size : state.length = conv.stateLen := by
    rw [isState, startOf_length, state_length shaped inSlab]
  have whole : (state ++ rows).length - conv.stateLen = rows.length := by
    rw [length_append, size, Nat.add_sub_cancel_left]
  have convolved : conv.conv1d (state ++ rows) =
      some (conv.outputs (state ++ rows) rows.length) := by
    unfold conv1d outputs
    rw [if_pos (by rw [length_append, size]; omega), whole]
  have nextLength : ((state ++ rows).drop rows.length).length = conv.stateLen := by
    rw [length_drop, length_append, size, Nat.add_sub_cancel]
  have next : assignState conv.stateLen (lastColumns conv.stateLen (state ++ rows)) =
      some ((state ++ rows).drop rows.length) := by
    unfold assignState lastColumns
    rw [if_neg someState.ne', whole, if_pos nextLength]
  have loop : conv.referenceLoop rows [rows.length] [state] 0 =
      some (conv.outputs (state ++ rows) rows.length, [(state ++ rows).drop rows.length]) := by
    unfold referenceLoop
    dsimp only
    rw [drop_zero, take_length, convolved, Option.bind_eq_bind, Option.bind_some, next]
    show some (_ ++ [], _) = _
    rw [append_nil]
  have stored : conv.storeStates states [slot] [(state ++ rows).drop rows.length] =
      some (states.set slot ((state ++ rows).drop rows.length)) := by
    unfold storeStates
    rw [if_pos]
    · have one : [slot].length = [(state ++ rows).drop rows.length].length := rfl
      apply indexCopy_eq one
      intro other mem
      obtain rfl := mem_singleton.mp mem
      exact inSlab
    · intro cols mem
      obtain rfl := mem_singleton.mp mem
      exact nextLength
  unfold shortConvReference
  rw [read, ← isState, Option.bind_eq_bind, Option.bind_some]
  show (conv.referenceLoop rows [rows.length] [state] 0).bind _ = _
  rw [loop, Option.bind_some]
  show (conv.storeStates states [slot] _).bind _ = _
  rw [stored]
  rfl

theorem aloneRun_eq {pieces : List (Bool × List (Channel → R))} (nonempty : ∀ piece ∈ pieces, piece.2 ≠ []) :
    conv.aloneRun slot pieces states = some ((conv.advances pieces (states.getD slot [])).1,
      states.set slot (conv.advances pieces (states.getD slot [])).2) := by
  induction pieces generalizing states with
  | nil =>
    have same : states.set slot (states.getD slot []) = states := by
      rw [getD_eq_getElem?_getD, getElem?_eq_getElem inSlab, Option.getD_some, set_getElem_self]
    unfold aloneRun advances
    rw [same]
  | cons piece pieces ih =>
    have step := reference_alone shaped inSlab someState piece.1 (nonempty piece mem_cons_self)
    have size : (conv.advance (startOf piece.1 (states.getD slot [])) piece.2).2.length =
        conv.stateLen := by
      rw [advance_length, startOf_length, state_length shaped inSlab]
    have rest := ih (shaped_set shaped inSlab size) (by rwa [length_set])
      fun other mem => nonempty other (mem_cons_of_mem _ mem)
    rw [getD_set inSlab, set_set] at rest
    unfold aloneRun
    rw [step, Option.bind_eq_bind, Option.bind_some]
    dsimp only
    rw [rest, advances_cons]
    rfl

end Alone

/-! ### A forward, slot by slot -/

section Slots

variable {step : ConvStep Channel R} {states : List (List (Channel → R))} {slot : Nat}
  (wellFormed : step.WellFormed states.length)
  (shaped : ∀ cols ∈ states, cols.length = conv.stateLen)

include wellFormed shaped

theorem shortConv_forward (dilated : 0 < conv.dilation) (twoTaps : 2 ≤ conv.kernel) :
    conv.shortConv step states = some (conv.Forward step.info step.x states) := by
  unfold shortConv
  split
  · rename_i isDecode
    exact decodeConv_forward shaped wellFormed.inSlab wellFormed.oneLen wellFormed.packed
      (wellFormed.decode isDecode) dilated twoTaps wellFormed.flags
  · exact prefillConv_forward shaped wellFormed.inSlab wellFormed.oneLen wellFormed.packed
      wellFormed.served wellFormed.flags wellFormed.positive step.blank

omit shaped in
theorem forward_unserved (unserved : slot ∉ step.info.stateSlots) :
    (conv.Forward step.info step.x states).2[slot]? = states[slot]? :=
  indexCopy_of_notMem unserved

omit wellFormed shaped in
theorem request_some (served : slot ∈ step.info.stateSlots) :
    step.request slot = some (step.info.freshAt (step.info.stateSlots.idxOf slot),
      chunk step.info.seqLens step.x (step.info.stateSlots.idxOf slot)) :=
  if_pos served

omit shaped in
theorem block_idxOf (served : slot ∈ step.info.stateSlots) :
    block step.info.seqLens (statesRead step.info states) step.x (step.info.stateSlots.idxOf slot) =
      startOf (step.info.freshAt (step.info.stateSlots.idxOf slot)) (states.getD slot []) ++
        chunk step.info.seqLens step.x (step.info.stateSlots.idxOf slot) := by
  have isReq := idxOf_lt_length_of_mem served
  unfold block
  rw [statesRead_getElem isReq, getElem_idxOf]
  rfl

theorem forward_state (served : slot ∈ step.info.stateSlots) :
    (conv.Forward step.info step.x states).2[slot]? =
      some (conv.advance (startOf (step.info.freshAt (step.info.stateSlots.idxOf slot))
        (states.getD slot [])) (chunk step.info.seqLens step.x
          (step.info.stateSlots.idxOf slot))).2 := by
  have isReq := idxOf_lt_length_of_mem served
  have isLen : step.info.stateSlots.idxOf slot < step.info.seqLens.length :=
    wellFormed.oneLen.symm ▸ isReq
  have atSlot : step.info.stateSlots[step.info.stateSlots.idxOf slot]? = some slot := by
    rw [getElem?_eq_getElem isReq, getElem_idxOf]
  have count : step.info.stateSlots.length = (nextStates step.info states step.x).length := by
    rw [← wellFormed.oneLen]
    exact ((length_map _).trans length_range).symm
  have stored := indexCopy_of_nodup count wellFormed.inSlab wellFormed.distinct atSlot
  refine stored.trans ?_
  unfold nextStates advance
  rw [getElem?_map, getElem?_range isLen, Option.map_some, block_idxOf wellFormed served,
    chunk_length isLen wellFormed.packed, getD_eq isLen]

theorem forward_outputs (served : slot ∈ step.info.stateSlots) :
    step.outputOf slot (conv.Forward step.info step.x states).1 =
      (conv.advance (startOf (step.info.freshAt (step.info.stateSlots.idxOf slot))
        (states.getD slot [])) (chunk step.info.seqLens step.x
          (step.info.stateSlots.idxOf slot))).1 := by
  have isReq := idxOf_lt_length_of_mem served
  have isLen : step.info.stateSlots.idxOf slot < step.info.seqLens.length :=
    wellFormed.oneLen.symm ▸ isReq
  have picked := chunk_flatMap isLen (@outputs_sizes _ _ _ conv step.info.seqLens
    (block step.info.seqLens (statesRead step.info states) step.x))
  have mapped : ∀ rows : List (Channel → R),
      chunk step.info.seqLens (conv.activate rows) (step.info.stateSlots.idxOf slot) =
        conv.activate (chunk step.info.seqLens rows (step.info.stateSlots.idxOf slot)) := by
    intro rows
    unfold chunk activate
    rw [map_take, map_drop]
  unfold ConvStep.outputOf Forward advance
  rw [if_pos served, mapped, picked, block_idxOf wellFormed served,
    chunk_length isLen wellFormed.packed, getD_eq isLen]

theorem forward_shaped : (conv.Forward step.info step.x states).2.length = states.length ∧
    ∀ cols ∈ (conv.Forward step.info step.x states).2, cols.length = conv.stateLen := by
  have size : (conv.Forward step.info step.x states).2.length = states.length :=
    storeRows_length _ _
  refine ⟨size, fun cols mem => ?_⟩
  obtain ⟨slot, isColumns⟩ := mem_iff_getElem?.mp mem
  have inSlab : slot < states.length := size ▸ (List.getElem?_eq_some_iff.mp isColumns).1
  by_cases served : slot ∈ step.info.stateSlots
  · rw [forward_state wellFormed shaped served] at isColumns
    rw [← Option.some.inj isColumns, advance_length, startOf_length, state_length shaped inSlab]
  · rw [forward_unserved wellFormed served] at isColumns
    exact shaped _ (mem_of_getElem? isColumns)

end Slots

/-! ### Runs -/

section Run

variable (dilated : 0 < conv.dilation) (twoTaps : 2 ≤ conv.kernel)

include dilated twoTaps

/-- **A run advances every slot by the pieces that it is served.** -/
theorem runSteps_eq (steps : List (ConvStep Channel R)) {states : List (List (Channel → R))}
    (shaped : ∀ cols ∈ states, cols.length = conv.stateLen)
    (wellFormed : ∀ step ∈ steps, step.WellFormed states.length) :
    ∃ outs final, conv.runSteps steps states = some (outs, final) ∧ ∀ slot < states.length,
      conv.advances (served steps slot) (states.getD slot []) =
        (slotOutputs slot steps outs, final.getD slot []) ∧ slot < final.length := by
  induction steps generalizing states with
  | nil => exact ⟨[], states, rfl, fun slot inSlab => ⟨rfl, inSlab⟩⟩
  | cons step steps ih =>
    have isStep := wellFormed step mem_cons_self
    have forward := shortConv_forward isStep shaped dilated twoTaps
    obtain ⟨size, shapedNext⟩ := @forward_shaped _ _ _ conv step states isStep shaped
    obtain ⟨outs, final, ran, rest⟩ := ih shapedNext fun other mem =>
      size.symm ▸ wellFormed other (mem_cons_of_mem _ mem)
    refine ⟨(conv.Forward step.info step.x states).1 :: outs, final, ?_, fun slot inSlab => ?_⟩
    · unfold runSteps
      rw [forward, Option.bind_eq_bind, Option.bind_some]
      dsimp only
      rw [ran]
      rfl
    · obtain ⟨later, inFinal⟩ := rest slot (size.symm ▸ inSlab)
      refine ⟨?_, inFinal⟩
      have outputs : slotOutputs slot (step :: steps)
          ((conv.Forward step.info step.x states).1 :: outs) =
            step.outputOf slot (conv.Forward step.info step.x states).1 ++
              slotOutputs slot steps outs := rfl
      by_cases isServed : slot ∈ step.info.stateSlots
      · have pieces : served (step :: steps) slot = _ :: served steps slot :=
          filterMap_cons_some (request_some isServed)
        have next := forward_state isStep shaped isServed
        rw [getD_eq_getElem?_getD, next, Option.getD_some] at later
        rw [pieces, advances_cons, outputs, forward_outputs isStep shaped isServed, later]
      · have pieces : served (step :: steps) slot = served steps slot :=
          filterMap_cons_none (if_neg isServed)
        have none : step.outputOf slot (conv.Forward step.info step.x states).1 = [] :=
          if_neg isServed
        rw [getD_eq_getElem?_getD, forward_unserved isStep isServed,
          ← getD_eq_getElem?_getD] at later
        rw [pieces, outputs, none, later, nil_append]

end Run

theorem lives_nonempty {α : Type} {pieces : List (Bool × List α)}
    (nonempty : ∀ piece ∈ pieces, piece.2 ≠ []) : ∀ piece ∈ lives pieces, piece.2 ≠ [] := by
  induction pieces with
  | nil => exact nonempty
  | cons piece pieces ih =>
    have first := nonempty piece mem_cons_self
    have rest := ih fun other mem => nonempty other (mem_cons_of_mem _ mem)
    unfold lives
    split
    · rename_i rows more isLives
      rw [isLives] at rest
      intro other mem
      rcases mem_cons.mp mem with rfl | mem
      · exact fun none => first (append_eq_nil_iff.mp none).1
      · exact rest other (mem_cons_of_mem _ mem)
    · intro other mem
      rcases mem_cons.mp mem with rfl | mem
      · exact first
      · exact rest other mem

theorem served_nonempty {steps : List (ConvStep Channel R)} {slot numSlots : Nat}
    (wellFormed : ∀ step ∈ steps, step.WellFormed numSlots) :
    ∀ piece ∈ served steps slot, piece.2 ≠ [] := by
  intro piece mem
  obtain ⟨step, isStep, isPiece⟩ := mem_filterMap.mp mem
  have wf := wellFormed step isStep
  by_cases isServed : slot ∈ step.info.stateSlots
  · rw [request_some isServed] at isPiece
    have isLen : step.info.stateSlots.idxOf slot < step.info.seqLens.length :=
      wf.oneLen.symm ▸ idxOf_lt_length_of_mem isServed
    rw [← Option.some.inj isPiece]
    apply ne_nil_of_length_pos
    rw [chunk_length isLen wf.packed]
    exact wf.positive _ (getElem_mem isLen)
  · have none : step.request slot = none := if_neg isServed
    rw [none] at isPiece
    cases isPiece

theorem runs_match (dilated : 0 < conv.dilation) (twoTaps : 2 ≤ conv.kernel)
    {states : List (List (Channel → R))} {steps : List (ConvStep Channel R)}
    (shaped : ∀ cols ∈ states, cols.length = conv.stateLen)
    (wellFormed : ∀ step ∈ steps, step.WellFormed states.length) : conv.Matches states steps := by
  obtain ⟨outs, final, ran, slots⟩ := runSteps_eq dilated twoTaps steps shaped wellFormed
  refine ⟨outs, final, ran, fun slot inSlab => ?_⟩
  have someState : 0 < conv.stateLen := Nat.mul_pos (by omega) dilated
  obtain ⟨advanced, inFinal⟩ := slots slot inSlab
  have alone := aloneRun_eq shaped inSlab someState
    (lives_nonempty (@served_nonempty _ _ _ steps slot _ wellFormed))
  rw [advances_lives _ (state_length shaped inSlab), advanced] at alone
  refine ⟨_, alone, ?_⟩
  rw [getElem?_set_self inSlab, getD_eq_getElem?_getD, getElem?_eq_getElem inFinal,
    Option.getD_some]

def decodeStep (col : Channel → R) : ConvStep Channel R where
  info := { seqLens := [1], stateSlots := [0], isDecode := true }
  x := [col]
  blank := fun _ => 0

theorem decodeStep_wellFormed (col : Channel → R) : (decodeStep col).WellFormed 1 where
  served := cons_ne_nil _ _
  distinct := nodup_singleton _
  inSlab := by
    intro slot mem
    obtain rfl := mem_singleton.mp mem
    exact one_pos
  oneLen := rfl
  flags := by
    intro fresh isFresh
    cases isFresh
  positive := by
    intro n mem
    exact (mem_singleton.mp mem).ge
  packed := rfl
  decode := by
    intro _ n mem
    exact mem_singleton.mp mem

theorem decodeStep_fails (oneTap : conv.kernel = 1) (col : Channel → R) :
    conv.runSteps [decodeStep col] [[]] = none := by
  have noState : conv.stateLen = 0 := by
    unfold stateLen
    rw [oneTap, Nat.sub_self, Nat.zero_mul]
  have refused : conv.storeStates [[]] [0] [[col]] = none := by
    unfold storeStates
    rw [if_neg]
    intro shaped
    have size := shaped [col] (mem_singleton.mpr rfl)
    rw [noState] at size
    cases size
  have failed : conv.shortConv (decodeStep col) [[]] = none := by
    show (((([[]] : List (List (Channel → R))).zip [col]).mapM
      fun pair => conv.tapRead pair.1 pair.2).bind fun out =>
        (conv.storeStates [[]] [0] [[col]]).bind fun states =>
          some (conv.activate out, states)) = none
    rw [refused]
    exact Option.bind_fun_none _
  unfold runSteps
  rw [failed]
  rfl

/-- **Every run over the slots matches the reference on each request alone, if and only if there are
two taps or more.** -/
theorem short_conv_runs (conv : ShortConv Channel R) (dilated : 0 < conv.dilation)
    (someTap : 1 ≤ conv.kernel) :
    (∀ (states : List (List (Channel → R))) (steps : List (ConvStep Channel R)),
      (∀ cols ∈ states, cols.length = conv.stateLen) →
      (∀ step ∈ steps, step.WellFormed states.length) → conv.Matches states steps) ↔
    2 ≤ conv.kernel := by
  constructor
  · intro matched
    by_contra few
    have oneTap : conv.kernel = 1 := by omega
    obtain ⟨outs, final, ran, -⟩ := matched [[]] [decodeStep fun _ => 0]
      (by
        intro cols mem
        obtain rfl := mem_singleton.mp mem
        unfold stateLen
        rw [oneTap, Nat.sub_self, Nat.zero_mul]
        rfl)
      (by
        intro step mem
        obtain rfl := mem_singleton.mp mem
        exact decodeStep_wellFormed _)
    rw [decodeStep_fails oneTap] at ran
    cases ran
  · intro twoTaps states steps shaped wellFormed
    exact runs_match dilated twoTaps shaped wellFormed

def twoTapConv : ShortConv Unit Int where
  taps := [fun _ => 2, fun _ => 3]
  dilation := 2
  silu := id

theorem short_conv_runs_two_taps : 0 < twoTapConv.dilation ∧ 2 ≤ twoTapConv.kernel ∧
    ∀ (states : List (List (Unit → Int))) (steps : List (ConvStep Unit Int)),
      (∀ cols ∈ states, cols.length = twoTapConv.stateLen) →
      (∀ step ∈ steps, step.WellFormed states.length) → twoTapConv.Matches states steps :=
  ⟨by decide, by decide, (short_conv_runs twoTapConv (by decide) (by decide)).mpr (by decide)⟩

def oneTapConv : ShortConv Unit Int where
  taps := [fun _ => 2]
  dilation := 1
  silu := id

/-- A decode step with a single tap fails, where the reference returns. -/
theorem one_tap_decode : (decodeStep fun _ : Unit => (5 : Int)).WellFormed 1 ∧
    (oneTapConv.shortConvReference [fun _ => 5] (aloneInfo 0 false 1) [[]]).isSome ∧
    ¬oneTapConv.Matches [[]] [decodeStep fun _ => 5] := by
  refine ⟨decodeStep_wellFormed _, rfl, fun matched => ?_⟩
  obtain ⟨outs, final, ran, -⟩ := matched
  rw [decodeStep_fails rfl] at ran
  cases ran

end ShortConv

end FreeToken
