/-
**Filling the expert banks from a stream of tensors.**

The sink and the stream may raise; a run yields its writes, and what it raised.
-/

import FreeToken.Lib.Generator
import FreeToken.Moe.ExpertPieces
import Mathlib.Data.Finset.Basic

namespace FreeToken

/-- What a kernel makes of an expert: a row for each host bank, a value for each resident one. -/
structure PackedRow (H A W : Type) where
  host : H → W
  resident : A → W

/-- The pack of one expert, a row for each host bank and a value for each resident one. -/
structure ExpertKernel (H A V W : Type) where
  packRow : ExpertTensors V → Except String (PackedRow H A W)

/-- Rows `e0:e1` of one layer, in every bank. -/
structure Fill (H A W : Type) where
  layer : Nat
  e0 : Nat
  e1 : Nat
  rows : List (PackedRow H A W)

inductive FillEvent (H A W : Type) where
  | filled (fill : Fill H A W)
  /-- A layer is handed to the sink. -/
  | sunk (layer : Nat)
  | raised (err : FillError)

structure FillState where
  written : Nat → Nat → Bool
  counts : Nat → Nat

def FillState.empty : FillState := ⟨fun _ _ => false, fun _ => 0⟩

section Filling

variable {H A V W Item α : Type}

def raise (err : FillError) : Generator (FillEvent H A W) α := ⟨[.raised err], none⟩

/-- `LayerCompletionTracker.note`; a sink may raise. -/
def note (sink : Nat → Option String) (expected : Nat) (counts : Nat → Nat) (layer : Nat) :
    Generator (FillEvent H A W) (Nat → Nat) :=
  let n := counts layer + 1
  if n = expected then do
    Generator.emit (.sunk layer)
    match sink layer with
    | some msg => raise (.sink msg)
    | none => pure (Function.update counts layer n)
  else pure (Function.update counts layer n)

def noteRows (sink : Nat → Option String) (expected layer : Nat) :
    Nat → (Nat → Nat) → Generator (FillEvent H A W) (Nat → Nat)
  | 0, counts => pure counts
  | rows + 1, counts => do
      let counts ← note sink expected counts layer
      noteRows sink expected layer rows counts

def ExpertKernel.pack (kernel : ExpertKernel H A V W) (tensors : RoleDict V) (rows : Nat) :
    Except String (List (PackedRow H A W)) :=
  (List.range rows).mapM fun k => kernel.packRow (tensors.slice k)

def FillState.mark (st : FillState) (layer e0 e1 : Nat) : Nat → Nat → Bool :=
  fun other expert => decide (other = layer ∧ e0 ≤ expert ∧ expert < e1) || st.written other expert

/-- The body of the loop of `_fill`. -/
def fillPiece (kernel : ExpertKernel H A V W) (numLayers numExperts : Nat)
    (sink : Option (Nat → Option String)) (st : FillState) (piece : Piece V) :
    Generator (FillEvent H A W) FillState :=
  if ¬((0 ≤ piece.layer ∧ piece.layer < numLayers) ∧
      (0 ≤ piece.e0 ∧ piece.e0 < piece.e1 ∧ piece.e1 ≤ numExperts)) then
    raise (.outOfRange piece.layer piece.e0 piece.e1)
  else
    let layer := piece.layer.toNat
    let e0 := piece.e0.toNat
    let e1 := piece.e1.toNat
    if (List.range (e1 - e0)).any fun k => st.written layer (e0 + k) then
      raise (.writtenTwice piece.layer piece.e0 piece.e1)
    else
      match kernel.pack piece.tensors (e1 - e0) with
      | .error msg => raise (.pack msg)
      | .ok rows => do
          Generator.emit (.filled { layer := layer, e0 := e0, e1 := e1, rows := rows })
          let counts ← match sink with
            | none => pure st.counts
            | some sink => noteRows sink numExperts layer (e1 - e0) st.counts
          pure { written := st.mark layer e0 e1, counts := counts }

/-- The pieces of a reader, as its tensors arrive. The stream may break off. -/
def fillStream (kernel : ExpertKernel H A V W) (numLayers numExperts : Nat)
    (sink : Option (Nat → Option String)) (reader : Reader V Item) (broken : Option String) :
    List Item → reader.Pending → FillState → Generator (FillEvent H A W) FillState
  | [], pending, st =>
      match broken with
      | some msg => raise (.reader msg)
      | none =>
          match reader.leftover pending with
          | some err => raise err
          | none => pure st
  | item :: items, pending, st =>
      match reader.next pending item with
      | .error err => raise err
      | .ok (pending, none) =>
          fillStream kernel numLayers numExperts sink reader broken items pending st
      | .ok (pending, some piece) => do
          let st ← fillPiece kernel numLayers numExperts sink st piece
          fillStream kernel numLayers numExperts sink reader broken items pending st

def FillState.missing (st : FillState) (numLayers numExperts : Nat) : List (Nat × Nat) :=
  (List.range numLayers).flatMap fun layer =>
    ((List.range numExperts).filter fun expert => !st.written layer expert).map fun expert =>
      (layer, expert)

def buildExpertBanks (kernel : ExpertKernel H A V W) (numLayers numExperts : Nat)
    (sink : Option (Nat → Option String)) (reader : Reader V Item) (stream : List Item)
    (broken : Option String) : Generator (FillEvent H A W) Unit :=
  if sink.isSome ∧ numExperts = 0 then raise .noExperts
  else do
    let st ← fillStream kernel numLayers numExperts sink reader broken stream reader.start .empty
    if st.missing numLayers numExperts = [] then pure ()
    else raise (.notFilled (st.missing numLayers numExperts))

/-! ### What was written -/

def FillEvent.fill? : FillEvent H A W → Option (Fill H A W)
  | .filled fill => some fill
  | _ => none

def fills (seen : List (FillEvent H A W)) : List (Fill H A W) := seen.filterMap FillEvent.fill?

def Fill.covers (fill : Fill H A W) (layer expert : Nat) : Bool :=
  fill.layer = layer ∧ fill.e0 ≤ expert ∧ expert < fill.e1

/-- What was written to one row. -/
def bankWrites (seen : List (FillEvent H A W)) (role : H) (layer expert : Nat) : List (Option W) :=
  ((fills seen).filter fun fill => fill.covers layer expert).map fun fill =>
    fill.rows[expert - fill.e0]?.map fun row => row.host role

/-- A piece writes `alphas[role][layer_id * E + e0 : layer_id * E + e1]`. -/
def Fill.coversAlpha (fill : Fill H A W) (numExperts index : Nat) : Bool :=
  fill.layer * numExperts + fill.e0 ≤ index ∧ index < fill.layer * numExperts + fill.e1

def alphaWrites (numExperts : Nat) (seen : List (FillEvent H A W)) (role : A) (index : Nat) :
    List (Option W) :=
  ((fills seen).filter fun fill => fill.coversAlpha numExperts index).map fun fill =>
    fill.rows[index - (fill.layer * numExperts + fill.e0)]?.map fun row => row.resident role

end Filling

end FreeToken
