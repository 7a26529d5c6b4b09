/-
**The short convolution of the per-layer embedding.**

A column holds a value for each channel. Shapes that `torch` refuses give `none`, and the casts
between dtypes are left out. -/

import FreeToken.Lib.IndexCopy
import Mathlib.Algebra.BigOperators.Group.Finset.Basic
import Mathlib.Algebra.Ring.Defs

namespace FreeToken

/-- What the convolution reads of `PLEMetadata`. -/
structure ConvMetadata where
  seqLens : List Nat
  stateSlots : List Nat
  freshSlots : Option (List Bool) := none
  isDecode : Bool := false
  deriving Repr

structure ShortConv (Channel R : Type) where
  /-- `conv1d.weight[:, 0, :]`, a column for each tap. -/
  taps : List (Channel → R)
  dilation : Nat
  silu : R → R

/-- A forward: its metadata, its rows, and what `new_empty` finds in the memory it takes. -/
structure ConvStep (Channel R : Type) where
  info : ConvMetadata
  x : List (Channel → R)
  blank : Nat → Channel → R

namespace ShortConv

/-! ### The columns of the packed history -/

/-- `base`: the column at which the state of each request begins. -/
def base (stateLen : Nat) (lens : List Nat) (i : Nat) : Nat := (cumsum lens).getD i 0 + i * stateLen

/-- `out_index`: the column of every output. -/
def outIndex (stateLen : Nat) (lens : List Nat) : List Nat :=
  List.zipWith (· + ·) (List.range ((cumsum lens).getD lens.length 0))
    (lens.zipIdx.flatMap fun part => List.replicate part.1 (part.2 * stateLen))

/-- `state_index`: the columns of the states. -/
def stateIndex (stateLen : Nat) (lens : List Nat) : List Nat :=
  (List.range lens.length).flatMap fun i => (List.range stateLen).map (base stateLen lens i + ·)

/-- `next_state_index`: the columns of the states behind this forward. -/
def nextStateIndex (stateLen : Nat) (lens : List Nat) : List Nat :=
  lens.zipIdx.flatMap fun part => (List.range stateLen).map (base stateLen lens part.2 + part.1 + ·)

section Layer

variable {Channel R : Type} [CommSemiring R] (conv : ShortConv Channel R)

/-- `ple_conv_kernel_size`. -/
def kernel : Nat := conv.taps.length

def stateLen : Nat := (conv.kernel - 1) * conv.dilation

/-- The output whose first tap reads the column `t`. -/
def outputAt (history : List (Channel → R)) (t : Nat) : Channel → R := fun channel =>
  ∑ k ∈ Finset.range conv.kernel,
    conv.taps.getD k 0 channel * history.getD (t + k * conv.dilation) 0 channel

/-- `F.conv1d`, which refuses a history that is shorter than the kernel reaches. -/
def conv1d (history : List (Channel → R)) : Option (List (Channel → R)) :=
  if conv.stateLen + 1 ≤ history.length then
    some ((List.range (history.length - conv.stateLen)).map (conv.outputAt history))
  else none

/-- `F.silu`, on every value. -/
def activate (rows : List (Channel → R)) : List (Channel → R) :=
  rows.map fun col channel => conv.silu (col channel)

/-- `_read_state`: the states of the slots, with zeros for a fresh one. -/
def readState (info : ConvMetadata) (states : List (List (Channel → R))) :
    Option (List (List (Channel → R))) := do
  let state ← indexSelect states info.stateSlots
  match info.freshSlots with
  | none => some state
  | some fresh =>
      if fresh.length = state.length then
        some (List.zipWith (fun isFresh cols =>
          if isFresh then cols.map fun _ => 0 else cols) fresh state)
      else none

/-- `states.index_copy_(0, slots, new_state)`, with new states of the shape of the slab. -/
def storeStates (states : List (List (Channel → R))) (slots : List Nat)
    (news : List (List (Channel → R))) : Option (List (List (Channel → R))) :=
  if ∀ cols ∈ news, cols.length = conv.stateLen then indexCopy states slots news else none

/-! ### The reference -/

/-- `history[0, :, -state_len:]`. -/
def lastColumns (count : Nat) (history : List (Channel → R)) : List (Channel → R) :=
  if count = 0 then history else history.drop (history.length - count)

/-- The assignment to `new_state[i]`, which spreads a single column. -/
def assignState (count : Nat) (cols : List (Channel → R)) : Option (List (Channel → R)) :=
  if cols.length = count then some cols
  else if cols.length = 1 then some (List.replicate count (cols.getD 0 0)) else none

/-- The loop over the requests: `offset` is where the rows of the next one begin. -/
def referenceLoop (x : List (Channel → R)) : List Nat → List (List (Channel → R)) → Nat →
    Option (List (Channel → R) × List (List (Channel → R)))
  | [], _, _ => some ([], [])
  | _ :: _, [], _ => none
  | n :: lens, state :: rest, offset => do
      let history := state ++ (x.drop offset).take n
      let out ← conv.conv1d history
      let next ← assignState conv.stateLen (lastColumns conv.stateLen history)
      let (outs, nexts) ← referenceLoop x lens rest (offset + n)
      some (out ++ outs, next :: nexts)

/-- `short_conv_reference`, one convolution for each request. -/
def shortConvReference (x : List (Channel → R)) (info : ConvMetadata)
    (states : List (List (Channel → R))) :
    Option (List (Channel → R) × List (List (Channel → R))) := do
  let state ← readState info states
  let (outs, newState) ← conv.referenceLoop x info.seqLens state 0
  let states ← conv.storeStates states info.stateSlots newState
  some (conv.activate outs, states)

/-! ### The packed prefill -/

/-- The columns of each request, `view(width, num_reqs, state_len)`. -/
def splitStates (cols : List (Channel → R)) (numReqs : Nat) : List (List (Channel → R)) :=
  (List.range numReqs).map fun i => (cols.drop (i * conv.stateLen)).take conv.stateLen

/-- `_prefill_conv`, one convolution over all requests packed together. -/
def prefillConv (x : List (Channel → R)) (info : ConvMetadata) (states : List (List (Channel → R)))
    (blank : Nat → Channel → R) : Option (List (Channel → R) × List (List (Channel → R))) := do
  let lens := info.seqLens
  let state ← readState info states
  let empty := (List.range (x.length + lens.length * conv.stateLen)).map blank
  let withStates ← indexCopy empty (stateIndex conv.stateLen lens) state.flatten
  let history ← indexCopy withStates ((outIndex conv.stateLen lens).map (· + conv.stateLen)) x
  let out ← conv.conv1d history
  let newState ← indexSelect history (nextStateIndex conv.stateLen lens)
  let states ← conv.storeStates states info.stateSlots (conv.splitStates newState lens.length)
  let picked ← indexSelect out (outIndex conv.stateLen lens)
  some (conv.activate picked, states)

/-! ### Decode -/

/-- `state[..., ::dilation]` -/
def everyTap (state : List (Channel → R)) : List (Channel → R) :=
  (List.range ((state.length + conv.dilation - 1) / conv.dilation)).map fun k =>
    state.getD (k * conv.dilation) 0

/-- The taps of a request over `[state[..., ::dilation] | column]`. -/
def tapRead (state : List (Channel → R)) (col : Channel → R) : Option (Channel → R) :=
  let window := conv.everyTap state ++ [col]
  if window.length = conv.kernel then
    some fun channel => ∑ k ∈ Finset.range conv.kernel,
      window.getD k 0 channel * conv.taps.getD k 0 channel
  else none

/-- `_decode_conv`, which reads the taps off the states. -/
def decodeConv (x : List (Channel → R)) (info : ConvMetadata) (states : List (List (Channel → R))) :
    Option (List (Channel → R) × List (List (Channel → R))) := do
  let state ← readState info states
  if state.length = x.length then
    let out ← (state.zip x).mapM fun pair => conv.tapRead pair.1 pair.2
    let states ← conv.storeStates states info.stateSlots
      (List.zipWith (fun cols col => cols.drop 1 ++ [col]) state x)
    some (conv.activate out, states)
  else none

/-! ### Runs -/

def shortConv (step : ConvStep Channel R) (states : List (List (Channel → R))) :
    Option (List (Channel → R) × List (List (Channel → R))) :=
  if step.info.isDecode then conv.decodeConv step.x step.info states
  else conv.prefillConv step.x step.info states step.blank

def runSteps : List (ConvStep Channel R) → List (List (Channel → R)) →
    Option (List (List (Channel → R)) × List (List (Channel → R)))
  | [], states => some ([], states)
  | step :: steps, states => do
      let (out, states) ← conv.shortConv step states
      let (outs, states) ← runSteps steps states
      some (out :: outs, states)

end Layer

end ShortConv

end FreeToken
