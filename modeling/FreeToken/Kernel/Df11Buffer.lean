/-
**The kernels that decode DF11 through a bit buffer.**

A load outside a tensor gives `none`. An index is an integer of 32 bits where the kernel computes it so.
-/

import FreeToken.Kernel.Df11Codec
import FreeToken.Lib.IndexCopy

namespace FreeToken.Df11

def wrap32 (x : Int) : Int := (BitVec.ofInt 32 x).toInt

def loadAt {α : Type} (values : List α) (i : Int) : Option α :=
  if 0 ≤ i then values[i.toNat]? else none

/-- `tl.load(..., mask=mask, other=other)`. -/
def masked {α : Type} (mask : Bool) (load : Option α) (other : α) : Option α :=
  if mask then load else some other

variable (stream : List (BitVec 32))

def loadWord (mask : Bool) (w : Int) : Option (BitVec 32) :=
  if mask ∧ w < stream.length then loadAt stream w else some 0

/-! ### The buffer -/

/-- `acc`, `nbits` and `wordidx`. -/
structure BitBuffer where
  acc : BitVec 64
  nbits : Int
  wordidx : Int
  deriving DecidableEq, Repr

namespace BitBuffer

def start (valid : Bool) (startBit : Int) : Option BitBuffer := do
  let w0 := startBit / 32
  let off0 := (startBit % 32).toNat
  let word0 ← loadWord stream valid w0
  return ⟨(word0 <<< off0).setWidth 64 <<< 32, 32 - off0, w0 + 1⟩

def refill (valid : Bool) (buffer : BitBuffer) : Option BitBuffer := do
  let need : Bool := buffer.nbits < 32
  let word ← loadWord stream (need && valid) buffer.wordidx
  let shIns := (max (32 - buffer.nbits) 0).toNat
  return {
    acc := buffer.acc ||| if need then word.setWidth 64 <<< shIns else 0
    nbits := if need then buffer.nbits + 32 else buffer.nbits
    wordidx := if need then buffer.wordidx + 1 else buffer.wordidx }

/-- The peeked bits: `((acc >> peek_sh) & peek_mask).to(tl.int32)`. -/
def window (lmax : Nat) (buffer : BitBuffer) : Int :=
  ((buffer.acc.sshiftRight (64 - lmax) &&& BitVec.ofNat 64 ((1 <<< lmax) - 1)).setWidth 32).toInt

def drop (length : Nat) (buffer : BitBuffer) : BitBuffer :=
  { buffer with acc := buffer.acc <<< length, nbits := buffer.nbits - length }

def position (buffer : BitBuffer) : Int := 32 * buffer.wordidx - buffer.nbits

end BitBuffer

/-! ### The loop of a lane -/

structure LaneStep where
  position : Int
  window : Int
  store : Option (Int × BitVec 16)
  deriving DecidableEq, Repr

structure LaneInput where
  stream : List (BitVec 32)
  lut : List Nat
  low8 : List Nat
  lmax : Nat

/-- Where the step `i` of a lane loads its byte and stores its value, and whether it does. -/
structure LanePlaces where
  valid : Bool
  storing : Nat → Bool
  source : Nat → Int
  dest : Nat → Int

/-- The loop of a lane from step `i` on. -/
def decodeLane (input : LaneInput) (lane : LanePlaces) : Nat → Nat → BitBuffer →
    Option (List LaneStep)
  | 0, _, _ => some []
  | count + 1, i, buffer => do
      let buffer ← buffer.refill input.stream lane.valid
      let v := buffer.window input.lmax
      let combined ← loadAt input.lut v
      let length := combined &&& 0xFF
      let sym := (combined >>> 8) &&& 0xFF
      let low ← masked (lane.storing i) (loadAt input.low8 (lane.source i)) 0
      let later ← decodeLane input lane count (i + 1) (buffer.drop length)
      return ⟨buffer.position, v,
        if lane.storing i then some (lane.dest i, join sym low) else none⟩ :: later

/-! ### The kernels -/

/-- `i * G + cid`, with 64 bits where `G` has them. -/
def laneIndex (g : Nat) (cid : Int) (i : Nat) : Int :=
  if g < 2 ^ 31 then wrap32 (wrap32 (i * g) + cid) else i * g + cid

def Bundle.input (c : Bundle) : LaneInput := ⟨c.bitstream, c.lut, c.low8, c.lmax⟩

/-- The places of the lane `cid`: step `i` has the value `i * G + cid`. -/
def Bundle.places (c : Bundle) (cid : Int) : LanePlaces where
  valid := cid < c.numChunks
  storing := fun i => cid < c.numChunks ∧ laneIndex c.numChunks cid i < c.n
  source := laneIndex c.numChunks cid
  dest := laneIndex c.numChunks cid

/-- The lane `cid` of `_df11_decode_kernel`. -/
def decodeLaneOf (c : Bundle) (cid : Int) : Option (List LaneStep) := do
  let cvalid : Bool := cid < c.numChunks
  let startBit ← masked cvalid (loadAt c.chunkStart cid) 0
  let buffer ← BitBuffer.start c.bitstream cvalid startBit.toInt
  decodeLane c.input (c.places cid) c.rows 0 buffer

/-- The lanes of a launch: `block` of them in each program. -/
def launchLanes (count block : Nat) (lane : Int → Option (List LaneStep)) :
    Option (List (List LaneStep)) := do
  let programs ← (List.range ((count + block - 1) / block)).mapM fun pid : Nat =>
    (List.range block).mapM fun k : Nat => lane (wrap32 (wrap32 (pid * block) + k))
  return programs.flatten

/-- `_df11_decode_kernel`, a chunk for each lane. -/
def df11DecodeKernel (c : Bundle) (block : Nat) : Option (List (List LaneStep)) :=
  launchLanes c.numChunks block (decodeLaneOf c)

variable (c : RowBundle)

def RowBundle.input : LaneInput := ⟨c.bitstream, c.lut, c.low8, c.lmax⟩

/-- The places of the lane `t`, which decodes the row `r`. -/
def RowBundle.places (count : Nat) (t : Int) (r : Nat) : LanePlaces where
  valid := t < count
  storing := fun _ => t < count
  source := fun k => (r : Int) * c.cols + k
  dest := fun k => t * c.cols + k

/-- The lane `t` of `_df11_gather_kernel`. -/
def gatherLaneOf (ids : List Nat) (t : Int) : Option (List LaneStep) := do
  let tvalid : Bool := t < ids.length
  let r ← masked tvalid (loadAt ids t) 0
  let startBit ← masked tvalid (loadAt c.chunkStart r) 0
  let buffer ← BitBuffer.start c.bitstream tvalid startBit
  decodeLane c.input (c.places ids.length t r) c.cols 0 buffer

/-- `_df11_gather_kernel`, a row for each lane. -/
def df11GatherKernel (ids : List Nat) (block : Nat) : Option (List (List LaneStep)) :=
  launchLanes ids.length block (gatherLaneOf c ids)

/-! ### What a launch is compared with -/

def windowsFrom (stream : List (BitVec 32)) (lut : List Nat) (lmax : Nat) :
    Nat → Int → Option (List (Int × Int))
  | 0, _ => some []
  | count + 1, pos => do
      let v ← peek stream lmax pos
      let combined ← lut[v]?
      let later ← windowsFrom stream lut lmax count (pos + (combined &&& 0xFF : Nat))
      return (pos, (v : Int)) :: later

def storesOf (lanes : List (List LaneStep)) : List (Int × BitVec 16) :=
  lanes.flatten.filterMap LaneStep.store

end FreeToken.Df11
