/-
**The FTW checkpoint.**

All tensors are one region of bytes, cut into shard files.

A shard file is named by its number. The queue between the reading thread and the consumer keeps
the order and is left out, as are the keys of the index that no reader looks at.
-/

import FreeToken.Lib.Tiling
import Mathlib.Algebra.BigOperators.Group.List.Basic
import Mathlib.Data.List.Sort

namespace FreeToken.Ftw

abbrev Bytes := List UInt8

inductive FtwError where
  /-- An `assert`. -/
  | assertion
  /-- `FTW gap / misordered shards`. -/
  | gap
  /-- `tensor range exceeds FTW shards`. -/
  | exceeds
  /-- `unexpected EOF reading FTW`, or a file that is not there. -/
  | eof
  /-- `mmap.mmap(-1, 0)`. -/
  | emptyMap
  /-- A dtype that torch does not have. -/
  | attribute
  /-- `torch.frombuffer` of no bytes or past the buffer, and a `view` of another size. -/
  | buffer
  /-- Banks of another number of layers than the model has. -/
  | layers
  /-- A `KeyError`. -/
  | key
  deriving DecidableEq, Repr

/-! ### Tensors -/

/-- The block that `O_DIRECT` reads in, in bytes. -/
def ALIGN : Nat := 4096

def alignUp (n : Nat) : Nat := (n + ALIGN - 1) / ALIGN * ALIGN

inductive DType where
  | bool | uint8 | uint16 | uint32 | uint64 | int8 | int16 | int32 | int64
  | float16 | bfloat16 | float32 | float64 | complex32 | complex64 | complex128
  | float8_e4m3fn | float8_e4m3fnuz | float8_e5m2 | float8_e5m2fnuz | float8_e8m0fnu
  | float4_e2m1fn_x2
  deriving DecidableEq, Repr

namespace DType

def name : DType → List Char
  | bool => "bool".toList
  | uint8 => "uint8".toList
  | uint16 => "uint16".toList
  | uint32 => "uint32".toList
  | uint64 => "uint64".toList
  | int8 => "int8".toList
  | int16 => "int16".toList
  | int32 => "int32".toList
  | int64 => "int64".toList
  | float16 => "float16".toList
  | bfloat16 => "bfloat16".toList
  | float32 => "float32".toList
  | float64 => "float64".toList
  | complex32 => "complex32".toList
  | complex64 => "complex64".toList
  | complex128 => "complex128".toList
  | float8_e4m3fn => "float8_e4m3fn".toList
  | float8_e4m3fnuz => "float8_e4m3fnuz".toList
  | float8_e5m2 => "float8_e5m2".toList
  | float8_e5m2fnuz => "float8_e5m2fnuz".toList
  | float8_e8m0fnu => "float8_e8m0fnu".toList
  | float4_e2m1fn_x2 => "float4_e2m1fn_x2".toList

/-- `element_size()`. -/
def itemsize : DType → Nat
  | bool | uint8 | int8 | float8_e4m3fn | float8_e4m3fnuz | float8_e5m2 | float8_e5m2fnuz
  | float8_e8m0fnu | float4_e2m1fn_x2 => 1
  | uint16 | int16 | float16 | bfloat16 => 2
  | uint32 | int32 | float32 | complex32 => 4
  | uint64 | int64 | float64 | complex64 => 8
  | complex128 => 16

def all : List DType :=
  [bool, uint8, uint16, uint32, uint64, int8, int16, int32, int64, float16, bfloat16, float32,
    float64, complex32, complex64, complex128, float8_e4m3fn, float8_e4m3fnuz, float8_e5m2,
    float8_e5m2fnuz, float8_e8m0fnu, float4_e2m1fn_x2]

/-- `str(dtype)`. -/
def str (dtype : DType) : List Char := "torch.".toList ++ dtype.name

end DType

def dtypeStr (dtype : DType) : List Char := (("torch.".toList).isPrefixOf? dtype.str).getD dtype.str

def dtypeOf (name : List Char) : Except FtwError DType :=
  match DType.all.find? fun dtype => dtype.name = name with
  | some dtype => .ok dtype
  | none => .error .attribute

/-- A tensor, as the bytes of its elements. A tensor with no dimension has one element. -/
@[ext] structure Tensor where
  dtype : DType
  shape : List Nat
  bytes : Bytes
  whole : bytes.length = shape.prod * dtype.itemsize
  deriving DecidableEq, Repr

/-- `torch.frombuffer(buf, dtype=dt, count=count).view(*shape)`. -/
def frombuffer (buf : Bytes) (dtype : DType) (count : Nat) (shape : List Nat) :
    Except FtwError Tensor :=
  if sized : count = shape.prod ∧ count ≠ 0 ∧ count * dtype.itemsize ≤ buf.length then
    .ok ⟨dtype, shape, buf.take (count * dtype.itemsize), by
      rw [List.length_take, Nat.min_eq_left sized.2.2, sized.1]⟩
  else .error .buffer

/-! ### The writer -/

structure Entry where
  name : List Char
  kind : List Char
  dtype : List Char
  shape : List Nat
  globalOff : Nat
  nbytes : Nat
  deriving DecidableEq, Repr

structure Shard where
  file : Int
  globalOff : Nat
  nbytes : Nat
  deriving DecidableEq, Repr

/-- The files that were closed are on the disk; the open one is `f`. -/
structure FTWWriter where
  shardLimit : Nat
  tensors : List Entry
  shards : List Shard
  global : Nat
  f : Option Bytes
  shardIdx : Int
  shardStart : Nat
  cur : Nat
  disk : Int → Option Bytes

namespace FTWWriter

/-- `FTWWriter(out_dir, shard_limit=...)`. -/
def init (shardLimit : Nat) : Except FtwError FTWWriter :=
  if shardLimit % ALIGN = 0 then
    .ok ⟨shardLimit, [], [], 0, none, -1, 0, 0, fun _ => none⟩
  else .error .assertion

variable (w : FTWWriter)

def closeShard : FTWWriter :=
  match w.f with
  | none => w
  | some data =>
      { w with
        shards := w.shards ++ [⟨w.shardIdx, w.shardStart, w.cur⟩]
        disk := Function.update w.disk w.shardIdx (some data)
        f := none }

def roll : FTWWriter :=
  { w.closeShard with
    shardIdx := w.shardIdx + 1
    shardStart := w.global
    cur := 0
    f := some [] }

/-- The loop of `_write_raw`. Every round writes a byte. -/
def writeLoop : Nat → FTWWriter → Bytes → FTWWriter
  | 0, w, _ => w
  | rounds + 1, w, data =>
      if data = [] then w else
      let w := if w.cur = w.shardLimit then w.roll else w
      let take := min data.length (w.shardLimit - w.cur)
      writeLoop rounds
        { w with
          f := w.f.map (· ++ data.take take)
          cur := w.cur + take
          global := w.global + take }
        (data.drop take)

def writeRaw (data : Bytes) : FTWWriter :=
  writeLoop data.length (if w.f.isNone then w.roll else w) data

def addTensor (name : List Char) (tensor : Tensor) (kind : List Char) :
    Except FtwError FTWWriter := do
  let nbytes := tensor.bytes.length
  let w := if w.f.isNone ∨ nbytes ≤ w.shardLimit ∧ w.shardLimit < w.cur + nbytes then w.roll else w
  let globalOff := w.global
  if globalOff % ALIGN ≠ 0 then throw .assertion
  let w := w.writeRaw tensor.bytes
  let w := { w with tensors := w.tensors ++
    [⟨name, kind, dtypeStr tensor.dtype, tensor.shape, globalOff, nbytes⟩] }
  let pad := alignUp w.global - w.global
  return if pad ≠ 0 then w.writeRaw (List.replicate pad 0) else w

end FTWWriter

/-- A call of `add_tensor`. -/
structure Write where
  name : List Char
  tensor : Tensor
  kind : List Char
  deriving DecidableEq, Repr

/-- The calls of `add_tensor` on a new writer. -/
def writeAll (shardLimit : Nat) (writes : List Write) : Except FtwError FTWWriter := do
  writes.foldlM (fun w write => w.addTensor write.name write.tensor write.kind)
    (← FTWWriter.init shardLimit)

structure Index where
  totalBytes : Nat
  tensors : List Entry
  shards : List Shard
  expertBankNumLayers : Option Nat
  quantFormat : Option (List Char)
  deriving DecidableEq, Repr

structure Checkpoint where
  index : Index
  disk : Int → Option Bytes

def FTWWriter.finalize (w : FTWWriter) (expertBankNumLayers : Option Nat)
    (quantFormat : Option (List Char)) : Checkpoint :=
  let w := w.closeShard
  ⟨⟨w.global, w.tensors, w.shards, expertBankNumLayers, quantFormat⟩, w.disk⟩

/-! ### The reader -/

structure Piece where
  file : Int
  fileOff : Nat
  destOff : Nat
  length : Nat
  deriving DecidableEq, Repr

/-- The loop of `_pieces`. -/
def piecesLoop : List Shard → Nat → Nat → Nat → Except FtwError (List Piece)
  | [], _, _, remaining => if remaining ≠ 0 then .error .exceeds else .ok []
  | sh :: shards, pos, destOff, remaining =>
      let s0 := sh.globalOff
      let s1 := sh.globalOff + sh.nbytes
      if s1 ≤ pos ∨ remaining = 0 then piecesLoop shards pos destOff remaining
      else if pos < s0 then .error .gap
      else do
        let take := min remaining (s1 - pos)
        let later ← piecesLoop shards (pos + take) (destOff + take) (remaining - take)
        return ⟨sh.file, pos - s0, destOff, take⟩ :: later

namespace Checkpoint

variable (c : Checkpoint)

def shards : List Shard :=
  c.index.shards.insertionSort fun first second => first.globalOff ≤ second.globalOff

/-- A range of the region, cut at the ends of shards and into chunks. -/
def pieces (globalOff nbytes : Nat) : Except FtwError (List Piece) :=
  piecesLoop c.shards globalOff 0 nbytes

def entries (kinds : List (List Char)) : List Entry :=
  c.index.tensors.filter fun t => kinds.isEmpty || kinds.contains t.kind

end Checkpoint

def pieceJobs (chunk : Nat) (piece : Piece) : List Piece :=
  let rlen := alignUp piece.length
  (List.range ((rlen + chunk - 1) / chunk)).map fun i =>
    let c := i * chunk
    ⟨piece.file, piece.fileOff + c, piece.destOff + c, min chunk (rlen - c)⟩

variable (c : Checkpoint)

/-- The reads that `read_into` makes for a range. -/
def readJobs (chunk globalOff nbytes : Nat) : Except FtwError (List Piece) := do
  return (← c.pieces globalOff nbytes).flatMap (pieceJobs chunk)

/-- How the shards are read: with `preadv`, which may return fewer bytes than there is room for, or
from a mapping of the file. -/
inductive Backend where
  | direct (short : Piece → Nat → Nat)
  | mapped

/-- `os.preadv` into one view: as many bytes as the file has there, or fewer, but one at least. -/
def preadv (file : Bytes) (offset room short : Nat) : Bytes :=
  (file.drop offset).take (min room (short + 1))

/-- The loop of `_pread_into`. Every round reads a byte or fails. -/
def preadLoop (short : Nat → Nat) (file : Bytes) (offset : Nat) :
    Nat → Nat → Bytes → Except FtwError Bytes
  | 0, _, mv => .ok mv
  | rounds + 1, done, mv =>
      if done < mv.length then
        let got := preadv file (offset + done) (mv.length - done) (short done)
        if got = [] then .error .eof
        else preadLoop short file offset rounds (done + got.length) (setSlice mv done got)
      else .ok mv

def preadInto (short : Nat → Nat) (file mv : Bytes) (offset : Nat) : Except FtwError Bytes :=
  preadLoop short file offset mv.length 0 mv

variable (backend : Backend)

/-- `rd`. -/
def readJob (disk : Int → Option Bytes) (dest : Bytes) (job : Piece) : Except FtwError Bytes := do
  let some file := disk job.file | throw .eof
  match backend with
  | .direct short =>
      let mv ← preadInto (short job) file ((dest.drop job.destOff).take job.length) job.fileOff
      return setSlice dest job.destOff mv
  | .mapped =>
      if file.length < job.fileOff + job.length then throw .eof
      if dest.length < job.destOff + job.length then throw .buffer
      return setSlice dest job.destOff ((file.drop job.fileOff).take job.length)

/-- `read_into`. The reads end in some order. -/
def readInto (order : List Piece → List Piece) (chunk : Nat)
    (dest : Bytes) (globalOff nbytes : Nat) : Except FtwError Bytes := do
  let jobs ← readJobs c chunk globalOff nbytes
  (order jobs).foldlM (readJob backend c.disk) dest

def transientBuffer (nbytes : Nat) : Except FtwError Bytes :=
  if alignUp nbytes = 0 then .error .emptyMap else .ok (List.replicate (alignUp nbytes) 0)

def readTensor (order : List Piece → List Piece) (chunk : Nat)
    (e : Entry) : Except FtwError (List Char × Tensor) := do
  let buf ← transientBuffer e.nbytes
  let buf ← readInto c backend order chunk buf e.globalOff e.nbytes
  let dt ← dtypeOf e.dtype
  return (e.name, ← frombuffer buf dt (e.nbytes / dt.itemsize) e.shape)

def readTensors (c : Checkpoint) (backend : Backend) (order : List Piece → List Piece)
    (chunk : Nat) : List Entry → List (List Char × Tensor) × Option FtwError
  | [] => ([], none)
  | e :: entries =>
      match readTensor c backend order chunk e with
      | .error err => ([], some err)
      | .ok item =>
          let (items, err) := readTensors c backend order chunk entries
          (item :: items, err)

/-- The tensors of some kinds, each read into a buffer of its own. -/
def iterFtwWeights (kinds : List (List Char)) (backend : Backend)
    (order : List Piece → List Piece) (chunk : Nat) : List (List Char × Tensor) × Option FtwError :=
  readTensors c backend order chunk (c.entries kinds)

end FreeToken.Ftw
