/-
**Expert banks in an FTW checkpoint.**

A bank holds the rows of all experts of all layers.

The pinning of buffers, which does not touch their contents, is left out. So are the bars, the
counts and the copied files of the converter. `\d` stands for the ten ASCII digits.
-/

import FreeToken.Checkpoint.Ftw
import Mathlib.Data.Nat.Digits.Defs

namespace FreeToken.Ftw

/-! ### Dictionaries -/

abbrev Dict (κ ν : Type) := List (κ × ν)

namespace Dict

variable {κ ν : Type} [DecidableEq κ]

def get? (dict : Dict κ ν) (key : κ) : Option ν := (dict.find? fun item => item.1 = key).map Prod.snd

def keys (dict : Dict κ ν) : List κ := dict.map Prod.fst

/-- `dict[key] = value`. -/
def set (dict : Dict κ ν) (key : κ) (value : ν) : Dict κ ν :=
  if key ∈ dict.keys then dict.map fun item => if item.1 = key then (key, value) else item
  else dict ++ [(key, value)]

def ofList (items : List (κ × ν)) : Dict κ ν :=
  items.foldl (fun dict item => dict.set item.1 item.2) []

end Dict

/-! ### Names -/

inductive Format where
  | bf16 | fp8_block | q4_0 | gguf | nvfp4 | nvfp4_marlin | nvfp4_b12x | mxfp4_triton | ds_fp4
  deriving DecidableEq, Repr

namespace Format

def tag : Format → List Char
  | bf16 => "bf16".toList
  | fp8_block => "fp8_block".toList
  | q4_0 => "q4_0".toList
  | gguf => "gguf".toList
  | nvfp4 => "nvfp4".toList
  | nvfp4_marlin => "nvfp4_marlin".toList
  | nvfp4_b12x => "nvfp4_b12x".toList
  | mxfp4_triton => "mxfp4_triton".toList
  | ds_fp4 => "ds_fp4".toList

/-- `_BANK_SCHEMAS`. -/
def schema : Format → List (List Char)
  | bf16 => ["gate_up".toList, "down".toList]
  | fp8_block => ["gate_up".toList, "gate_up_scale".toList, "down".toList, "down_scale".toList]
  | q4_0 => ["gate_up".toList, "down".toList]
  | gguf => ["gate_up".toList, "down".toList]
  | nvfp4 =>
      ["gate_up_packed".toList, "gate_up_scale".toList, "gate_up_global".toList,
        "down_packed".toList, "down_scale".toList, "down_global".toList]
  | nvfp4_marlin =>
      ["gate_up_packed".toList, "gate_up_scale".toList, "down_packed".toList, "down_scale".toList]
  | nvfp4_b12x =>
      ["gate_up_packed".toList, "gate_up_scale".toList, "down_packed".toList, "down_scale".toList]
  | mxfp4_triton =>
      ["gate_up_blocks".toList, "gate_up_scales".toList, "gate_up_bias".toList,
        "down_blocks".toList, "down_scales".toList, "down_bias".toList]
  | ds_fp4 =>
      ["gate_up_packed".toList, "gate_up_scale".toList, "down_packed".toList, "down_scale".toList]

/-- `_KIND_KERNEL`: the quantization and the kernel that a format is packed for. -/
def kindKernel : Dict (List Char) (List Char × List Char) :=
  [(bf16.tag, ("none".toList, "fused".toList)),
    (fp8_block.tag, ("fp8_block".toList, "triton".toList)),
    (nvfp4.tag, ("nvfp4".toList, "triton".toList)),
    (nvfp4_marlin.tag, ("nvfp4".toList, "marlin".toList)),
    (nvfp4_b12x.tag, ("nvfp4".toList, "b12x".toList)),
    (mxfp4_triton.tag, ("mxfp4".toList, "triton_gptoss".toList)),
    (ds_fp4.tag, ("mxfp4".toList, "triton".toList))]

end Format

/-- `CANONICAL_ROLE`. -/
def canonicalRoles : Dict (List Char) (List Char) :=
  [("gate_up_packed".toList, "gate_up".toList), ("gate_up_blocks".toList, "gate_up".toList),
    ("gate_up_scales".toList, "gate_up_scale".toList),
    ("down_packed".toList, "down".toList),
    ("down_blocks".toList, "down".toList),
    ("down_scales".toList, "down_scale".toList)]

def canonicalRole (bankName : List Char) : List Char := (canonicalRoles.get? bankName).getD bankName

/-- `legacy_bank_names`: from a role to the name on the disk. -/
def legacyBankNames (format : Format) : Dict (List Char) (List Char) :=
  Dict.ofList (format.schema.map fun name => (canonicalRole name, name))

def kindKernelFor (legacyFormat : List Char) : Except FtwError (List Char × List Char) :=
  match Format.kindKernel.get? legacyFormat with
  | some kindKernel => .ok kindKernel
  | none => .error .key

/-- `f"{n:05d}"`. -/
def padded (n : Nat) : List Char :=
  let digits := (Nat.digits 10 n).reverse.map Nat.digitChar
  List.replicate (5 - digits.length) '0' ++ digits

def layerBankEntryName (bankName : List Char) (layerId : Nat) : List Char :=
  bankName ++ ['#', 'L'] ++ padded layerId

/-- `int` of digits. -/
def intOf (digits : List Char) : Nat :=
  digits.foldl (fun value digit => 10 * value + (digit.toNat - '0'.toNat)) 0

/-- `_LAYER_ENTRY_RE.match`, read from the end of the name. A `$` stands before a last line break
too, and a `.` for no line break. -/
def matchLayerEntry (name : List Char) : Option (List Char × Nat) :=
  let last := match name.reverse with
    | '\n' :: rest => rest
    | rest => rest
  match last with
  | d5 :: d4 :: d3 :: d2 :: d1 :: 'L' :: '#' :: base =>
      if [d1, d2, d3, d4, d5].all Char.isDigit && !base.isEmpty && !base.contains '\n' then
        some (base.reverse, intOf [d1, d2, d3, d4, d5])
      else none
  | _ => none

def alphaNames : List (List Char) := ["gate_up_alpha".toList, "down_alpha".toList]

def expertsBank : List Char := "experts_bank".toList

/-! ### The converter -/

structure Bank where
  dtype : DType
  rowShape : List Nat
  bytes : Bytes
  deriving DecidableEq, Repr

namespace Bank

variable (bank : Bank) (numExperts : Nat)

def layerBytes : Nat := numExperts * (bank.rowShape.prod * bank.dtype.itemsize)

def rows (first last : Nat) : Bytes :=
  (bank.bytes.take (last * (bank.rowShape.prod * bank.dtype.itemsize))).drop
    (first * (bank.rowShape.prod * bank.dtype.itemsize))

end Bank

/-- The banks of a model, one for each role of the format, with their rows and the alphas. -/
structure BankSet where
  format : Format
  numLayers : Nat
  numExperts : Nat
  bank : List Char → Bank
  gateUpAlpha : Option Tensor
  downAlpha : Option Tensor
  someLayer : 0 < numLayers
  whole : ∀ role, (bank role).bytes.length = numLayers * (bank role).layerBytes numExperts
  alphaShape : ∀ alpha, gateUpAlpha = some alpha ∨ downAlpha = some alpha →
    alpha.shape = [numLayers * numExperts]

namespace BankSet

variable (banks : BankSet)

def roles : List (List Char) := banks.format.schema.map canonicalRole

/-- `banks.sources[role][layer_id]`. -/
def layer (role : List Char) (layerId : Fin banks.numLayers) : Tensor where
  dtype := (banks.bank role).dtype
  shape := banks.numExperts :: (banks.bank role).rowShape
  bytes := (banks.bank role).rows (layerId * banks.numExperts) ((layerId + 1) * banks.numExperts)
  whole := by
    have size := banks.whole role
    have most : (layerId + 1) * (banks.bank role).layerBytes banks.numExperts ≤
        banks.numLayers * (banks.bank role).layerBytes banks.numExperts :=
      Nat.mul_le_mul_right _ layerId.isLt
    unfold Bank.layerBytes at size most
    unfold Bank.rows
    rw [List.length_drop, List.length_take, List.prod_cons, size, Nat.mul_assoc, Nat.mul_assoc,
      Nat.min_eq_left most, ← Nat.sub_mul, Nat.add_sub_cancel_left, Nat.one_mul, Nat.mul_assoc]

/-- `torch.cat(per_layer, dim=0)`. -/
def cat (role : List Char) : Tensor where
  dtype := (banks.bank role).dtype
  shape := banks.numLayers * banks.numExperts :: (banks.bank role).rowShape
  bytes := (List.finRange banks.numLayers).flatMap fun layerId => (banks.layer role layerId).bytes
  whole := by
    have each : ∀ layerId ∈ List.finRange banks.numLayers,
        (banks.layer role layerId).bytes.length = (banks.bank role).layerBytes banks.numExperts := by
      intro layerId _
      rw [(banks.layer role layerId).whole]
      exact Nat.mul_assoc _ _ _
    rw [List.length_flatMap, List.map_congr_left each, List.map_const', List.sum_replicate_nat,
      List.length_finRange, List.prod_cons, Nat.mul_assoc, Nat.mul_assoc]
    rfl

def alphas : List (List Char × Tensor) :=
  (banks.gateUpAlpha.map fun alpha => ("gate_up_alpha".toList, alpha)).toList ++
    (banks.downAlpha.map fun alpha => ("down_alpha".toList, alpha)).toList

end BankSet

structure ConvertSink where
  writer : FTWWriter
  names : Dict (List Char) (List Char)
  seen : List Nat

def ConvertSink.call (sink : ConvertSink) (layerId : Nat) (banks : List (List Char × Tensor)) :
    Except FtwError ConvertSink := do
  if layerId ∈ sink.seen then throw .assertion
  let writer ← banks.foldlM (fun writer bank =>
    writer.addTensor (layerBankEntryName ((sink.names.get? bank.1).getD bank.1) layerId) bank.2
      expertsBank) sink.writer
  return { sink with writer := writer, seen := layerId :: sink.seen }

/-- How the banks are written: by layers, in the order in which they get complete, or as one region
each. -/
inductive Conversion (numLayers : Nat) where
  | streamed (completions : List (Fin numLayers))
  | materialized

def sinkNames (format : Format) : Dict (List Char) (List Char) :=
  if (Format.kindKernel.get? format.tag).isSome then legacyBankNames format else []

/-- The banks of `convert_checkpoint`, behind some dense weights, and how many layers they have. -/
def convertBanks (writer : FTWWriter) (banks : BankSet) :
    Conversion banks.numLayers → Except FtwError (FTWWriter × Nat)
  | .streamed completions => do
      let sink ← completions.foldlM (fun (sink : ConvertSink) (layerId : Fin banks.numLayers) =>
        sink.call layerId (banks.roles.map fun role => (role, banks.layer role layerId)))
        ⟨writer, sinkNames banks.format, []⟩
      if sink.seen.length = 0 then throw .assertion
      return (sink.writer, sink.seen.length)
  | .materialized => do
      let names := legacyBankNames banks.format
      let writer ← banks.roles.foldlM (fun writer role =>
        writer.addTensor ((names.get? role).getD role) (banks.cat role) expertsBank) writer
      return (writer, banks.numLayers)

/-- The converter writes the banks layer by layer, as the layers get complete (`ConvertSink`), or
each bank as one region. -/
def convertCheckpoint (shardLimit : Nat) (dense : List (List Char × Tensor)) (banks : BankSet)
    (conversion : Conversion banks.numLayers) : Except FtwError Checkpoint := do
  let writer ← FTWWriter.init shardLimit
  let writer ← dense.foldlM (fun writer item =>
    writer.addTensor item.1 item.2 "weight".toList) writer
  let (writer, numLayers) ← convertBanks writer banks conversion
  let writer ← banks.alphas.foldlM (fun writer item =>
    writer.addTensor item.1 item.2 expertsBank) writer
  return writer.finalize (some numLayers) (some banks.format.tag)

/-! ### The loader -/

/-- The buffer of a `HostBank`. -/
def hostBank (shape : List Nat) (dtype : DType) : Except FtwError Bytes :=
  transientBuffer (shape.prod * dtype.itemsize)

inductive RowView where
  | all
  | slice (headPad layerBytes : Nat)

structure RowBank where
  buf : Bytes
  off : Nat
  nbytes : Nat
  view : RowView
  shape : List Nat
  dtype : DType

def window (e : Entry) (layerBytes layerId : Nat) : Nat × Nat :=
  let off := e.globalOff + layerId * layerBytes
  (off / ALIGN * ALIGN, alignUp (off + layerBytes))

def flatRow (e : Entry) (numExperts : Nat) (rowShape : List Nat) (dtype : DType)
    (layerBytes layerId : Nat) : Except FtwError RowBank := do
  let (winOff, winEnd) := window e layerBytes layerId
  let headPad := e.globalOff + layerId * layerBytes - winOff
  let buf ← hostBank [winEnd - winOff] .uint8
  return ⟨buf, winOff, winEnd - winOff, .slice headPad layerBytes, numExperts :: rowShape, dtype⟩

def flatBanks (numLayers : Nat) (e : Entry) : Except FtwError (List Char × List RowBank) := do
  let total :: rowShape := e.shape | throw .buffer
  if total % numLayers ≠ 0 then throw .assertion
  let numExperts := total / numLayers
  let dtype ← dtypeOf e.dtype
  let layerBytes := numExperts * (rowShape.prod * dtype.itemsize)
  if layerBytes * numLayers ≠ e.nbytes then throw .assertion
  let banks ← (List.range numLayers).mapM (flatRow e numExperts rowShape dtype layerBytes)
  return (e.name, banks)

def layerGroups (rowEntries : List Entry) : Dict (List Char) (Dict Nat Entry) :=
  rowEntries.foldl (fun groups e =>
    match matchLayerEntry e.name with
    | none => groups
    | some (base, layer) => groups.set base (((groups.get? base).getD []).set layer e)) []

def layerRow (byLayer : Dict Nat Entry) (layerId : Nat) : Except FtwError RowBank := do
  let some e := byLayer.get? layerId | throw .key
  if e.globalOff % ALIGN ≠ 0 then throw .assertion
  let dtype ← dtypeOf e.dtype
  let buf ← hostBank e.shape dtype
  return ⟨buf, e.globalOff, e.nbytes, .all, e.shape, dtype⟩

def layerBanks (numLayers : Nat) (group : List Char × Dict Nat Entry) :
    Except FtwError (List Char × List RowBank) := do
  if group.2.keys.insertionSort (· ≤ ·) ≠ List.range numLayers then throw .assertion
  let banks ← (List.range numLayers).mapM (layerRow group.2)
  return (group.1, banks)

/-- `bank.tensor`, or the slice of it viewed in the dtype of the bank. -/
def rowTensor (row : RowBank) (buf : Bytes) : Except FtwError Tensor :=
  match row.view with
  | .all => frombuffer buf row.dtype row.shape.prod row.shape
  | .slice headPad layerBytes =>
      if headPad % row.dtype.itemsize ≠ 0 ∨ layerBytes % row.dtype.itemsize ≠ 0 then .error .buffer
      else frombuffer ((buf.drop headPad).take layerBytes) row.dtype
        (layerBytes / row.dtype.itemsize) row.shape

structure ExpertBanks where
  sources : Dict (List Char) (List Tensor)
  alphas : Dict (List Char) Tensor
  kindKernel : Option (List Char × List Char)

namespace Checkpoint

variable (c : Checkpoint)

def alphaEntries : List Entry :=
  (c.entries [expertsBank]).filter fun e => alphaNames.contains e.name

def rowEntries : List Entry := (c.entries [expertsBank]).filter fun e => !alphaNames.contains e.name

def flatEntries : List Entry := c.rowEntries.filter fun e => (matchLayerEntry e.name).isNone

end Checkpoint

section Load

variable (c : Checkpoint) (numLayers : Nat) (backend : Backend) (order : List Piece → List Piece)
  (chunk : Nat)

def readRow (row : RowBank) : Except FtwError Tensor := do
  rowTensor row (← readInto c backend order chunk row.buf row.off row.nbytes)

def readAlpha (e : Entry) : Except FtwError (List Char × Tensor) := do
  let dtype ← dtypeOf e.dtype
  let buf ← hostBank e.shape dtype
  let buf ← readInto c backend order chunk buf e.globalOff e.nbytes
  return (e.name, ← frombuffer buf dtype e.shape.prod e.shape)

def readBank (bank : List Char × List RowBank) : Except FtwError (List Char × List Tensor) := do
  return (canonicalRole bank.1, ← bank.2.mapM (readRow c backend order chunk))

/-- The reader makes a buffer for each layer of each bank. Of a region it reads the blocks around
the layer, of an entry by layer the entry. -/
def loadFtwBanks : Except FtwError (Option ExpertBanks) := do
  if c.entries [expertsBank] = [] then return none
  if c.index.expertBankNumLayers.any (· ≠ numLayers) then throw .layers
  let groups := layerGroups c.rowEntries
  if c.flatEntries.any fun e => groups.keys.contains e.name then throw .assertion
  let flat ← c.flatEntries.mapM (flatBanks numLayers)
  let byLayer ← groups.mapM (layerBanks numLayers)
  let alphas ← c.alphaEntries.mapM (readAlpha c backend order chunk)
  let sources ← (Dict.ofList (flat ++ byLayer)).mapM (readBank c backend order chunk)
  let kindKernel ← match c.index.quantFormat with
    | some quantFormat => some <$> kindKernelFor quantFormat
    | none => pure none
  return some ⟨Dict.ofList sources, Dict.ofList alphas, kindKernel⟩

end Load

end FreeToken.Ftw
