/-
**The forwards of the DeepSeek-V4 attention.**
-/

import FreeToken.Models.Dsv4Candidates
import Mathlib.Algebra.Order.Ring.Nat

namespace FreeToken

open Dsv4PagedPool List

/-! ### The segments of a batch -/

section Segments

variable {reqs : List Dsv4Req} {offset : Nat}

end Segments

namespace Dsv4Layer

section Batch

variable {layer : Dsv4Layer} {pool : Dsv4PagedPool} {segs : List Dsv4Segment}
  (positive : 0 < layer.windowSize) (nonempty : segs ≠ [])
  (placed : ∀ seg ∈ segs, ∃ row, layer.SegmentPlaced pool seg row)

def partOf (layer : Dsv4Layer) (pool : Dsv4PagedPool) (seg : Dsv4Segment) :
    PickTable × Option PickTable :=
  (layer.prefillSegment pool seg).getD (⟨0, []⟩, none)

include positive placed

theorem partOf_spec : ∀ seg ∈ segs, ∃ row, layer.SegmentPlaced pool seg row ∧
    layer.prefillSegment pool seg = some (layer.partOf pool seg) ∧
    layer.SegmentPart pool seg row (layer.partOf pool seg) := by
  intro seg mem
  obtain ⟨row, here⟩ := placed seg mem
  obtain ⟨part, done, brings⟩ := prefillSegment_spec positive here
  refine ⟨row, here, ?_⟩
  unfold partOf
  rw [done]
  exact ⟨rfl, brings⟩

theorem parts_eq : segs.mapM (layer.prefillSegment pool) = some (segs.map (layer.partOf pool)) :=
  mapM_some fun seg mem => (partOf_spec positive placed seg mem).choose_spec.2.1

end Batch

section Prefill

variable {layer : Dsv4Layer} {pool : Dsv4PagedPool} {reqs : List Dsv4Req}
  (positive : 0 < layer.windowSize) (nonempty : reqs ≠ [])
  (placed : ∀ seg ∈ prefillSegments 0 reqs, ∃ row, layer.SegmentPlaced pool seg row)

include positive nonempty placed

end Prefill

/-! ### A decode batch -/

section Decode

variable {layer : Dsv4Layer} {pool : Dsv4PagedPool}

/-- **A decode batch is handed over as it should be.** -/
def DecodeExact (layer : Dsv4Layer) (pool : Dsv4PagedPool) (staging : Dsv4Staging pool.fullToken)
    (tableRows pos : List Nat) : Prop :=
  ∃ snapshot answers, staging.snapshot tableRows = some snapshot ∧
    layer.decodeStep pool snapshot (staging.stageCap pos) pos = some answers ∧
    ∀ (b tableIdx p : Nat) (row : List Int), tableRows[b]? = some tableIdx → pos[b]? = some p →
      pool.fullLocMap[tableIdx]? = some row → ∃ cols count, answers[b]? = some (cols, count) ∧
        QueryExact layer pool row p layer.windowSize cols ∧
        (0 < layer.compressRatio → layer.indexer = none →
          count = some ((p + 1) / layer.compressRatio))

structure DecodePlaced (layer : Dsv4Layer) (pool : Dsv4PagedPool)
    (staging : Dsv4Staging pool.fullToken) (tableRows pos : List Nat) : Prop where
  sameLength : tableRows.length = pos.length
  covers : staging.Covers pos
  placed : ∀ (b tableIdx p : Nat), tableRows[b]? = some tableIdx → pos[b]? = some p →
    ∃ row, pool.fullLocMap[tableIdx]? = some row ∧
      Placed pool row (p + 1 - layer.windowSize) (p + 1)

end Decode

end Dsv4Layer

/-! ### Any forwards -/

variable (layer : Dsv4Layer)

namespace Dsv4Forward

def Admissible : Dsv4Forward → Prop
  | prefill pool reqs => reqs ≠ [] ∧
      ∀ seg ∈ prefillSegments 0 reqs, ∃ row, layer.SegmentPlaced pool seg row
  | decode pool staging tableRows pos => layer.DecodePlaced pool staging tableRows pos

def Exact : Dsv4Forward → Prop
  | prefill pool reqs => layer.PrefillExact pool (prefillSegments 0 reqs)
  | decode pool staging tableRows pos => layer.DecodeExact pool staging tableRows pos

end Dsv4Forward

end FreeToken
