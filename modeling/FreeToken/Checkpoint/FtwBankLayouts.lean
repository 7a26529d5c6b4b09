/-
**Expert banks do not depend on their layout.**
-/

import FreeToken.Checkpoint.FtwBankNames
import FreeToken.Checkpoint.FtwRoundTrip

namespace FreeToken.Ftw

open List

/-! ### The converter -/

def Conversion.Complete {numLayers : Nat} : Conversion numLayers → Prop
  | .streamed completions => completions.Perm (List.finRange numLayers)
  | .materialized => True

def denseWrite (item : List Char × Tensor) : Write := ⟨item.1, item.2, "weight".toList⟩

def alphaWrite (item : List Char × Tensor) : Write := ⟨item.1, item.2, expertsBank⟩

section Convert

variable (banks : BankSet)

def layerWrite (layerId : Fin banks.numLayers) (role : List Char) : Write :=
  ⟨layerBankEntryName (((sinkNames banks.format).get? role).getD role) layerId,
    banks.layer role layerId, expertsBank⟩

def catWrite (role : List Char) : Write := ⟨diskName banks.format role, banks.cat role, expertsBank⟩

def bankWrites : Conversion banks.numLayers → List Write
  | .streamed completions => completions.flatMap fun layerId =>
      banks.roles.map (layerWrite banks layerId)
  | .materialized => banks.roles.map (catWrite banks)

variable {banks} {w : FTWWriter} {limit : Nat} {region : Bytes} {done : List Write}

theorem Written.addMap {α : Type} (items : List α) (write : α → Write)
    (written : Written w limit region done) :
    ∃ later more, items.foldlM (fun (w : FTWWriter) item =>
        w.addTensor (write item).name (write item).tensor (write item).kind) w = .ok later ∧
      Written later limit (region ++ more) (done ++ items.map write) := by
  obtain ⟨later, more, folded, laterWritten⟩ := written.addAll (items.map write)
  rw [foldlM_map] at folded
  exact ⟨later, more, folded, laterWritten⟩

theorem sink_spec (completions : List (Fin banks.numLayers)) {seen : List Nat}
    (nodup : completions.Nodup) (fresh : ∀ layerId ∈ completions, layerId.val ∉ seen)
    (written : Written w limit region done) :
    ∃ later more, completions.foldlM (fun (sink : ConvertSink) (layerId : Fin banks.numLayers) =>
        sink.call layerId (banks.roles.map fun role => (role, banks.layer role layerId)))
        ⟨w, sinkNames banks.format, seen⟩ =
          .ok ⟨later, sinkNames banks.format, (completions.map Fin.val).reverse ++ seen⟩ ∧
      Written later limit (region ++ more)
        (done ++ completions.flatMap fun layerId => banks.roles.map (layerWrite banks layerId)) := by
  induction completions generalizing w region done seen with
  | nil =>
    refine ⟨w, [], rfl, ?_⟩
    rw [flatMap_nil, append_nil, append_nil]
    exact written
  | cons layerId completions ih =>
    obtain ⟨next, more, added, nextWritten⟩ := written.addMap banks.roles (layerWrite banks layerId)
    obtain ⟨absent, nodup⟩ := nodup_cons.mp nodup
    have freshLater : ∀ other ∈ completions, other.val ∉ layerId.val :: seen := by
      intro other mem
      rw [mem_cons, not_or]
      refine ⟨fun same => absent (Fin.ext same ▸ mem), ?_⟩
      exact fresh other (mem_cons_of_mem _ mem)
    obtain ⟨later, rest, folded, laterWritten⟩ := ih nodup freshLater nextWritten
    have called : ConvertSink.call ⟨w, sinkNames banks.format, seen⟩ layerId
        (banks.roles.map fun role => (role, banks.layer role layerId)) =
        .ok ⟨next, sinkNames banks.format, layerId.val :: seen⟩ := by
      unfold ConvertSink.call
      rw [if_neg (fresh layerId mem_cons_self), foldlM_map]
      exact bind_ok_iff.mpr ⟨next, added, rfl⟩
    refine ⟨later, more ++ rest, ?_, ?_⟩
    · rw [foldlM_cons, map_cons, reverse_cons, append_assoc]
      exact bind_ok_iff.mpr ⟨_, called, folded⟩
    · rw [flatMap_cons, ← append_assoc done, ← append_assoc region]
      exact laterWritten

theorem convertBanks_spec {conversion : Conversion banks.numLayers} (complete : conversion.Complete)
    (written : Written w limit region done) :
    ∃ later more, convertBanks w banks conversion = .ok (later, banks.numLayers) ∧
      Written later limit (region ++ more) (done ++ bankWrites banks conversion) := by
  cases conversion with
  | streamed completions =>
    have nodup := complete.nodup_iff.mpr (nodup_finRange _)
    obtain ⟨later, more, folded, laterWritten⟩ := sink_spec completions nodup
      (fun _ _ none => absurd none not_mem_nil) written
    have count : ((completions.map Fin.val).reverse ++ []).length = banks.numLayers := by
      rw [append_nil, length_reverse, length_map, complete.length_eq,
        length_finRange]
    refine ⟨later, more, bind_ok_iff.mpr ⟨_, folded, ?_⟩, laterWritten⟩
    have some_ : ¬((completions.map Fin.val).reverse ++ []).length = 0 := by
      have pos := banks.someLayer
      omega
    rw [if_neg some_, count]
    rfl
  | materialized =>
    obtain ⟨later, more, folded, laterWritten⟩ := written.addMap banks.roles (catWrite banks)
    exact ⟨later, more, bind_ok_iff.mpr ⟨_, folded, rfl⟩, laterWritten⟩

def allWrites (dense : List (List Char × Tensor)) (banks : BankSet)
    (conversion : Conversion banks.numLayers) : List Write :=
  dense.map denseWrite ++ bankWrites banks conversion ++ banks.alphas.map alphaWrite

/-- What the converter writes, by layers or as one region. -/
theorem convert_spec (limitPos : 0 < limit) (limitAligned : ALIGN ∣ limit)
    (dense : List (List Char × Tensor)) {conversion : Conversion banks.numLayers}
    (complete : conversion.Complete) :
    ∃ c region, convertCheckpoint limit dense banks conversion = .ok c ∧
      Archive c limit region (allWrites dense banks conversion) ∧
      c.index.expertBankNumLayers = some banks.numLayers ∧
      c.index.quantFormat = some banks.format.tag := by
  obtain ⟨start, begun, startWritten⟩ := init_written limitPos limitAligned
  obtain ⟨w, _, denseDone, denseWritten⟩ := startWritten.addMap dense denseWrite
  obtain ⟨w', _, banksDone, banksWritten⟩ := convertBanks_spec complete denseWritten
  obtain ⟨w'', _, alphasDone, alphasWritten⟩ := banksWritten.addMap banks.alphas alphaWrite
  refine ⟨_, _, ?_, finalize_archive alphasWritten _ _, rfl, rfl⟩
  exact bind_ok_iff.mpr ⟨_, begun, bind_ok_iff.mpr ⟨_, denseDone, bind_ok_iff.mpr ⟨_, banksDone,
    bind_ok_iff.mpr ⟨_, alphasDone, rfl⟩⟩⟩⟩

end Convert

/-! ### The entries -/

theorem expertsBank_ne_weight : expertsBank ≠ "weight".toList := by decide

theorem alphas_named (banks : BankSet) : ∀ item ∈ banks.alphas, item.1 ∈ alphaNames := by
  intro item mem
  rcases mem_append.mp mem with isGateUp | isDown
  · obtain ⟨alpha, -, rfl⟩ := Option.map_eq_some_iff.mp (Option.mem_toList.mp isGateUp)
    exact mem_cons_self
  · obtain ⟨alpha, -, rfl⟩ := Option.map_eq_some_iff.mp (Option.mem_toList.mp isDown)
    exact mem_cons_of_mem _ mem_cons_self

theorem layerBankEntryName_not_alpha (bankName : List Char) (layerId : Nat) :
    layerBankEntryName bankName layerId ∉ alphaNames := by
  intro mem
  have plain : ∀ name ∈ alphaNames, '#' ∉ name := by decide
  refine plain _ mem ?_
  unfold layerBankEntryName
  simp

theorem bankWrites_cases {banks : BankSet} {conversion : Conversion banks.numLayers} {write : Write}
    (mem : write ∈ bankWrites banks conversion) :
    write.kind = expertsBank ∧ write.name ∉ alphaNames := by
  cases conversion with
  | streamed completions =>
    obtain ⟨layerId, -, isLayer⟩ := mem_flatMap.mp mem
    obtain ⟨role, -, rfl⟩ := mem_map.mp isLayer
    exact ⟨rfl, layerBankEntryName_not_alpha _ _⟩
  | materialized =>
    obtain ⟨role, isRole, rfl⟩ := mem_map.mp mem
    exact ⟨rfl, (diskName_plain banks.format role isRole).2.2.2⟩

variable {e : Entry}

section Entries

variable {c : Checkpoint} {limit : Nat} {region : Bytes} {dense : List (List Char × Tensor)}
  {banks : BankSet} {conversion : Conversion banks.numLayers}
  (archive : Archive c limit region (allWrites dense banks conversion))

include archive

theorem entry_write (mem : e ∈ c.entries [expertsBank]) :
    (e.name ∉ alphaNames ∧ ∃ write ∈ bankWrites banks conversion, Recorded region e write) ∨
      (e.name ∈ alphaNames ∧ ∃ item ∈ banks.alphas, Recorded region e (alphaWrite item)) := by
  obtain ⟨isEntry, asked⟩ := mem_filter.mp mem
  obtain ⟨write, isWrite, recorded⟩ := forall₂_mem archive.recorded e isEntry
  have isBank : e.kind = expertsBank := by simpa using asked
  rw [recorded.kind] at isBank
  rw [recorded.name]
  rcases mem_append.mp isWrite with early | isAlpha
  · rcases mem_append.mp early with isDense | ofBank
    · obtain ⟨item, -, rfl⟩ := mem_map.mp isDense
      exact absurd isBank.symm expertsBank_ne_weight
    · exact .inl ⟨(bankWrites_cases ofBank).2, write, ofBank, recorded⟩
  · obtain ⟨item, isItem, rfl⟩ := mem_map.mp isAlpha
    exact .inr ⟨alphas_named banks item isItem, item, isItem, recorded⟩

theorem rowEntry_write (mem : e ∈ c.rowEntries) :
    ∃ write ∈ bankWrites banks conversion, Recorded region e write := by
  obtain ⟨isEntry, notAlpha⟩ := mem_filter.mp mem
  rcases entry_write archive isEntry with ⟨-, found⟩ | ⟨isAlpha, -⟩
  · exact found
  · rw [contains_iff_mem.mpr isAlpha] at notAlpha
    cases notAlpha

theorem alphaEntry_write (mem : e ∈ c.alphaEntries) :
    ∃ item ∈ banks.alphas, Recorded region e (alphaWrite item) := by
  obtain ⟨isEntry, isAlpha⟩ := mem_filter.mp mem
  rcases entry_write archive isEntry with ⟨notAlpha, -⟩ | ⟨-, found⟩
  · exact absurd (contains_iff_mem.mp isAlpha) notAlpha
  · exact found

theorem write_rowEntry {write : Write} (mem : write ∈ bankWrites banks conversion) :
    ∃ e ∈ c.rowEntries, Recorded region e write := by
  have isWrite : write ∈ allWrites dense banks conversion :=
    mem_append_left _ (mem_append_right _ mem)
  obtain ⟨e, isEntry, recorded⟩ := forall₂_mem archive.recorded.flip write isWrite
  obtain ⟨isBank, notAlpha⟩ := bankWrites_cases mem
  rw [← recorded.kind] at isBank
  rw [← recorded.name] at notAlpha
  refine ⟨e, mem_filter.mpr ⟨mem_filter.mpr ⟨isEntry, ?_⟩, ?_⟩, recorded⟩
  · rw [isBank]
    rfl
  · rw [Bool.not_eq_true', ← Bool.not_eq_true, contains_iff_mem]
    exact notAlpha

end Entries

/-! ### Rows -/

theorem frombuffer_tensor {tensor : Tensor} (some_ : tensor.bytes ≠ []) {buf : Bytes}
    (bytes : buf.take tensor.bytes.length = tensor.bytes) :
    frombuffer buf tensor.dtype tensor.shape.prod tensor.shape = .ok tensor := by
  have pos := length_pos_iff.mpr some_
  have size := congrArg length bytes
  rw [length_take] at size
  have whole := tensor.whole
  have counted : tensor.shape.prod ≠ 0 := by
    intro none
    rw [none, Nat.zero_mul] at whole
    omega
  unfold frombuffer
  rw [dif_pos ⟨rfl, counted, by omega⟩]
  refine congrArg Except.ok (Tensor.ext rfl rfl ?_)
  dsimp only
  rw [← whole]
  exact bytes

theorem flatMap_slice {α β : Type} {size : Nat} {layer : α → List β} (layers : List α)
    (sized : ∀ l ∈ layers, (layer l).length = size) (i : Nat) (lt : i < layers.length) :
    ((layers.flatMap layer).drop (i * size)).take size = layer layers[i] := by
  induction layers generalizing i with
  | nil => exact absurd lt (Nat.not_lt_zero i)
  | cons first layers ih =>
    have firstSize := sized first mem_cons_self
    rw [flatMap_cons]
    cases i with
    | zero => rw [Nat.zero_mul, drop_zero, ← firstSize, take_left, getElem_cons_zero]
    | succ i =>
      rw [Nat.succ_mul, Nat.add_comm, ← drop_drop, ← firstSize, drop_left, firstSize,
        getElem_cons_succ]
      exact ih (fun l mem => sized l (mem_cons_of_mem _ mem)) i
        (Nat.lt_of_succ_lt_succ lt)

namespace BankSet

variable (banks : BankSet)

theorem layer_length (role : List Char) (layerId : Fin banks.numLayers) :
    (banks.layer role layerId).bytes.length = (banks.bank role).layerBytes banks.numExperts := by
  rw [(banks.layer role layerId).whole]
  exact mul_assoc _ _ _

theorem cat_length (role : List Char) : (banks.cat role).bytes.length =
    (banks.bank role).layerBytes banks.numExperts * banks.numLayers := by
  rw [(banks.cat role).whole, mul_comm _ banks.numLayers]
  unfold cat Bank.layerBytes
  rw [prod_cons, mul_assoc, mul_assoc]

theorem cat_slice (role : List Char) (layerId : Fin banks.numLayers) : ((banks.cat role).bytes.drop
        (layerId * (banks.bank role).layerBytes banks.numExperts)).take
        ((banks.bank role).layerBytes banks.numExperts) = (banks.layer role layerId).bytes := by
  have lt : layerId.val < (finRange banks.numLayers).length := by
    rw [length_finRange]
    exact layerId.isLt
  have slice := flatMap_slice (finRange banks.numLayers)
    (fun other _ => banks.layer_length role other) layerId.val lt
  rw [getElem_finRange] at slice
  exact slice

end BankSet

/-- **The blocks around a layer**: they are in the blocks of the bank, and have all of the layer. -/
structure WindowFits (totalBytes : Nat) (e : Entry) (layerBytes layerId : Nat) : Prop where
  firstAligned : ALIGN ∣ (window e layerBytes layerId).1
  lastAligned : ALIGN ∣ (window e layerBytes layerId).2
  start : e.globalOff ≤ (window e layerBytes layerId).1
  first : (window e layerBytes layerId).1 ≤ e.globalOff + layerId * layerBytes
  last : e.globalOff + layerId * layerBytes + layerBytes ≤ (window e layerBytes layerId).2
  stop : (window e layerBytes layerId).2 ≤ e.globalOff + alignUp e.nbytes
  inside : (window e layerBytes layerId).2 ≤ totalBytes

theorem window_fits {totalBytes : Nat} {e : Entry} {layerBytes numLayers layerId : Nat}
    (aligned : ALIGN ∣ e.globalOff) (sized : layerBytes * numLayers = e.nbytes)
    (isLayer : layerId < numLayers) (lt : e.globalOff + alignUp e.nbytes ≤ totalBytes) :
    WindowFits totalBytes e layerBytes layerId := by
  have upper : layerId * layerBytes + layerBytes ≤ e.nbytes := by
    rw [← sized, ← Nat.succ_mul, Nat.mul_comm]
    exact Nat.mul_le_mul_left _ isLayer
  have least := le_alignUp e.nbytes
  have stop : alignUp (e.globalOff + layerId * layerBytes + layerBytes) ≤
      e.globalOff + alignUp e.nbytes :=
    alignUp_le (by omega) (Nat.dvd_add aligned (alignUp_dvd _))
  refine ⟨Nat.dvd_mul_left _ _, alignUp_dvd _, ?_, Nat.div_mul_le_self _ _, le_alignUp _, stop,
    stop.trans lt⟩
  obtain ⟨block, isBlock⟩ := aligned
  have below : block ≤ (e.globalOff + layerId * layerBytes) / ALIGN := by
    rw [Nat.le_div_iff_mul_le (show 0 < ALIGN by decide), Nat.mul_comm, ← isBlock]
    exact Nat.le_add_right _ _
  calc e.globalOff = block * ALIGN := by rw [isBlock, Nat.mul_comm]
    _ ≤ (e.globalOff + layerId * layerBytes) / ALIGN * ALIGN := Nat.mul_le_mul_right _ below

theorem hostBank_ok {shape : List Nat} {dtype : DType} (some_ : shape.prod * dtype.itemsize ≠ 0) :
    hostBank shape dtype = .ok (List.replicate (alignUp (shape.prod * dtype.itemsize)) 0) := by
  have least := le_alignUp (shape.prod * dtype.itemsize)
  exact if_neg (by omega)

theorem itemsize_dvd (dtype : DType) : dtype.itemsize ∣ ALIGN := by
  cases dtype <;> decide

variable {role : List Char}

section Load

variable {c : Checkpoint} {limit : Nat} {region : Bytes} {writes : List Write}
  (archive : Archive c limit region writes) (banks : BankSet) (backend : Backend)
  {order : List Piece → List Piece} (anyOrder : ∀ jobs, (order jobs).Perm jobs) {chunk : Nat}
  (pos : 0 < chunk) (chunkAligned : ALIGN ∣ chunk)

include archive anyOrder pos chunkAligned

theorem readWhole_spec {write : Write} (recorded : Recorded region e write)
    (some_ : write.tensor.bytes ≠ []) :
    ∃ buf filled, hostBank e.shape write.tensor.dtype = .ok buf ∧
      readInto c backend order chunk buf e.globalOff e.nbytes = .ok filled ∧
      frombuffer filled write.tensor.dtype e.shape.prod e.shape = .ok write.tensor := by
  have size : e.shape.prod * write.tensor.dtype.itemsize = e.nbytes := by
    rw [recorded.shape, recorded.nbytes, write.tensor.whole]
  have least := le_alignUp e.nbytes
  have lt := recorded.inside
  have length := length_pos_iff.mpr some_
  have isSize := recorded.nbytes
  have buffer : hostBank e.shape write.tensor.dtype = .ok (replicate (alignUp e.nbytes) 0) := by
    rw [hostBank_ok (by omega), size]
  have room : alignUp e.nbytes ≤ (replicate (alignUp e.nbytes) (0 : UInt8)).length :=
    length_replicate.ge
  have within : e.globalOff + e.nbytes ≤ region.length := by omega
  obtain ⟨filled, read, -, bytes⟩ := readInto_spec archive backend anyOrder pos chunkAligned
    recorded.aligned within room
  refine ⟨_, filled, buffer, read, ?_⟩
  rw [recorded.bytes, isSize] at bytes
  rw [recorded.shape]
  exact frombuffer_tensor some_ bytes

theorem readWindow_spec (recorded : Recorded region e (catWrite banks role))
    (some_ : (banks.bank role).layerBytes banks.numExperts ≠ 0) (layerId : Fin banks.numLayers) :
    let size := (banks.bank role).layerBytes banks.numExperts
    let win := window e size layerId
    ∃ buf, hostBank [win.2 - win.1] .uint8 = .ok buf ∧
      readRow c backend order chunk ⟨buf, win.1, win.2 - win.1,
        .slice (e.globalOff + layerId * size - win.1) size,
        banks.numExperts :: (banks.bank role).rowShape, (banks.bank role).dtype⟩ =
          .ok (banks.layer role layerId) := by
  intro size win
  have sized : size * banks.numLayers = e.nbytes :=
    (banks.cat_length role).symm.trans recorded.nbytes.symm
  have fits : WindowFits region.length e size layerId :=
    window_fits recorded.aligned sized layerId.isLt recorded.inside
  have first : win.1 ≤ e.globalOff + layerId * size := fits.first
  have last : e.globalOff + layerId * size + size ≤ win.2 := fits.last
  have lt : win.2 ≤ region.length := fits.inside
  have upper : layerId * size + size ≤ e.nbytes := by
    rw [← sized, ← Nat.succ_mul, Nat.mul_comm]
    exact Nat.mul_le_mul_left _ layerId.isLt
  have length : [win.2 - win.1].prod * DType.uint8.itemsize = win.2 - win.1 := by
    rw [prod_singleton]
    exact Nat.mul_one _
  have buffer : hostBank [win.2 - win.1] .uint8 = .ok (replicate (alignUp (win.2 - win.1)) 0) := by
    rw [hostBank_ok (by omega), length]
  have room : alignUp (win.2 - win.1) ≤
      (replicate (alignUp (win.2 - win.1)) (0 : UInt8)).length := length_replicate.ge
  have within : win.1 + (win.2 - win.1) ≤ region.length := by omega
  obtain ⟨filled, read, -, bytes⟩ := readInto_spec archive backend anyOrder pos chunkAligned
    fits.firstAligned within room
  have slice : (filled.drop (e.globalOff + layerId * size - win.1)).take size =
      (banks.layer role layerId).bytes := by
    calc (filled.drop (e.globalOff + layerId * size - win.1)).take size
        = ((filled.take (win.2 - win.1)).drop (e.globalOff + layerId * size - win.1)).take size := by
          rw [drop_take, take_take, Nat.min_eq_left (by omega)]
      _ = (region.drop (e.globalOff + layerId * size)).take size := by
          rw [bytes, drop_take, take_take, Nat.min_eq_left (by omega), drop_drop,
            Nat.add_sub_cancel' first]
      _ = (((region.drop e.globalOff).take e.nbytes).drop (layerId * size)).take size := by
          rw [drop_take, take_take, Nat.min_eq_left (by omega), drop_drop]
      _ = (banks.layer role layerId).bytes := by
          rw [recorded.bytes]
          exact banks.cat_slice role layerId
  have sizeDvd : (banks.bank role).dtype.itemsize ∣ size :=
    Dvd.dvd.mul_left (Nat.dvd_mul_left _ _) _
  have headDvd : (banks.bank role).dtype.itemsize ∣ e.globalOff + layerId * size - win.1 :=
    Nat.dvd_sub (Nat.dvd_add ((itemsize_dvd _).trans recorded.aligned) (sizeDvd.mul_left _))
      ((itemsize_dvd _).trans fits.firstAligned)
  have layerSize : (banks.layer role layerId).bytes.length = size := banks.layer_length role layerId
  have count : size / (banks.bank role).dtype.itemsize = (banks.layer role layerId).shape.prod := by
    rw [← layerSize, (banks.layer role layerId).whole]
    exact Nat.mul_div_cancel _ (itemsize_pos _)
  have viewed : frombuffer ((filled.drop (e.globalOff + layerId * size - win.1)).take size)
      (banks.bank role).dtype (size / (banks.bank role).dtype.itemsize)
      (banks.numExperts :: (banks.bank role).rowShape) = .ok (banks.layer role layerId) := by
    rw [slice, count]
    refine frombuffer_tensor (length_pos_iff.mp ?_) take_length
    rw [layerSize]
    exact Nat.pos_of_ne_zero some_
  have unaligned : ¬((e.globalOff + layerId * size - win.1) % (banks.bank role).dtype.itemsize ≠ 0 ∨
      size % (banks.bank role).dtype.itemsize ≠ 0) := by
    rw [not_or, not_not, not_not]
    exact ⟨Nat.mod_eq_zero_of_dvd headDvd, Nat.mod_eq_zero_of_dvd sizeDvd⟩
  refine ⟨_, buffer, bind_ok_iff.mpr ⟨filled, read, ?_⟩⟩
  unfold rowTensor
  dsimp only
  rw [if_neg unaligned]
  exact viewed

/-! ### Banks -/

omit archive anyOrder pos chunkAligned in
theorem rows_served {rows : List RowBank}
    (each : List.Forall₂ (fun layerId row => ∃ isLayer : layerId < banks.numLayers,
      readRow c backend order chunk row = .ok (banks.layer role ⟨layerId, isLayer⟩))
      (List.range banks.numLayers) rows) :
    rows.mapM (readRow c backend order chunk) =
      .ok ((List.finRange banks.numLayers).map (banks.layer role)) := by
  rw [← map_coe_finRange_eq_range, forall₂_map_left_iff] at each
  exact mapM_of_forall₂ (each.imp fun layerId row read => read.choose_spec)

/-- The blocks around a layer lie in the region of the bank and have all of the layer. -/
theorem flatBanks_spec
    (recorded : Recorded region e (catWrite banks role))
    (some_ : (banks.bank role).layerBytes banks.numExperts ≠ 0) :
    ∃ rows, flatBanks banks.numLayers e = .ok (diskName banks.format role, rows) ∧
      rows.mapM (readRow c backend order chunk) =
        .ok ((List.finRange banks.numLayers).map (banks.layer role)) := by
  have isShape : e.shape = banks.numLayers * banks.numExperts :: (banks.bank role).rowShape :=
    recorded.shape
  have isDType : dtypeOf e.dtype = .ok (banks.bank role).dtype := by
    rw [recorded.dtype]
    exact dtypeOf_dtypeStr _
  have sized : (banks.bank role).layerBytes banks.numExperts * banks.numLayers = e.nbytes :=
    (banks.cat_length role).symm.trans recorded.nbytes.symm
  have numExperts : banks.numLayers * banks.numExperts / banks.numLayers = banks.numExperts :=
    Nat.mul_div_cancel_left _ banks.someLayer
  have isName : e.name = diskName banks.format role := recorded.name
  obtain ⟨rows, done, each⟩ : ∃ rows, (range banks.numLayers).mapM
        (flatRow e banks.numExperts (banks.bank role).rowShape (banks.bank role).dtype
          ((banks.bank role).layerBytes banks.numExperts)) = .ok rows ∧
      Forall₂ (fun layerId row => ∃ isLayer : layerId < banks.numLayers,
        readRow c backend order chunk row = .ok (banks.layer role ⟨layerId, isLayer⟩))
        (range banks.numLayers) rows := by
    refine mapM_ok fun layerId mem => ?_
    have isLayer := mem_range.mp mem
    obtain ⟨buf, buffer, read⟩ := readWindow_spec archive banks backend anyOrder pos
      chunkAligned recorded some_ ⟨layerId, isLayer⟩
    exact ⟨_, bind_ok_iff.mpr ⟨buf, buffer, rfl⟩, isLayer, read⟩
  refine ⟨rows, ?_, rows_served banks backend each⟩
  unfold flatBanks
  rw [isShape]
  dsimp only
  rw [if_neg (not_not.mpr (Nat.mul_mod_right _ _)), numExperts]
  refine bind_ok_iff.mpr ⟨_, isDType, (if_neg (not_not.mpr sized)).trans ?_⟩
  rw [isName]
  exact bind_ok_iff.mpr ⟨rows, done, rfl⟩

/-- An entry for each layer. -/
theorem layerBanks_spec {group : Dict Nat Entry} (nodup : group.keys.Nodup)
    (complete : ∀ layerId, layerId ∈ group.keys ↔ layerId < banks.numLayers)
    (members : ∀ item ∈ group, ∃ isLayer : item.1 < banks.numLayers,
      Recorded region item.2 (layerWrite banks ⟨item.1, isLayer⟩ role))
    (some_ : (banks.bank role).layerBytes banks.numExperts ≠ 0) :
    ∃ rows, layerBanks banks.numLayers (diskName banks.format role, group) =
        .ok (diskName banks.format role, rows) ∧
      rows.mapM (readRow c backend order chunk) =
        .ok ((List.finRange banks.numLayers).map (banks.layer role)) := by
  have sorted : group.keys.insertionSort (· ≤ ·) = range banks.numLayers := by
    have perm : group.keys.Perm (range banks.numLayers) := by
      refine (perm_ext_iff_of_nodup nodup nodup_range).mpr fun layerId => ?_
      rw [complete, mem_range]
    exact ((perm_insertionSort _ _).trans perm).eq_of_pairwise'
      (pairwise_insertionSort _ _) pairwise_le_range
  obtain ⟨rows, done, each⟩ : ∃ rows, (range banks.numLayers).mapM (layerRow group) = .ok rows ∧
      Forall₂ (fun layerId row => ∃ isLayer : layerId < banks.numLayers,
        readRow c backend order chunk row = .ok (banks.layer role ⟨layerId, isLayer⟩))
        (range banks.numLayers) rows := by
    refine mapM_ok fun layerId mem => ?_
    obtain ⟨e, found, isItem⟩ := Dict.get?_of_mem_keys ((complete layerId).mpr (mem_range.mp mem))
    obtain ⟨isLayer, recorded⟩ := members _ isItem
    have bytes : (banks.layer role ⟨layerId, isLayer⟩).bytes ≠ [] := by
      refine length_pos_iff.mp ?_
      rw [banks.layer_length]
      exact pos_of_ne_zero some_
    obtain ⟨buf, filled, buffer, read, viewed⟩ := readWhole_spec archive backend anyOrder pos
      chunkAligned recorded bytes
    have isDType : dtypeOf e.dtype = .ok (banks.layer role ⟨layerId, isLayer⟩).dtype := by
      rw [recorded.dtype]
      exact dtypeOf_dtypeStr _
    refine ⟨⟨buf, e.globalOff, e.nbytes, .all, e.shape, _⟩, ?_, isLayer,
      bind_ok_iff.mpr ⟨filled, read, viewed⟩⟩
    unfold layerRow
    rw [found]
    dsimp only
    rw [if_neg (not_not.mpr (Nat.mod_eq_zero_of_dvd recorded.aligned))]
    exact bind_ok_iff.mpr ⟨_, isDType, bind_ok_iff.mpr ⟨buf, buffer, rfl⟩⟩
  refine ⟨rows, ?_, rows_served banks backend each⟩
  unfold layerBanks
  rw [if_neg (not_not.mpr sorted)]
  exact bind_ok_iff.mpr ⟨rows, done, rfl⟩

end Load

/-! ### The loader -/

/-- **When the loader returns banks**, and what. -/
theorem loadFtwBanks_iff {c : Checkpoint} {numLayers : Nat} {backend : Backend}
    {order : List Piece → List Piece} {chunk : Nat} {format : List Char} {loaded : ExpertBanks}
    (some_ : c.entries [expertsBank] ≠ [])
    (isLayers : c.index.expertBankNumLayers = some numLayers)
    (isFormat : c.index.quantFormat = some format) :
    loadFtwBanks c numLayers backend order chunk = .ok (some loaded) ↔
      (∀ e ∈ c.flatEntries, e.name ∉ (layerGroups c.rowEntries).keys) ∧
      ∃ flat byLayer alphas sources kindKernel,
        c.flatEntries.mapM (flatBanks numLayers) = .ok flat ∧
        (layerGroups c.rowEntries).mapM (layerBanks numLayers) = .ok byLayer ∧
        c.alphaEntries.mapM (readAlpha c backend order chunk) = .ok alphas ∧
        (Dict.ofList (flat ++ byLayer)).mapM (readBank c backend order chunk) = .ok sources ∧
        kindKernelFor format = .ok kindKernel ∧
        loaded = ⟨Dict.ofList sources, Dict.ofList alphas, some kindKernel⟩ := by
  have sameLayers : ¬(c.index.expertBankNumLayers.any (· ≠ numLayers)) = true := by
    rw [isLayers]
    simp
  have apart : ¬(c.flatEntries.any fun e => (layerGroups c.rowEntries).keys.contains e.name) = true ↔
      ∀ e ∈ c.flatEntries, e.name ∉ (layerGroups c.rowEntries).keys := by
    simp
  unfold loadFtwBanks
  rw [if_neg some_, if_neg sameLayers, isFormat]
  by_cases overlap : (c.flatEntries.any fun e =>
      (layerGroups c.rowEntries).keys.contains e.name) = true
  · rw [if_pos overlap]
    refine ⟨fun done => ?_, fun both => absurd overlap (apart.mpr both.1)⟩
    cases done
  · rw [if_neg overlap]
    constructor
    · intro done
      obtain ⟨flat, flatDone, done⟩ := bind_ok_iff.mp done
      obtain ⟨byLayer, byLayerDone, done⟩ := bind_ok_iff.mp done
      obtain ⟨alphas, alphasDone, done⟩ := bind_ok_iff.mp done
      obtain ⟨sources, sourcesDone, done⟩ := bind_ok_iff.mp done
      obtain ⟨found, kindDone, done⟩ := bind_ok_iff.mp done
      obtain ⟨kindKernel, isKind, rfl⟩ : ∃ kindKernel,
          kindKernelFor format = .ok kindKernel ∧ found = some kindKernel := by
        cases isKind : kindKernelFor format with
        | error err =>
          rw [isKind] at kindDone
          cases kindDone
        | ok kindKernel =>
          rw [isKind] at kindDone
          cases kindDone
          exact ⟨kindKernel, rfl, rfl⟩
      cases done
      exact ⟨apart.mp overlap, flat, byLayer, alphas, sources, kindKernel, flatDone, byLayerDone,
        alphasDone, sourcesDone, isKind, rfl⟩
    · rintro ⟨-, flat, byLayer, alphas, sources, kindKernel, flatDone, byLayerDone, alphasDone,
        sourcesDone, isKind, rfl⟩
      refine bind_ok_iff.mpr ⟨flat, flatDone, bind_ok_iff.mpr ⟨byLayer, byLayerDone,
        bind_ok_iff.mpr ⟨alphas, alphasDone, bind_ok_iff.mpr ⟨sources, sourcesDone,
        bind_ok_iff.mpr ⟨some kindKernel, ?_, rfl⟩⟩⟩⟩⟩
      rw [isKind]
      rfl

/-! ### Layouts -/

def Conversion.FiveDigits {numLayers : Nat} : Conversion numLayers → Prop
  | .streamed _ => numLayers ≤ 100000
  | .materialized => True

theorem diskName_injective {format : Format} {role other : List Char} (isRole : role ∈ format.roles)
    (otherRole : other ∈ format.roles) (same : diskName format role = diskName format other) :
    role = other := by
  rw [← canonicalRole_diskName format role isRole, same, canonicalRole_diskName format other otherRole]

section Layouts

variable {c : Checkpoint} {limit : Nat} {region : Bytes} {dense : List (List Char × Tensor)}
  {banks : BankSet}

theorem streamed_match {layerId : Nat} (isRole : role ∈ banks.roles) (small : layerId < 100000) :
    matchLayerEntry (layerBankEntryName (diskName banks.format role) layerId) =
      some (diskName banks.format role, layerId) := by
  obtain ⟨some_, plain, -, -⟩ := diskName_plain banks.format role isRole
  exact matchLayerEntry_name some_ plain small

section Streamed

variable {completions : List (Fin banks.numLayers)}
  (archive : Archive c limit region (allWrites dense banks (.streamed completions)))

include archive

theorem streamed_entry (mem : e ∈ c.rowEntries) :
    ∃ layerId ∈ completions, ∃ role ∈ banks.roles, Recorded region e (layerWrite banks layerId role) ∧
      e.name = layerBankEntryName (diskName banks.format role) layerId := by
  obtain ⟨write, isWrite, recorded⟩ := rowEntry_write archive mem
  obtain ⟨layerId, isLayer, ofLayer⟩ := mem_flatMap.mp isWrite
  obtain ⟨role, isRole, rfl⟩ := mem_map.mp ofLayer
  refine ⟨layerId, isLayer, role, isRole, recorded, recorded.name.trans ?_⟩
  exact congrArg (layerBankEntryName · _) (sinkName_eq banks.format role isRole)

theorem streamed_grouped {layerId : Fin banks.numLayers} (isLayer : layerId ∈ completions) (isRole : role ∈ banks.roles) (small : layerId.val < 100000) :
    diskName banks.format role ∈ (layerGroups c.rowEntries).keys ∧
      ∀ group ∈ layerGroups c.rowEntries, group.1 = diskName banks.format role →
        layerId.val ∈ group.2.keys := by
  have isWrite : layerWrite banks layerId role ∈ bankWrites banks (.streamed completions) :=
    mem_flatMap.mpr ⟨layerId, isLayer, mem_map_of_mem isRole⟩
  obtain ⟨e, isEntry, recorded⟩ := write_rowEntry archive isWrite
  refine (layerGroups_spec c.rowEntries).complete e isEntry _ _ ?_
  have isName : e.name = layerBankEntryName (diskName banks.format role) layerId :=
    recorded.name.trans (congrArg (layerBankEntryName · _) (sinkName_eq banks.format role isRole))
  rw [isName]
  exact streamed_match isRole small

theorem streamed_group (complete : completions.Perm (List.finRange banks.numLayers))
    (small : banks.numLayers ≤ 100000) {group : List Char × Dict Nat Entry}
    (isGroup : group ∈ layerGroups c.rowEntries) :
    ∃ role ∈ banks.roles, group.1 = diskName banks.format role ∧
      (∀ layerId, layerId ∈ group.2.keys ↔ layerId < banks.numLayers) ∧
      ∀ item ∈ group.2, ∃ isLayer : item.1 < banks.numLayers,
        Recorded region item.2 (layerWrite banks ⟨item.1, isLayer⟩ role) := by
  have grouped := layerGroups_spec c.rowEntries
  have each : ∀ item ∈ group.2, ∃ layerId : Fin banks.numLayers, ∃ role ∈ banks.roles,
      Recorded region item.2 (layerWrite banks layerId role) ∧
      group.1 = diskName banks.format role ∧ item.1 = layerId.val := by
    intro item isItem
    obtain ⟨isEntry, matched⟩ := grouped.members group isGroup item isItem
    obtain ⟨layerId, -, role, isRole, recorded, isName⟩ := streamed_entry archive isEntry
    rw [isName, streamed_match isRole (layerId.isLt.trans_le small)] at matched
    obtain ⟨sameBank, sameLayer⟩ := Prod.mk.inj (Option.some.inj matched)
    exact ⟨layerId, role, isRole, recorded, sameBank.symm, sameLayer.symm⟩
  obtain ⟨someLayer, isKey⟩ := grouped.some_ group isGroup
  obtain ⟨e, -, isItem⟩ := Dict.get?_of_mem_keys isKey
  obtain ⟨-, role, isRole, -, isBank, -⟩ := each _ isItem
  have members : ∀ item ∈ group.2, ∃ isLayer : item.1 < banks.numLayers,
      Recorded region item.2 (layerWrite banks ⟨item.1, isLayer⟩ role) := by
    intro item isItem
    obtain ⟨layerId, other, otherRole, recorded, otherBank, sameLayer⟩ := each item isItem
    have same : role = other := diskName_injective isRole otherRole (isBank.symm.trans otherBank)
    refine ⟨sameLayer ▸ layerId.isLt, ?_⟩
    rw [same]
    have isFin : (⟨item.1, sameLayer ▸ layerId.isLt⟩ : Fin banks.numLayers) = layerId :=
      Fin.ext sameLayer
    rw [isFin]
    exact recorded
  refine ⟨role, isRole, isBank, fun layerId => ⟨fun isKey => ?_, fun isLayer => ?_⟩, members⟩
  · obtain ⟨e, -, isItem⟩ := Dict.get?_of_mem_keys isKey
    exact (members _ isItem).1
  · exact (streamed_grouped archive (complete.mem_iff.mpr (mem_finRange ⟨layerId, isLayer⟩))
      isRole (isLayer.trans_le small)).2 group isGroup isBank

end Streamed

section Materialized

variable (archive : Archive c limit region (allWrites dense banks .materialized))

include archive

theorem materialized_entry (mem : e ∈ c.rowEntries) :
    ∃ role ∈ banks.roles, Recorded region e (catWrite banks role) ∧
      matchLayerEntry e.name = none := by
  obtain ⟨write, isWrite, recorded⟩ := rowEntry_write archive mem
  obtain ⟨role, isRole, rfl⟩ := mem_map.mp isWrite
  refine ⟨role, isRole, recorded, ?_⟩
  rw [recorded.name]
  exact (diskName_plain banks.format role isRole).2.2.1

theorem materialized_groups : layerGroups c.rowEntries = [] := by
  have grouped := layerGroups_spec c.rowEntries
  refine eq_nil_iff_forall_not_mem.mpr fun group isGroup => ?_
  obtain ⟨layerId, isKey⟩ := grouped.some_ group isGroup
  obtain ⟨e, -, isItem⟩ := Dict.get?_of_mem_keys isKey
  obtain ⟨isEntry, matched⟩ := grouped.members group isGroup _ isItem
  obtain ⟨-, -, -, unmatched⟩ := materialized_entry archive isEntry
  rw [unmatched] at matched
  cases matched

end Materialized

/-- **The loader returns the layers** that the converter was given: of every bank each layer in its
place; the blocks around a layer of a bank that is one region are in the blocks of the bank, and
have all of the layer. -/
structure Layered (banks : BankSet) (c : Checkpoint) (loaded : ExpertBanks) : Prop where
  sources : ∀ role ∈ banks.roles,
    loaded.sources.get? role = some ((List.finRange banks.numLayers).map (banks.layer role))
  windows : ∀ e ∈ c.flatEntries, ∀ layerId < banks.numLayers,
    WindowFits c.index.totalBytes e (e.nbytes / banks.numLayers) layerId

theorem kindKernelFor_iff (format : Format) :
    (∃ kindKernel, kindKernelFor format.tag = .ok kindKernel) ↔
      format ≠ .q4_0 ∧ format ≠ .gguf := by
  have failed : ∀ {kindKernel : List Char × List Char},
      (Except.error FtwError.key : Except FtwError (List Char × List Char)) ≠ .ok kindKernel := by
    intro kindKernel found
    cases found
  cases format with
  | q4_0 => exact ⟨fun found => absurd found.choose_spec failed, fun fine => absurd rfl fine.1⟩
  | gguf => exact ⟨fun found => absurd found.choose_spec failed, fun fine => absurd rfl fine.2⟩
  | _ => exact ⟨fun _ => by decide, fun _ => ⟨_, rfl⟩⟩

section Load

variable {conversion : Conversion banks.numLayers}
  (archive : Archive c limit region (allWrites dense banks conversion)) (backend : Backend)
  {order : List Piece → List Piece} (anyOrder : ∀ jobs, (order jobs).Perm jobs) {chunk : Nat}
  (pos : 0 < chunk) (chunkAligned : ALIGN ∣ chunk) (complete : conversion.Complete)
  (some_ : ∀ role ∈ banks.roles, (banks.bank role).layerBytes banks.numExperts ≠ 0)
  (digits : conversion.FiveDigits)

include archive complete in
theorem bankEntries_ne_nil : c.entries [expertsBank] ≠ [] := by
  obtain ⟨write, isWrite⟩ : ∃ write, write ∈ bankWrites banks conversion := by
    obtain ⟨role, isRole⟩ := exists_mem_of_ne_nil _ (roles_ne_nil banks.format)
    cases conversion with
    | streamed completions =>
      exact ⟨_, mem_flatMap.mpr ⟨⟨0, banks.someLayer⟩,
        complete.mem_iff.mpr (mem_finRange _), mem_map_of_mem isRole⟩⟩
    | materialized => exact ⟨_, mem_map_of_mem isRole⟩
  obtain ⟨e, isEntry, -⟩ := write_rowEntry archive isWrite
  exact ne_nil_of_mem (mem_of_mem_filter isEntry)

def Served (c : Checkpoint) (banks : BankSet) (backend : Backend)
    (order : List Piece → List Piece) (chunk : Nat) (bank : List Char × List RowBank) : Prop :=
  ∃ role ∈ banks.roles, bank.1 = diskName banks.format role ∧
    bank.2.mapM (readRow c backend order chunk) =
      .ok ((List.finRange banks.numLayers).map (banks.layer role))

include archive anyOrder pos chunkAligned complete some_ digits in
theorem buffers_spec : (∀ e ∈ c.flatEntries, e.name ∉ (layerGroups c.rowEntries).keys) ∧
    ∃ flat byLayer, c.flatEntries.mapM (flatBanks banks.numLayers) = .ok flat ∧
      (layerGroups c.rowEntries).mapM (layerBanks banks.numLayers) = .ok byLayer ∧
      (∀ bank ∈ flat ++ byLayer, Served c banks backend order chunk bank) ∧
      ∀ role ∈ banks.roles, ∃ rows, (diskName banks.format role, rows) ∈ flat ++ byLayer := by
  cases conversion with
  | streamed completions =>
    have noFlat : c.flatEntries = [] := by
      refine filter_eq_nil_iff.mpr fun e isEntry => ?_
      obtain ⟨layerId, -, role, isRole, -, isName⟩ := streamed_entry archive isEntry
      rw [isName, streamed_match isRole (layerId.isLt.trans_le digits)]
      exact Bool.false_ne_true
    obtain ⟨byLayer, done, each⟩ : ∃ byLayer,
        (layerGroups c.rowEntries).mapM (layerBanks banks.numLayers) = .ok byLayer ∧
        Forall₂ (fun group bank => bank.1 = group.1 ∧
          Served c banks backend order chunk bank) (layerGroups c.rowEntries) byLayer := by
      refine mapM_ok fun group isGroup => ?_
      obtain ⟨role, isRole, isBank, allLayers, members⟩ :=
        streamed_group archive complete digits isGroup
      obtain ⟨rows, built, read⟩ := layerBanks_spec archive banks backend anyOrder pos
        chunkAligned ((layerGroups_spec _).layers group isGroup) allLayers members
        (some_ role isRole)
      rw [← isBank] at built
      exact ⟨_, built, rfl, role, isRole, isBank, read⟩
    rw [noFlat]
    refine ⟨nofun, [], byLayer, rfl, done, ?_, ?_⟩
    · intro bank isBank
      obtain ⟨group, -, -, served⟩ := forall₂_mem each.flip bank isBank
      exact served
    · intro role isRole
      have isKey := (streamed_grouped archive (complete.mem_iff.mpr (mem_finRange
        ⟨0, banks.someLayer⟩)) isRole (banks.someLayer.trans_le digits)).1
      obtain ⟨group, isGroup, isName⟩ := mem_map.mp isKey
      obtain ⟨bank, isBank, sameName, -⟩ := forall₂_mem each group isGroup
      exact ⟨bank.2, isName ▸ sameName ▸ isBank⟩
  | materialized =>
    have noGroups := materialized_groups archive
    obtain ⟨flat, done, each⟩ : ∃ flat, c.flatEntries.mapM (flatBanks banks.numLayers) = .ok flat ∧
        Forall₂ (fun e bank => bank.1 = e.name ∧ Served c banks backend order chunk bank)
          c.flatEntries flat := by
      refine mapM_ok fun e isFlat => ?_
      obtain ⟨role, isRole, recorded, -⟩ := materialized_entry archive (mem_of_mem_filter isFlat)
      obtain ⟨rows, built, read⟩ := flatBanks_spec archive banks backend anyOrder pos
        chunkAligned recorded (some_ role isRole)
      exact ⟨_, built, recorded.name.symm, role, isRole, rfl, read⟩
    rw [noGroups]
    refine ⟨fun _ _ => not_mem_nil, flat, [], done, rfl, ?_, ?_⟩
    · intro bank isBank
      rw [append_nil] at isBank
      obtain ⟨e, -, -, served⟩ := forall₂_mem each.flip bank isBank
      exact served
    · intro role isRole
      obtain ⟨e, isEntry, recorded⟩ := write_rowEntry archive
        (mem_map_of_mem isRole : catWrite banks role ∈ bankWrites banks .materialized)
      obtain ⟨-, -, -, unmatched⟩ := materialized_entry archive isEntry
      have isFlat : e ∈ c.flatEntries :=
        mem_filter.mpr ⟨isEntry, Option.isNone_iff_eq_none.mpr unmatched⟩
      obtain ⟨bank, isBank, sameName, -⟩ := forall₂_mem each e isFlat
      have isName : bank.1 = diskName banks.format role := sameName.trans recorded.name
      exact ⟨bank.2, mem_append_left _ (isName ▸ isBank)⟩

include archive anyOrder pos chunkAligned some_ in
theorem alphas_spec : ∃ alphas, c.alphaEntries.mapM (readAlpha c backend order chunk) =
    .ok alphas := by
  have experts : banks.numExperts ≠ 0 := by
    obtain ⟨role, isRole⟩ := exists_mem_of_ne_nil _ (roles_ne_nil banks.format)
    exact left_ne_zero_of_mul (some_ role isRole)
  obtain ⟨alphas, done, -⟩ : ∃ alphas, c.alphaEntries.mapM (readAlpha c backend order chunk) =
      .ok alphas ∧ Forall₂ (fun _ _ => True) c.alphaEntries alphas := by
    refine mapM_ok fun e isAlpha => ?_
    obtain ⟨item, isItem, recorded⟩ := alphaEntry_write archive isAlpha
    have isShape : item.2.shape = [banks.numLayers * banks.numExperts] := by
      refine banks.alphaShape item.2 ?_
      rcases mem_append.mp isItem with isGateUp | isDown
      · obtain ⟨alpha, isSome, rfl⟩ := Option.map_eq_some_iff.mp (Option.mem_toList.mp isGateUp)
        exact .inl isSome
      · obtain ⟨alpha, isSome, rfl⟩ := Option.map_eq_some_iff.mp (Option.mem_toList.mp isDown)
        exact .inr isSome
    have bytes : (alphaWrite item).tensor.bytes ≠ [] := by
      refine length_pos_iff.mp ?_
      rw [(alphaWrite item).tensor.whole]
      change 0 < item.2.shape.prod * item.2.dtype.itemsize
      rw [isShape, prod_singleton]
      exact mul_pos (mul_pos banks.someLayer (pos_of_ne_zero experts)) (itemsize_pos _)
    obtain ⟨buf, filled, buffer, read, viewed⟩ := readWhole_spec archive backend anyOrder pos
      chunkAligned recorded bytes
    have isDType : dtypeOf e.dtype = .ok (alphaWrite item).tensor.dtype := by
      rw [recorded.dtype]
      exact dtypeOf_dtypeStr _
    exact ⟨_, bind_ok_iff.mpr ⟨_, isDType, bind_ok_iff.mpr ⟨buf, buffer, bind_ok_iff.mpr ⟨filled, read,
      bind_ok_iff.mpr ⟨_, viewed, rfl⟩⟩⟩⟩, trivial⟩
  exact ⟨alphas, done⟩

include archive anyOrder pos chunkAligned complete some_ digits in
/-- **The layers are loaded**, from either layout. -/
theorem load_spec (isLayers : c.index.expertBankNumLayers = some banks.numLayers)
    (isFormat : c.index.quantFormat = some banks.format.tag)
    (kernel : banks.format ≠ .q4_0 ∧ banks.format ≠ .gguf) :
    ∃ loaded, loadFtwBanks c banks.numLayers backend order chunk = .ok (some loaded) ∧
      Layered banks c loaded := by
  obtain ⟨apart, flat, byLayer, flatDone, byLayerDone, served, allRoles⟩ := buffers_spec archive
    backend anyOrder pos chunkAligned complete some_ digits
  obtain ⟨alphas, alphasDone⟩ := alphas_spec archive backend anyOrder pos chunkAligned some_
  obtain ⟨kindKernel, isKind⟩ := (kindKernelFor_iff banks.format).mpr kernel
  obtain ⟨sources, sourcesDone, each⟩ : ∃ sources,
      (Dict.ofList (flat ++ byLayer)).mapM (readBank c backend order chunk) = .ok sources ∧
      Forall₂ (fun bank source => ∃ role ∈ banks.roles, bank.1 = diskName banks.format role ∧
        source = (role, (finRange banks.numLayers).map (banks.layer role)))
        (Dict.ofList (flat ++ byLayer)) sources := by
    refine mapM_ok fun bank isBank => ?_
    obtain ⟨role, isRole, isName, read⟩ := served bank (Dict.mem_ofList isBank)
    refine ⟨_, bind_ok_iff.mpr ⟨_, read, rfl⟩, role, isRole, isName, ?_⟩
    rw [isName, canonicalRole_diskName banks.format role isRole]
  refine ⟨_, (loadFtwBanks_iff (bankEntries_ne_nil archive complete) isLayers isFormat).mpr
    ⟨apart, flat, byLayer, alphas, sources, kindKernel, flatDone, byLayerDone, alphasDone,
      sourcesDone, isKind, rfl⟩, fun role isRole => ?_, fun e isFlat layerId isLayer => ?_⟩
  · obtain ⟨rows, isBank⟩ := allRoles role isRole
    obtain ⟨rows', -, inDict⟩ := Dict.get?_of_mem_keys (Dict.mem_keys_ofList isBank)
    obtain ⟨source, isSource, other, otherRole, isName, rfl⟩ := forall₂_mem each _ inDict
    have same := diskName_injective isRole otherRole isName
    subst same
    refine Dict.get?_ofList isSource fun item isItem sameRole => ?_
    obtain ⟨-, -, role', -, -, rfl⟩ := forall₂_mem each.flip item isItem
    exact congrArg (fun role => (finRange banks.numLayers).map (banks.layer role)) sameRole
  · rw [archive.total]
    have isEntry := mem_of_mem_filter isFlat
    cases conversion with
    | streamed completions =>
      obtain ⟨layerId, -, role, isRole, -, isName⟩ := streamed_entry archive isEntry
      have unmatched := Option.isNone_iff_eq_none.mp (mem_filter.mp isFlat).2
      rw [isName, streamed_match isRole (layerId.isLt.trans_le digits)] at unmatched
      cases unmatched
    | materialized =>
      obtain ⟨role, -, recorded, -⟩ := materialized_entry archive isEntry
      have sized : (banks.bank role).layerBytes banks.numExperts * banks.numLayers = e.nbytes :=
        (banks.cat_length role).symm.trans recorded.nbytes.symm
      have layerBytes : e.nbytes / banks.numLayers =
          (banks.bank role).layerBytes banks.numExperts := by
        rw [← sized, Nat.mul_div_cancel _ banks.someLayer]
      rw [layerBytes]
      exact window_fits recorded.aligned sized isLayer recorded.inside

theorem readRow_ne_nil {row : RowBank} {tensor : Tensor}
    (read : readRow c backend order chunk row = .ok tensor) : tensor.bytes ≠ [] := by
  have viewed : ∀ {buf : Bytes} {dtype : DType} {count : Nat} {shape : List Nat},
      frombuffer buf dtype count shape = .ok tensor → tensor.bytes ≠ [] := by
    intro buf dtype count shape done
    unfold frombuffer at done
    split at done
    · rename_i sized
      cases done
      have itemsize := itemsize_pos dtype
      have some_ := mul_pos (pos_of_ne_zero sized.2.1) itemsize
      refine length_pos_iff.mp ?_
      rw [length_take]
      omega
    · cases done
  obtain ⟨buf, -, done⟩ := bind_ok_iff.mp read
  unfold rowTensor at done
  split at done
  · exact viewed done
  · split at done
    · cases done
    · exact viewed done

include archive complete in
theorem fiveDigits_of_buffers {byLayer : List (List Char × List RowBank)}
    (done : (layerGroups c.rowEntries).mapM (layerBanks banks.numLayers) = .ok byLayer) :
    conversion.FiveDigits := by
  cases conversion with
  | materialized => trivial
  | streamed completions =>
    by_contra more
    have many : 100000 < banks.numLayers := Nat.lt_of_not_le more
    obtain ⟨role, isRole⟩ := exists_mem_of_ne_nil _ (roles_ne_nil banks.format)
    have isKey := (streamed_grouped archive (complete.mem_iff.mpr (mem_finRange
      ⟨0, banks.someLayer⟩)) isRole (show 0 < 100000 by decide)).1
    obtain ⟨group, isGroup, -⟩ := mem_map.mp isKey
    obtain ⟨bank, -, built⟩ := forall₂_mem (mapM_eq_ok done) group isGroup
    unfold layerBanks at built
    split at built
    · cases built
    · rename_i sorted
      have last : banks.numLayers - 1 ∈ group.2.keys.insertionSort (· ≤ ·) := by
        rw [not_not.mp sorted, mem_range]
        omega
      obtain ⟨e, -, isItem⟩ := Dict.get?_of_mem_keys ((mem_insertionSort _).mp last)
      have bound := matchLayerEntry_bound
        ((layerGroups_spec c.rowEntries).members group isGroup _ isItem).2
      omega

theorem layerBytes_of_sources {buffers : List (List Char × List RowBank)}
    {sources : List (List Char × List Tensor)}
    (done : buffers.mapM (readBank c backend order chunk) = .ok sources)
    (isSource : (role, (List.finRange banks.numLayers).map (banks.layer role)) ∈ sources) :
    (banks.bank role).layerBytes banks.numExperts ≠ 0 := by
  obtain ⟨bank, -, read⟩ := forall₂_mem (mapM_eq_ok done).flip _ isSource
  obtain ⟨rows, rowsDone, same⟩ := bind_ok_iff.mp read
  obtain ⟨-, isRows⟩ := Prod.mk.inj (Except.ok.inj same)
  rw [isRows] at rowsDone
  have isLayer : banks.layer role ⟨0, banks.someLayer⟩ ∈
      (finRange banks.numLayers).map (banks.layer role) :=
    mem_map_of_mem (mem_finRange _)
  obtain ⟨row, -, readLayer⟩ := forall₂_mem (mapM_eq_ok rowsDone).flip _ isLayer
  have some_ := length_pos_iff.mpr (readRow_ne_nil backend readLayer)
  rw [banks.layer_length] at some_
  exact pos_iff_ne_zero.mp some_

end Load

end Layouts

/-- **The layers are loaded from either layout, and from the same layers in any order of their
completion,** if and only if the format has a kernel, every bank has bytes, and no layer that is
written on its own has a number of more than five digits. -/
theorem layouts_iff (limit chunk : Nat) (dense : List (List Char × Tensor)) (banks : BankSet)
    (conversion : Conversion banks.numLayers) (backend : Backend)
    (order : List Piece → List Piece) (limitPos : 0 < limit) (limitAligned : ALIGN ∣ limit)
    (pos : 0 < chunk) (chunkAligned : ALIGN ∣ chunk)
    (anyOrder : ∀ jobs, (order jobs).Perm jobs) (complete : conversion.Complete) :
    (∃ c loaded, convertCheckpoint limit dense banks conversion = .ok c ∧
      loadFtwBanks c banks.numLayers backend order chunk = .ok (some loaded) ∧
      Layered banks c loaded) ↔
      (banks.format ≠ .q4_0 ∧ banks.format ≠ .gguf) ∧
        (∀ role ∈ banks.roles, (banks.bank role).layerBytes banks.numExperts ≠ 0) ∧
        conversion.FiveDigits := by
  obtain ⟨c, region, converted, archive, isLayers, isFormat⟩ :=
    convert_spec limitPos limitAligned dense complete
  constructor
  · rintro ⟨other, loaded, isOther, done, layered⟩
    rw [converted] at isOther
    cases isOther
    obtain ⟨-, flat, byLayer, alphas, sources, kindKernel, -, byLayerDone, -, sourcesDone, isKind,
      rfl⟩ := (loadFtwBanks_iff (bankEntries_ne_nil archive complete) isLayers isFormat).mp done
    refine ⟨(kindKernelFor_iff banks.format).mp ⟨kindKernel, isKind⟩, fun role isRole => ?_,
      fiveDigits_of_buffers archive complete byLayerDone⟩
    exact layerBytes_of_sources backend sourcesDone
      (Dict.mem_ofList (Dict.mem_of_get? (layered.sources role isRole)))
  · rintro ⟨kernel, some_, digits⟩
    obtain ⟨loaded, done, layered⟩ := load_spec archive backend anyOrder pos chunkAligned
      complete some_ digits isLayers isFormat kernel
    exact ⟨c, loaded, converted, done, layered⟩

def smallBanks (format : Format) : BankSet where
  format := format
  numLayers := 2
  numExperts := 2
  bank _ := ⟨.uint8, [], [1, 2, 3, 4]⟩
  gateUpAlpha := none
  downAlpha := none
  someLayer := Nat.zero_lt_two
  whole _ := rfl
  alphaShape _ isAlpha := by simp at isAlpha

/-- The second layer gets complete first. -/
theorem layouts_small : ∃ c loaded, convertCheckpoint 4096 [] (smallBanks .bf16)
        (.streamed [⟨1, one_lt_two⟩, ⟨0, zero_lt_two⟩]) = .ok c ∧
      loadFtwBanks c 2 .mapped List.reverse 4096 = .ok (some loaded) ∧
      Layered (smallBanks .bf16) c loaded :=
  (layouts_iff 4096 4096 [] (smallBanks .bf16) (.streamed [⟨1, one_lt_two⟩, ⟨0, zero_lt_two⟩])
    .mapped reverse (by decide) (by decide) (by decide) (by decide)
    (fun jobs => reverse_perm jobs)
    (show Perm [(1 : Fin 2), 0] (finRange 2) by decide)).mpr
    ⟨⟨by decide, by decide⟩, by decide, show 2 ≤ 100000 by decide⟩

/-- **Banks of a GGUF are written and cannot be loaded.** -/
theorem gguf_banks_lost : ∃ c, convertCheckpoint 4096 [] (smallBanks .gguf) .materialized = .ok c ∧
      ∀ loaded, loadFtwBanks c 2 .mapped id 4096 ≠ .ok (some loaded) := by
  have complete : (.materialized : Conversion (smallBanks .gguf).numLayers).Complete := trivial
  obtain ⟨c, region, converted, archive, isLayers, isFormat⟩ :=
    convert_spec (show 0 < 4096 by decide) (show ALIGN ∣ 4096 by decide) [] complete
  refine ⟨c, converted, fun loaded done => ?_⟩
  obtain ⟨-, -, -, -, -, kindKernel, -, -, -, -, isKind, -⟩ :=
    (loadFtwBanks_iff (bankEntries_ne_nil archive complete) isLayers isFormat).mp done
  exact ((kindKernelFor_iff .gguf).mp ⟨kindKernel, isKind⟩).2 rfl

end FreeToken.Ftw
