/-
**When a checkpoint comes back.**

* `readTensors_empty`: an anonymous mapping of no bytes raises, so that nothing comes after a tensor
  without bytes.
-/

import FreeToken.Checkpoint.FtwRead

namespace FreeToken.Ftw

open List

theorem dtypeOf_dtypeStr (dtype : DType) : dtypeOf (dtypeStr dtype) = .ok dtype := by
  cases dtype <;> rfl

theorem itemsize_pos (dtype : DType) : 0 < dtype.itemsize := by
  cases dtype <;> decide

def requested (kinds : List (List Char)) (writes : List Write) : List Write :=
  writes.filter fun write => kinds.isEmpty || kinds.contains write.kind

section Tensors

variable {c : Checkpoint} {limit : Nat} {region : Bytes} {writes : List Write}
  {order : List Piece → List Piece} {chunk : Nat}

/-- A tensor with bytes is read as it was written. -/
theorem readTensor_spec (archive : Archive c limit region writes) (backend : Backend)
    (anyOrder : ∀ jobs, (order jobs).Perm jobs) (pos : 0 < chunk) (chunkAligned : ALIGN ∣ chunk)
    {e : Entry} {write : Write} (recorded : Recorded region e write)
    (some_ : write.tensor.bytes ≠ []) :
    readTensor c backend order chunk e = .ok (write.name, write.tensor) := by
  have least := le_alignUp e.nbytes
  have lt := recorded.inside
  have length := length_pos_iff.mpr some_
  have isSize := recorded.nbytes
  have buffer : transientBuffer e.nbytes = .ok (replicate (alignUp e.nbytes) 0) :=
    if_neg (by omega)
  have room : alignUp e.nbytes ≤ (replicate (alignUp e.nbytes) (0 : UInt8)).length :=
    length_replicate.ge
  have within : e.globalOff + e.nbytes ≤ region.length := by omega
  obtain ⟨filled, read, size, bytes⟩ := readInto_spec archive backend anyOrder pos chunkAligned
    recorded.aligned within room
  rw [length_replicate] at size
  rw [recorded.bytes] at bytes
  have isDType : dtypeOf e.dtype = .ok write.tensor.dtype := by
    rw [recorded.dtype, dtypeOf_dtypeStr]
  have whole : e.nbytes = write.tensor.shape.prod * write.tensor.dtype.itemsize :=
    isSize.trans write.tensor.whole
  have count : e.nbytes / write.tensor.dtype.itemsize = write.tensor.shape.prod := by
    rw [whole, Nat.mul_div_cancel _ (itemsize_pos _)]
  have tensor : frombuffer filled write.tensor.dtype (e.nbytes / write.tensor.dtype.itemsize)
      e.shape = .ok write.tensor := by
    have taken : e.nbytes / write.tensor.dtype.itemsize * write.tensor.dtype.itemsize = e.nbytes := by
      rw [count, ← whole]
    have counted : e.nbytes / write.tensor.dtype.itemsize ≠ 0 := by
      intro none
      rw [none, Nat.zero_mul] at taken
      omega
    unfold frombuffer
    rw [dif_pos ⟨by rw [count, recorded.shape], counted, by omega⟩]
    refine congrArg Except.ok (Tensor.ext rfl recorded.shape ?_)
    dsimp only
    rw [taken, bytes]
  unfold readTensor
  rw [buffer]
  change (readInto _ _ _ _ _ _ _ >>= _) = _
  rw [read]
  rw [isDType]
  change (frombuffer _ _ _ _ >>= _) = _
  rw [tensor, recorded.name]
  rfl

theorem readTensor_empty {backend : Backend} {e : Entry} (none : e.nbytes = 0) :
    readTensor c backend order chunk e = .error .emptyMap := by
  have buffer : transientBuffer e.nbytes = .error .emptyMap := by
    rw [none]
    rfl
  unfold readTensor
  rw [buffer]
  rfl

theorem readTensors_spec (archive : Archive c limit region writes) (backend : Backend)
    (anyOrder : ∀ jobs, (order jobs).Perm jobs) (pos : 0 < chunk) (chunkAligned : ALIGN ∣ chunk)
    (kinds : List (List Char))
    (some_ : ∀ write ∈ requested kinds writes, write.tensor.bytes ≠ []) :
    iterFtwWeights c kinds backend order chunk =
      ((requested kinds writes).map fun write => (write.name, write.tensor), none) := by
  have all : ∀ {entries : List Entry} {writes : List Write},
      Forall₂ (Recorded region) entries writes →
      (∀ write ∈ requested kinds writes, write.tensor.bytes ≠ []) →
      readTensors c backend order chunk
          (entries.filter fun t => kinds.isEmpty || kinds.contains t.kind) =
        ((requested kinds writes).map fun write => (write.name, write.tensor), none) := by
    intro entries writes recorded
    induction recorded with
    | nil => exact fun _ => rfl
    | @cons e write entries writes here later ih =>
      intro some_
      rw [filter_cons, here.kind]
      by_cases wanted : (kinds.isEmpty || kinds.contains write.kind) = true
      · have kept : requested kinds (write :: writes) = write :: requested kinds writes :=
          filter_cons_of_pos wanted
        rw [kept] at some_ ⊢
        rw [if_pos wanted, readTensors, readTensor_spec archive backend anyOrder pos
          chunkAligned here (some_ write mem_cons_self)]
        rw [ih fun other mem => some_ other (mem_cons_of_mem _ mem)]
        rfl
      · have dropped : requested kinds (write :: writes) = requested kinds writes :=
          filter_cons_of_neg wanted
        rw [dropped] at some_ ⊢
        rw [if_neg wanted]
        exact ih some_
  exact all archive.recorded some_

theorem readTensors_none {backend : Backend} {entries : List Entry}
    (fine : (readTensors c backend order chunk entries).2 = none) :
    ∀ e ∈ entries, e.nbytes ≠ 0 := by
  induction entries with
  | nil => nofun
  | cons e entries ih =>
    rw [readTensors] at fine
    cases read : readTensor c backend order chunk e with
    | error err =>
      rw [read] at fine
      cases fine
    | ok item =>
      rw [read] at fine
      intro other mem
      rcases mem_cons.mp mem with rfl | mem
      · intro none
        rw [readTensor_empty none] at read
        cases read
      · exact ih fine other mem

end Tensors

theorem forall₂_mem {α β : Type} {R : α → β → Prop} {left : List α} {right : List β}
    (related : List.Forall₂ R left right) : ∀ a ∈ left, ∃ b ∈ right, R a b := by
  induction related with
  | nil => nofun
  | @cons a b left right here later ih =>
    intro other mem
    rcases mem_cons.mp mem with rfl | mem
    · exact ⟨b, mem_cons_self, here⟩
    · obtain ⟨partner, isPartner, related⟩ := ih other mem
      exact ⟨partner, mem_cons_of_mem _ isPartner, related⟩

/-- What is promised of a checkpoint: the tensors of the kinds asked for come out as they were
written, every tensor is read into any buffer that has room, the shards tile the region within their
limit, a tensor within the limit lies in one shard, and the reads keep to blocks, shards and
buffers. -/
structure RoundTrip (limit chunk : Nat) (backend : Backend) (order : List Piece → List Piece)
    (kinds : List (List Char)) (writes : List Write) (c : Checkpoint) : Prop where
  streamed : iterFtwWeights c kinds backend order chunk =
    ((requested kinds writes).map fun write => (write.name, write.tensor), none)
  read : List.Forall₂ (fun e write =>
    e.name = write.name ∧ dtypeOf e.dtype = .ok write.tensor.dtype ∧
      e.shape = write.tensor.shape ∧ e.nbytes = write.tensor.bytes.length ∧
      ∀ dest, alignUp e.nbytes ≤ dest.length → ∃ filled,
        readInto c backend order chunk dest e.globalOff e.nbytes = .ok filled ∧
        filled.take e.nbytes = write.tensor.bytes) c.index.tensors writes
  tiles : Tiles 0 (c.index.shards.map Shard.range) c.index.totalBytes
  bounded : ∀ sh ∈ c.index.shards, sh.nbytes ≤ limit ∧
    ∃ file, c.disk sh.file = some file ∧ file.length = sh.nbytes
  whole : ∀ e ∈ c.index.tensors, e.nbytes ≤ limit → ∃ sh ∈ c.index.shards,
    sh.globalOff ≤ e.globalOff ∧ e.globalOff + e.nbytes ≤ sh.globalOff + sh.nbytes
  blocks : ∀ e ∈ c.index.tensors, ∃ jobs, readJobs c chunk e.globalOff e.nbytes = .ok jobs ∧
    ∀ job ∈ jobs, ∃ sh, JobFits c.index.shards e.globalOff e.nbytes sh job

theorem archive_roundTrip {c : Checkpoint} {limit : Nat} {region : Bytes} {writes : List Write}
    (archive : Archive c limit region writes) (backend : Backend)
    {order : List Piece → List Piece} (anyOrder : ∀ jobs, (order jobs).Perm jobs) {chunk : Nat}
    (pos : 0 < chunk) (chunkAligned : ALIGN ∣ chunk) (kinds : List (List Char))
    (some_ : ∀ write ∈ requested kinds writes, write.tensor.bytes ≠ []) :
    RoundTrip limit chunk backend order kinds writes c := by
  have within : ∀ {e : Entry} {write : Write}, Recorded region e write →
      e.globalOff + e.nbytes ≤ region.length := by
    intro e write recorded
    have lt := recorded.inside
    have least := le_alignUp e.nbytes
    omega
  constructor
  · exact readTensors_spec archive backend anyOrder pos chunkAligned kinds some_
  · refine archive.recorded.imp fun e write recorded => ⟨recorded.name, ?_, recorded.shape,
      recorded.nbytes, fun dest room => ?_⟩
    · rw [recorded.dtype, dtypeOf_dtypeStr]
    · obtain ⟨filled, read, -, bytes⟩ := readInto_spec archive backend anyOrder pos
        chunkAligned recorded.aligned (within recorded) room
      exact ⟨filled, read, bytes.trans recorded.bytes⟩
  · rw [archive.total]
    exact archive.tiles
  · intro sh mem
    have kept := archive.kept sh mem
    have lt := kept.inside
    refine ⟨kept.small, _, kept.held, ?_⟩
    rw [length_drop, length_take]
    omega
  · exact archive.whole
  · intro e mem
    obtain ⟨write, -, recorded⟩ := forall₂_mem archive.recorded e mem
    obtain ⟨jobs, computed, fits, -⟩ := readJobs_spec archive pos chunkAligned
      recorded.aligned (within recorded)
    exact ⟨jobs, computed, fits⟩

/-- **A checkpoint comes back if and only if every tensor asked for has bytes.** -/
theorem roundTrip_iff (limit chunk : Nat) (writes : List Write) (kinds : List (List Char))
    (expertBankNumLayers : Option Nat) (quantFormat : Option (List Char)) (backend : Backend)
    (order : List Piece → List Piece) (limitPos : 0 < limit) (limitAligned : ALIGN ∣ limit)
    (pos : 0 < chunk) (chunkAligned : ALIGN ∣ chunk)
    (anyOrder : ∀ jobs, (order jobs).Perm jobs) :
    (∃ w, writeAll limit writes = .ok w ∧ RoundTrip limit chunk backend order kinds writes
        (w.finalize expertBankNumLayers quantFormat)) ↔
      ∀ write ∈ requested kinds writes, write.tensor.bytes ≠ [] := by
  obtain ⟨w, region, computed, written⟩ := writeAll_spec limitPos limitAligned writes
  have archive := finalize_archive written expertBankNumLayers quantFormat
  constructor
  · rintro ⟨other, isOther, trip⟩
    rw [computed] at isOther
    cases isOther
    intro write asked none
    have fine := congrArg Prod.snd trip.streamed
    have sized := readTensors_none fine
    obtain ⟨isWrite, wanted⟩ := mem_filter.mp asked
    obtain ⟨e, isEntry, recorded⟩ := forall₂_mem archive.recorded.flip write isWrite
    refine sized e (mem_filter.mpr ⟨isEntry, ?_⟩) ?_
    · rw [recorded.kind]
      exact wanted
    · rw [recorded.nbytes, none]
      rfl
  · intro some_
    exact ⟨w, computed, archive_roundTrip archive backend anyOrder pos chunkAligned kinds some_⟩

/-- A scalar and a vector, read back in the reverse order of their reads. -/
theorem roundTrip_scalar : ∃ w, writeAll 4096 [⟨['a'], ⟨.float32, [], [0, 0, 128, 63], rfl⟩, ['w']⟩,
        ⟨['b'], ⟨.uint8, [2, 1], [7, 9], rfl⟩, ['w']⟩] = .ok w ∧
      RoundTrip 4096 4096 (.direct fun _ _ => 0) List.reverse [['w']]
        [⟨['a'], ⟨.float32, [], [0, 0, 128, 63], rfl⟩, ['w']⟩,
          ⟨['b'], ⟨.uint8, [2, 1], [7, 9], rfl⟩, ['w']⟩] (w.finalize none none) :=
  (roundTrip_iff 4096 4096 _ [['w']] none none _ _ (by decide) (by decide) (by decide) (by decide)
    fun jobs => reverse_perm jobs).mpr (by decide)

/-- **A tensor of no elements stops the stream.** -/
theorem empty_tensor_lost : ∃ w, writeAll 4096 [⟨['a'], ⟨.float32, [0], [], rfl⟩, ['w']⟩] = .ok w ∧
      iterFtwWeights (w.finalize none none) [['w']] .mapped id 4096 = ([], some .emptyMap) :=
  ⟨_, rfl, rfl⟩

end FreeToken.Ftw
