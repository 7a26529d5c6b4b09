/-
**What the writer leaves on the disk.**
-/

import FreeToken.Checkpoint.Ftw

namespace FreeToken.Ftw

open List Function Option

/-! ### Blocks -/

theorem alignUp_dvd (n : Nat) : ALIGN ∣ alignUp n := Dvd.intro_left _ rfl

theorem le_alignUp (n : Nat) : n ≤ alignUp n := by
  unfold alignUp ALIGN
  omega

theorem alignUp_le {n m : Nat} (below : n ≤ m) (aligned : ALIGN ∣ m) : alignUp n ≤ m := by
  unfold alignUp
  unfold ALIGN at aligned ⊢
  omega

/-! ### Shards -/

def Shard.range (sh : Shard) : Nat × Nat := (sh.globalOff, sh.globalOff + sh.nbytes)

structure Kept (disk : Int → Option Bytes) (limit : Nat) (region : Bytes) (sh : Shard) : Prop where
  small : sh.nbytes ≤ limit
  startAligned : ALIGN ∣ sh.globalOff
  sizeAligned : ALIGN ∣ sh.nbytes
  inside : sh.globalOff + sh.nbytes ≤ region.length
  held : disk sh.file = some ((region.take (sh.globalOff + sh.nbytes)).drop sh.globalOff)

variable {limit : Nat}

theorem Kept.append {disk : Int → Option Bytes} {region : Bytes} {sh : Shard}
    (kept : Kept disk limit region sh) (more : Bytes) : Kept disk limit (region ++ more) sh where
  small := kept.small
  startAligned := kept.startAligned
  sizeAligned := kept.sizeAligned
  inside := kept.inside.trans (by rw [length_append]; omega)
  held := by rw [kept.held, take_append_of_le_length kept.inside]

/-- The shards tile the region up to the open one, and each file holds its part of it. -/
structure Holds (w : FTWWriter) (region : Bytes) : Prop where
  positive : 0 < w.shardLimit
  limitAligned : ALIGN ∣ w.shardLimit
  global : w.global = region.length
  tiles : Tiles 0 (w.shards.map Shard.range) w.shardStart
  kept : ∀ sh ∈ w.shards, Kept w.disk w.shardLimit region sh
  older : ∀ sh ∈ w.shards, sh.file < w.shardIdx
  startAligned : ALIGN ∣ w.shardStart
  cur : w.shardStart + w.cur = region.length
  room : w.cur ≤ w.shardLimit
  unopened : w.f = none → region = []
  opened : ∀ data, w.f = some data → data = region.drop w.shardStart

/-- A range is in one shard. -/
def Lies (w : FTWWriter) (range : Nat × Nat) : Prop :=
  (∃ sh ∈ w.shards, sh.globalOff ≤ range.1 ∧ range.2 ≤ sh.globalOff + sh.nbytes) ∨
    w.f.isSome ∧ w.shardStart ≤ range.1 ∧ range.2 ≤ w.shardStart + w.cur

section Close

variable {w : FTWWriter} {region : Bytes} (holds : Holds w region) (aligned : ALIGN ∣ w.cur)

include holds aligned

theorem closeShard_spec : Tiles 0 (w.closeShard.shards.map Shard.range) region.length ∧
      (∀ sh ∈ w.closeShard.shards, Kept w.closeShard.disk w.shardLimit region sh) ∧
      (∀ sh ∈ w.closeShard.shards, sh.file < w.shardIdx + 1) ∧
      w.closeShard.global = w.global ∧ w.closeShard.tensors = w.tensors ∧
      w.closeShard.shardLimit = w.shardLimit := by
  unfold FTWWriter.closeShard
  cases isFile : w.f with
  | none =>
    have empty := holds.unopened isFile
    have place := holds.cur
    rw [empty, length_nil] at place
    have tiles := holds.tiles
    rw [show w.shardStart = 0 by omega] at tiles
    refine ⟨by rw [empty]; exact tiles, holds.kept, fun sh mem => ?_, rfl, rfl, rfl⟩
    have older := holds.older sh mem
    omega
  | some data =>
    have isData := holds.opened data isFile
    have tiles := holds.tiles.snoc (Nat.le_add_right w.shardStart w.cur)
    refine ⟨?_, fun sh mem => ?_, fun sh mem => ?_, rfl, rfl, rfl⟩
    · rw [← holds.cur]
      rw [map_append]
      exact tiles
    · rcases mem_append.mp mem with pre | new
      · have kept := holds.kept sh pre
        have older := holds.older sh pre
        refine { kept with held := ?_ }
        rw [← kept.held]
        exact update_of_ne (by omega) _ _
      · rw [mem_singleton.mp new]
        refine ⟨holds.room, holds.startAligned, aligned, holds.cur.le, ?_⟩
        have all : w.shardStart + w.cur = region.length := holds.cur
        dsimp only
        rw [update_self, all, take_length, isData]
    · rcases mem_append.mp mem with pre | new
      · have older := holds.older sh pre
        omega
      · rw [mem_singleton.mp new]
        dsimp only
        omega

theorem roll_holds : Holds w.roll region := by
  obtain ⟨tiles, kept, older, isGlobal, -, isLimit⟩ := closeShard_spec holds aligned
  have whole : ALIGN ∣ region.length := by
    rw [← holds.cur]
    exact Nat.dvd_add holds.startAligned aligned
  constructor
  · change 0 < w.closeShard.shardLimit
    rw [isLimit]
    exact holds.positive
  · change ALIGN ∣ w.closeShard.shardLimit
    rw [isLimit]
    exact holds.limitAligned
  · change w.closeShard.global = _
    rw [isGlobal]
    exact holds.global
  · change Tiles 0 _ w.global
    rw [holds.global]
    exact tiles
  · change ∀ sh ∈ w.closeShard.shards, Kept w.closeShard.disk w.closeShard.shardLimit region sh
    rw [isLimit]
    exact kept
  · exact older
  · change ALIGN ∣ w.global
    rw [holds.global]
    exact whole
  · exact holds.global
  · exact Nat.zero_le _
  · exact fun none => absurd none (some_ne_none _)
  · intro data isData
    have none : [] = data := some.inj isData
    change data = region.drop w.global
    rw [← none, holds.global, drop_length]

omit holds aligned in
theorem closeShard_lies {range : Nat × Nat} (lies : Lies w range) :
    ∃ sh ∈ w.closeShard.shards, sh.globalOff ≤ range.1 ∧ range.2 ≤ sh.globalOff + sh.nbytes := by
  unfold FTWWriter.closeShard
  rcases lies with ⟨sh, mem, lower, upper⟩ | ⟨isOpen, lower, upper⟩
  · cases w.f with
    | none => exact ⟨sh, mem, lower, upper⟩
    | some data => exact ⟨sh, mem_append_left _ mem, lower, upper⟩
  · obtain ⟨data, isData⟩ := isSome_iff_exists.mp isOpen
    rw [isData]
    exact ⟨_, mem_append_right _ (mem_singleton_self _), lower, upper⟩

end Close

/-! ### Writing -/

structure Continues (w later : FTWWriter) : Prop where
  limit : later.shardLimit = w.shardLimit
  tensors : later.tensors = w.tensors
  lies : ∀ range, Lies w range → Lies later range

theorem Continues.refl (w : FTWWriter) : Continues w w := ⟨rfl, rfl, fun _ lies => lies⟩

theorem Continues.trans {w later last : FTWWriter} (first : Continues w later)
    (second : Continues later last) : Continues w last :=
  ⟨second.limit.trans first.limit, second.tensors.trans first.tensors, fun range lies =>
    second.lies range (first.lies range lies)⟩

section Write

variable {w : FTWWriter} {region : Bytes}

theorem roll_continues (holds : Holds w region) (aligned : ALIGN ∣ w.cur) : Continues w w.roll := by
  obtain ⟨-, -, -, -, tensors, limit⟩ := closeShard_spec holds aligned
  exact ⟨limit, tensors, fun range lies => .inl (closeShard_lies lies)⟩

theorem put_holds (holds : Holds w region) {file : Bytes} (isOpen : w.f = some file)
    {part : Bytes} {n : Nat} (size : part.length = n) (fits : w.cur + n ≤ w.shardLimit) :
    Holds { w with f := w.f.map (· ++ part), cur := w.cur + n, global := w.global + n }
        (region ++ part) ∧
      Continues w { w with f := w.f.map (· ++ part), cur := w.cur + n, global := w.global + n } := by
  subst size
  have place := holds.cur
  refine ⟨?_, rfl, rfl, fun range lies => ?_⟩
  · constructor
    · exact holds.positive
    · exact holds.limitAligned
    · rw [length_append, holds.global]
    · exact holds.tiles
    · exact fun sh mem => (holds.kept sh mem).append part
    · exact holds.older
    · exact holds.startAligned
    · rw [length_append]
      dsimp only
      omega
    · exact fits
    · intro none
      rw [isOpen] at none
      cases none
    · intro data isData
      dsimp only at isData ⊢
      rw [isOpen, map_some] at isData
      rw [← some.inj isData, holds.opened file isOpen, drop_append_of_le_length (by omega)]
  · rcases lies with inShard | ⟨isOpen, lower, upper⟩
    · exact .inl inShard
    · refine .inr ⟨?_, lower, ?_⟩
      · rw [isSome_map]
        exact isOpen
      · dsimp only
        omega

/-- **The loop writes all bytes**, and begins a new shard where the open one is full. -/
theorem writeLoop_spec (rounds : Nat) (holds : Holds w region) {file data : Bytes}
    (isOpen : w.f = some file) (enough : data.length ≤ rounds) :
    Holds (w.writeLoop rounds data) (region ++ data) ∧ Continues w (w.writeLoop rounds data) ∧
      (w.writeLoop rounds data).f.isSome ∧
      (w.cur + data.length ≤ w.shardLimit →
        (w.writeLoop rounds data).shardStart = w.shardStart) := by
  induction rounds generalizing w region file data with
  | zero =>
    have none : data = [] := length_eq_zero_iff.mp (Nat.le_zero.mp enough)
    subst none
    rw [append_nil]
    exact ⟨holds, .refl w, by rw [FTWWriter.writeLoop, isOpen]; rfl, fun _ => rfl⟩
  | succ rounds ih =>
    rw [FTWWriter.writeLoop]
    by_cases none : data = []
    · rw [if_pos none, none, append_nil]
      exact ⟨holds, .refl w, by rw [isOpen]; rfl, fun _ => rfl⟩
    · rw [if_neg none]
      have some_ := length_pos_iff.mpr none
      obtain ⟨next, isNext⟩ : ∃ next, (if w.cur = w.shardLimit then w.roll else w) = next :=
        ⟨_, rfl⟩
      rw [isNext]
      have begun : Holds next region ∧ Continues w next ∧ (∃ file, next.f = some file) ∧
          next.cur < next.shardLimit ∧ (w.cur + data.length ≤ w.shardLimit → next = w) := by
        have room := holds.room
        by_cases full : w.cur = w.shardLimit
        · rw [if_pos full] at isNext
          have aligned : ALIGN ∣ w.cur := full ▸ holds.limitAligned
          have continues := roll_continues holds aligned
          have pos := holds.positive
          rw [isNext] at continues
          refine ⟨isNext ▸ roll_holds holds aligned, continues, ⟨[], isNext ▸ rfl⟩, ?_, ?_⟩
          · rw [continues.limit, ← isNext]
            exact pos
          · intro fits
            omega
        · rw [if_neg full] at isNext
          subst isNext
          exact ⟨holds, .refl w, ⟨file, isOpen⟩, by omega, fun _ => rfl⟩
      obtain ⟨nextHolds, continues, ⟨nextFile, nextOpen⟩, notFull, same⟩ := begun
      have size : (data.take (min data.length (next.shardLimit - next.cur))).length =
          min data.length (next.shardLimit - next.cur) := by
        rw [length_take]
        omega
      obtain ⟨putHolds, putContinues⟩ := put_holds nextHolds nextOpen size (by omega)
      have fewer : (data.drop (min data.length (next.shardLimit - next.cur))).length ≤ rounds := by
        rw [length_drop]
        omega
      obtain ⟨lastHolds, lastContinues, lastOpen, lastStart⟩ := ih putHolds
        (by
          rw [nextOpen, map_some])
        fewer
      rw [append_assoc, take_append_drop] at lastHolds
      refine ⟨lastHolds, continues.trans (putContinues.trans lastContinues), lastOpen,
        fun fits => ?_⟩
      have isSame := same fits
      subst isSame
      refine lastStart ?_
      dsimp only
      rw [length_drop]
      omega

theorem writeRaw_spec (holds : Holds w region) (isOpen : w.f.isSome) (data : Bytes) :
    Holds (w.writeRaw data) (region ++ data) ∧ Continues w (w.writeRaw data) ∧
      (w.writeRaw data).f.isSome ∧
      (w.cur + data.length ≤ w.shardLimit → (w.writeRaw data).shardStart = w.shardStart) := by
  obtain ⟨file, isFile⟩ := isSome_iff_exists.mp isOpen
  unfold FTWWriter.writeRaw
  rw [isFile]
  exact writeLoop_spec _ holds isFile le_rfl

/-- An entry tells where the bytes of a tensor are, and the block that they end in. -/
structure Recorded (region : Bytes) (e : Entry) (write : Write) : Prop where
  name : e.name = write.name
  kind : e.kind = write.kind
  dtype : e.dtype = dtypeStr write.tensor.dtype
  shape : e.shape = write.tensor.shape
  nbytes : e.nbytes = write.tensor.bytes.length
  aligned : ALIGN ∣ e.globalOff
  inside : e.globalOff + alignUp e.nbytes ≤ region.length
  bytes : (region.drop e.globalOff).take e.nbytes = write.tensor.bytes

theorem Recorded.append {e : Entry} {write : Write} (recorded : Recorded region e write)
    (more : Bytes) : Recorded (region ++ more) e write := by
  have lt := recorded.inside
  have least := le_alignUp e.nbytes
  refine { recorded with inside := ?_, bytes := ?_ }
  · rw [length_append]
    omega
  · rw [drop_append_of_le_length (by omega), take_append_of_le_length, recorded.bytes]
    rw [length_drop]
    omega

theorem addTensor_spec (holds : Holds w region) (aligned : ALIGN ∣ region.length) (write : Write) :
    ∃ later more e, w.addTensor write.name write.tensor write.kind = .ok later ∧
      Holds later (region ++ more) ∧ ALIGN ∣ (region ++ more).length ∧
      later.shardLimit = w.shardLimit ∧ later.tensors = w.tensors ++ [e] ∧
      Recorded (region ++ more) e write ∧ (∀ range, Lies w range → Lies later range) ∧
      (e.nbytes ≤ w.shardLimit → Lies later (e.globalOff, e.globalOff + e.nbytes)) := by
  obtain ⟨next, isNext⟩ : ∃ next, (if w.f.isNone ∨ write.tensor.bytes.length ≤ w.shardLimit ∧
      w.shardLimit < w.cur + write.tensor.bytes.length then w.roll else w) = next := ⟨_, rfl⟩
  have begun : Holds next region ∧ Continues w next ∧ next.f.isSome ∧
      (write.tensor.bytes.length ≤ w.shardLimit →
        next.cur + write.tensor.bytes.length ≤ next.shardLimit) := by
    by_cases early : w.f.isNone ∨ write.tensor.bytes.length ≤ w.shardLimit ∧
        w.shardLimit < w.cur + write.tensor.bytes.length
    · rw [if_pos early] at isNext
      have curAligned : ALIGN ∣ w.cur := by
        rw [← holds.cur] at aligned
        exact (Nat.dvd_add_right holds.startAligned).mp aligned
      have continues := roll_continues holds curAligned
      rw [isNext] at continues
      refine ⟨isNext ▸ roll_holds holds curAligned, continues, isNext ▸ rfl, fun small => ?_⟩
      rw [continues.limit, ← isNext]
      change 0 + _ ≤ _
      omega
    · rw [if_neg early] at isNext
      subst isNext
      rw [not_or, isNone_iff_eq_none] at early
      exact ⟨holds, .refl w, isSome_iff_ne_none.mpr early.1, fun small => by omega⟩
  obtain ⟨nextHolds, continues, nextOpen, fits⟩ := begun
  have start : next.global = region.length := nextHolds.global
  obtain ⟨putHolds, putContinues, putOpen, putStart⟩ :=
    writeRaw_spec nextHolds nextOpen write.tensor.bytes
  let e : Entry := ⟨write.name, write.kind, dtypeStr write.tensor.dtype, write.tensor.shape,
    region.length, write.tensor.bytes.length⟩
  let noted : FTWWriter := { next.writeRaw write.tensor.bytes with
    tensors := (next.writeRaw write.tensor.bytes).tensors ++ [e] }
  have notedHolds : Holds noted (region ++ write.tensor.bytes) := { putHolds with }
  have notedTensors : noted.tensors = w.tensors ++ [e] := by
    change (next.writeRaw write.tensor.bytes).tensors ++ [e] = _
    rw [putContinues.tensors, continues.tensors]
  have isLimit : noted.shardLimit = w.shardLimit := putContinues.limit.trans continues.limit
  have lies : ∀ range, Lies w range → Lies noted range := fun range here =>
    putContinues.lies range (continues.lies range here)
  have own : e.nbytes ≤ w.shardLimit → Lies noted (e.globalOff, e.globalOff + e.nbytes) := by
    intro small
    have place := nextHolds.cur
    have whole := putHolds.cur
    rw [length_append] at whole
    have sameStart := putStart (fits small)
    refine .inr ⟨putOpen, ?_, ?_⟩
    · change (next.writeRaw write.tensor.bytes).shardStart ≤ region.length
      omega
    · exact whole.ge
  have added : w.addTensor write.name write.tensor write.kind =
      .ok (if alignUp noted.global - noted.global ≠ 0 then
        noted.writeRaw (replicate (alignUp noted.global - noted.global) 0) else noted) := by
    have block : ¬region.length % ALIGN ≠ 0 := not_not.mpr (Nat.mod_eq_zero_of_dvd aligned)
    unfold FTWWriter.addTensor
    dsimp only
    rw [isNext, start, if_neg block]
    rfl
  have total : noted.global = region.length + write.tensor.bytes.length := by
    rw [notedHolds.global, length_append]
  have most := le_alignUp noted.global
  let pad : Bytes := replicate (alignUp noted.global - noted.global) 0
  have padSize : pad.length = alignUp noted.global - noted.global := length_replicate
  have whole : (region ++ (write.tensor.bytes ++ pad)).length = alignUp noted.global := by
    rw [length_append, length_append, padSize]
    omega
  have recorded : Recorded (region ++ (write.tensor.bytes ++ pad)) e write := by
    refine ⟨rfl, rfl, rfl, rfl, rfl, aligned, ?_, ?_⟩
    · rw [whole]
      have up := alignUp_le (n := write.tensor.bytes.length)
        (m := alignUp noted.global - region.length) (by omega)
        (Nat.dvd_sub (alignUp_dvd _) aligned)
      change region.length + alignUp write.tensor.bytes.length ≤ _
      omega
    · rw [drop_left, take_left]
  have wholeAligned : ALIGN ∣ (region ++ (write.tensor.bytes ++ pad)).length :=
    whole ▸ alignUp_dvd _
  by_cases none : alignUp noted.global - noted.global = 0
  · have empty : pad = [] := length_eq_zero_iff.mp (padSize.trans none)
    rw [if_neg (not_not.mpr none)] at added
    rw [empty, append_nil] at recorded wholeAligned
    exact ⟨noted, write.tensor.bytes, e, added, notedHolds, wholeAligned, isLimit, notedTensors,
      recorded, lies, own⟩
  · rw [if_pos none] at added
    obtain ⟨padHolds, padContinues, -, -⟩ := writeRaw_spec notedHolds putOpen pad
    rw [append_assoc] at padHolds
    exact ⟨_, write.tensor.bytes ++ pad, e, added, padHolds, wholeAligned,
      padContinues.limit.trans isLimit, padContinues.tensors.trans notedTensors, recorded,
      fun range here => padContinues.lies range (lies range here),
      fun small => padContinues.lies _ (own small)⟩

end Write

/-! ### Runs -/

structure Written (w : FTWWriter) (limit : Nat) (region : Bytes) (writes : List Write) : Prop where
  holds : Holds w region
  aligned : ALIGN ∣ region.length
  isLimit : w.shardLimit = limit
  recorded : List.Forall₂ (Recorded region) w.tensors writes
  whole : ∀ e ∈ w.tensors, e.nbytes ≤ limit → Lies w (e.globalOff, e.globalOff + e.nbytes)

section Runs

variable {w : FTWWriter} {limit : Nat} {region : Bytes} {done : List Write}

theorem Written.add (written : Written w limit region done) (write : Write) :
    ∃ later more, w.addTensor write.name write.tensor write.kind = .ok later ∧
      Written later limit (region ++ more) (done ++ [write]) := by
  obtain ⟨later, more, e, added, holds, aligned, sameLimit, tensors, recorded, lies, own⟩ :=
    addTensor_spec written.holds written.aligned write
  refine ⟨later, more, added, holds, aligned, sameLimit.trans written.isLimit, ?_, ?_⟩
  · rw [tensors]
    exact rel_append (written.recorded.imp fun _ _ old => old.append more)
      (.cons recorded .nil)
  · intro other mem small
    rw [tensors] at mem
    rcases mem_append.mp mem with pre | new
    · exact lies _ (written.whole other pre small)
    · rw [mem_singleton.mp new] at small ⊢
      exact own (written.isLimit ▸ small)

theorem Written.addAll (writes : List Write) (written : Written w limit region done) :
    ∃ later more, writes.foldlM (fun w write => w.addTensor write.name write.tensor write.kind) w =
        .ok later ∧ Written later limit (region ++ more) (done ++ writes) := by
  induction writes generalizing w region done with
  | nil =>
    refine ⟨w, [], rfl, ?_⟩
    rw [append_nil, append_nil]
    exact written
  | cons write writes ih =>
    obtain ⟨next, more, added, nextWritten⟩ := written.add write
    obtain ⟨later, rest, folded, laterWritten⟩ := ih nextWritten
    refine ⟨later, more ++ rest, ?_, ?_⟩
    · rw [foldlM_cons, added]
      exact folded
    · rw [append_assoc, append_assoc] at laterWritten
      exact laterWritten

end Runs

theorem init_written (pos : 0 < limit) (aligned : ALIGN ∣ limit) :
    ∃ w, FTWWriter.init limit = .ok w ∧ Written w limit [] [] := by
  unfold FTWWriter.init
  rw [if_pos (Nat.mod_eq_zero_of_dvd aligned)]
  refine ⟨_, rfl, ?_, Nat.dvd_zero _, rfl, .nil, nofun⟩
  exact ⟨pos, aligned, rfl, .nil 0, nofun, nofun, Nat.dvd_zero _, rfl, Nat.zero_le _,
    fun _ => rfl, fun _ isData => absurd isData.symm (some_ne_none _)⟩

/-- What `finalize` leaves. -/
structure Archive (c : Checkpoint) (limit : Nat) (region : Bytes) (writes : List Write) : Prop where
  total : c.index.totalBytes = region.length
  tiles : Tiles 0 (c.index.shards.map Shard.range) region.length
  kept : ∀ sh ∈ c.index.shards, Kept c.disk limit region sh
  recorded : List.Forall₂ (Recorded region) c.index.tensors writes
  whole : ∀ e ∈ c.index.tensors, e.nbytes ≤ limit → ∃ sh ∈ c.index.shards,
    sh.globalOff ≤ e.globalOff ∧ e.globalOff + e.nbytes ≤ sh.globalOff + sh.nbytes

theorem finalize_archive {w : FTWWriter} {region : Bytes} {writes : List Write}
    (written : Written w limit region writes) (expertBankNumLayers : Option Nat)
    (quantFormat : Option (List Char)) :
    Archive (w.finalize expertBankNumLayers quantFormat) limit region writes := by
  have aligned : ALIGN ∣ w.cur := by
    have whole := written.aligned
    rw [← written.holds.cur] at whole
    exact (Nat.dvd_add_right written.holds.startAligned).mp whole
  obtain ⟨tiles, kept, -, isGlobal, tensors, -⟩ := closeShard_spec written.holds aligned
  refine ⟨isGlobal.trans written.holds.global, tiles, written.isLimit ▸ kept, ?_, ?_⟩
  · change Forall₂ _ w.closeShard.tensors writes
    rw [tensors]
    exact written.recorded
  · change ∀ e ∈ w.closeShard.tensors, _
    rw [tensors]
    exact fun e mem small => closeShard_lies (written.whole e mem small)

theorem writeAll_spec (pos : 0 < limit) (aligned : ALIGN ∣ limit) (writes : List Write) :
    ∃ w region, writeAll limit writes = .ok w ∧ Written w limit region writes := by
  obtain ⟨start, begun, startWritten⟩ := init_written pos aligned
  obtain ⟨w, region, folded, written⟩ := startWritten.addAll writes
  refine ⟨w, region, ?_, written⟩
  unfold writeAll
  rw [begun]
  exact folded

end FreeToken.Ftw
