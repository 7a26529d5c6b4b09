/-
**What the reader makes of the shards.**
-/

import FreeToken.Checkpoint.FtwWriter

namespace FreeToken.Ftw

open List

/-! ### Pieces -/

/-- A piece lies in a shard, at the place of the region that its place in the buffer stands for. -/
structure PieceFits (shards : List Shard) (base : Nat) (sh : Shard) (piece : Piece) : Prop where
  member : sh ∈ shards
  file : piece.file = sh.file
  fileAligned : ALIGN ∣ piece.fileOff
  destAligned : ALIGN ∣ piece.destOff
  place : sh.globalOff + piece.fileOff = base + piece.destOff
  inside : piece.fileOff + alignUp piece.length ≤ sh.nbytes

def Piece.range (piece : Piece) : Nat × Nat := (piece.destOff, piece.destOff + piece.length)

section Pieces

variable {disk : Int → Option Bytes} {limit base start stop : Nat} {region : Bytes}
  {shards : List Shard}

/-- The pieces of a range follow one another, and each lies in one shard with the block that it ends
in. -/
theorem piecesLoop_spec (tiles : Tiles start (shards.map Shard.range) stop)
    (kept : ∀ sh ∈ shards, Kept disk limit region sh) {destOff remaining : Nat}
    (reached : remaining ≠ 0 → start ≤ base + destOff ∧ ALIGN ∣ base + destOff ∧ ALIGN ∣ destOff)
    (lt : remaining ≠ 0 → base + destOff + remaining ≤ stop) :
    ∃ pieces, piecesLoop shards (base + destOff) destOff remaining = .ok pieces ∧
      Tiles destOff (pieces.map Piece.range) (destOff + remaining) ∧
      ∀ piece ∈ pieces, ∃ sh, PieceFits shards base sh piece := by
  induction shards generalizing start destOff remaining with
  | nil =>
    cases tiles
    have none : remaining = 0 := by
      by_contra some_
      have lower := (reached some_).1
      have upper := lt some_
      omega
    subst none
    exact ⟨[], rfl, .nil _, nofun⟩
  | cons sh shards ih =>
    obtain ⟨isStart, -, later⟩ := tiles.uncons
    have own := kept sh mem_cons_self
    have keptLater := fun other mem => kept other (mem_cons_of_mem sh mem)
    change sh.globalOff = start at isStart
    change Tiles (sh.globalOff + sh.nbytes) _ stop at later
    have widen : ∀ {pieces : List Piece},
        (∀ piece ∈ pieces, ∃ other, PieceFits shards base other piece) →
        ∀ piece ∈ pieces, ∃ other, PieceFits (sh :: shards) base other piece := by
      intro pieces fits piece mem
      obtain ⟨other, fit⟩ := fits piece mem
      exact ⟨other, { fit with member := mem_cons_of_mem _ fit.member }⟩
    rw [piecesLoop]
    dsimp only
    by_cases skip : sh.globalOff + sh.nbytes ≤ base + destOff ∨ remaining = 0
    · rw [if_pos skip]
      obtain ⟨pieces, computed, tiled, fits⟩ := ih later keptLater
        (fun some_ => ⟨by omega, (reached some_).2⟩) lt
      exact ⟨pieces, computed, tiled, widen fits⟩
    · rw [not_or] at skip
      obtain ⟨lower, posAligned, destAligned⟩ := reached skip.2
      have upper := lt skip.2
      have endAligned : ALIGN ∣ sh.globalOff + sh.nbytes :=
        Nat.dvd_add own.startAligned own.sizeAligned
      obtain ⟨take, isTake⟩ : ∃ take,
          min remaining (sh.globalOff + sh.nbytes - (base + destOff)) = take := ⟨_, rfl⟩
      have further : remaining - take ≠ 0 → base + destOff + take = sh.globalOff + sh.nbytes := by
        omega
      obtain ⟨pieces, computed, tiled, fits⟩ := @ih _ later keptLater (destOff + take)
        (remaining - take) (fun some_ => by
          have place := further some_
          rw [← Nat.add_assoc, place]
          refine ⟨le_rfl, endAligned, ?_⟩
          have isDest : destOff + take = destOff + (sh.globalOff + sh.nbytes - (base + destOff)) := by
            omega
          rw [isDest]
          exact Nat.dvd_add destAligned (Nat.dvd_sub endAligned posAligned)) (fun some_ => by omega)
      rw [if_neg (by omega), if_neg (by omega), isTake, Nat.add_assoc, computed]
      refine ⟨⟨sh.file, base + destOff - sh.globalOff, destOff, take⟩ :: pieces, rfl, ?_, ?_⟩
      · have total : destOff + take + (remaining - take) = destOff + remaining := by omega
        rw [total] at tiled
        exact .cons (Nat.le_add_right _ _) tiled
      · intro piece mem
        rcases mem_cons.mp mem with rfl | mem
        · refine ⟨sh, mem_cons_self, rfl, Nat.dvd_sub posAligned own.startAligned,
            destAligned, ?_, ?_⟩
          · dsimp only
            omega
          · have up := alignUp_le (n := take)
              (m := sh.globalOff + sh.nbytes - (base + destOff)) (by omega)
              (Nat.dvd_sub endAligned posAligned)
            dsimp only
            omega
        · exact widen fits piece mem

end Pieces

/-! ### Reads -/

/-- A read begins and ends at a block, inside its shard and inside a buffer of whole blocks. -/
structure JobFits (shards : List Shard) (base nbytes : Nat) (sh : Shard) (job : Piece) : Prop where
  member : sh ∈ shards
  file : job.file = sh.file
  fileAligned : ALIGN ∣ job.fileOff
  destAligned : ALIGN ∣ job.destOff
  lengthAligned : ALIGN ∣ job.length
  place : sh.globalOff + job.fileOff = base + job.destOff
  inShard : job.fileOff + job.length ≤ sh.nbytes
  inBuffer : job.destOff + job.length ≤ alignUp nbytes

section Jobs

variable {shards : List Shard} {base nbytes chunk : Nat} {sh : Shard} {piece : Piece}

theorem pieceJobs_fits (fits : PieceFits shards base sh piece)
    (inBuffer : piece.destOff + piece.length ≤ nbytes) (pos : 0 < chunk)
    (aligned : ALIGN ∣ chunk) :
    ∀ job ∈ pieceJobs chunk piece, JobFits shards base nbytes sh job := by
  intro job mem
  obtain ⟨i, below, rfl⟩ := mem_map.mp mem
  have lt := Nat.lt_iff_add_one_le.mp (mem_range.mp below)
  rw [Nat.le_div_iff_mul_le pos, Nat.succ_mul] at lt
  have stepAligned : ALIGN ∣ i * chunk := Dvd.dvd.mul_left aligned i
  have restAligned : ALIGN ∣ alignUp piece.length - i * chunk :=
    Nat.dvd_sub (alignUp_dvd _) stepAligned
  have place := fits.place
  have inShard := fits.inside
  have up : piece.destOff + alignUp piece.length ≤ alignUp nbytes := by
    have most := alignUp_le (n := piece.length) (m := alignUp nbytes - piece.destOff)
      (by
        have least := le_alignUp nbytes
        omega)
      (Nat.dvd_sub (alignUp_dvd _) fits.destAligned)
    have least := le_alignUp nbytes
    omega
  refine ⟨fits.member, fits.file, Nat.dvd_add fits.fileAligned stepAligned,
    Nat.dvd_add fits.destAligned stepAligned, ?_, ?_, ?_, ?_⟩
  · dsimp only
    rcases Nat.le_total chunk (alignUp piece.length - i * chunk) with first | second
    · rwa [Nat.min_eq_left first]
    · rwa [Nat.min_eq_right second]
  · dsimp only
    omega
  · dsimp only
    omega
  · dsimp only
    omega

theorem pieceJobs_cover (pos : 0 < chunk) {p : Nat} (lower : piece.destOff ≤ p)
    (upper : p < piece.destOff + piece.length) :
    ∃ job ∈ pieceJobs chunk piece, job.destOff ≤ p ∧ p < job.destOff + job.length := by
  have least := le_alignUp piece.length
  have place := Nat.div_add_mod (p - piece.destOff) chunk
  have rest := Nat.mod_lt (p - piece.destOff) pos
  rw [Nat.mul_comm] at place
  refine ⟨_, mem_map.mpr ⟨(p - piece.destOff) / chunk, mem_range.mpr ?_, rfl⟩, ?_, ?_⟩
  · rw [Nat.lt_iff_add_one_le, Nat.le_div_iff_mul_le pos, Nat.succ_mul]
    omega
  · dsimp only
    omega
  · dsimp only
    omega

end Jobs

theorem take_drop_of_le {α : Type} (values : List α) {first last start n : Nat}
    (lt : first + start + n ≤ last) :
    (((values.take last).drop first).drop start).take n = (values.drop (first + start)).take n := by
  rw [drop_drop, drop_take, take_take, min_eq_left (by omega)]

section Read

variable {short : Nat → Nat} {file : Bytes} {off n : Nat}

theorem preadLoop_spec (rounds : Nat) {done : Nat} {mv : Bytes} (size : mv.length = n)
    (lt : off + n ≤ file.length) (reached : done ≤ n) (enough : n - done ≤ rounds)
    (filled : mv.take done = (file.drop off).take done) :
    preadLoop short file off rounds done mv = .ok ((file.drop off).take n) := by
  induction rounds generalizing done mv with
  | zero =>
    have all : done = mv.length := by omega
    rw [all, take_length, size] at filled
    rw [preadLoop, filled]
  | succ rounds ih =>
    rw [preadLoop]
    by_cases more : done < mv.length
    · have length : (preadv file (off + done) (mv.length - done) (short done)).length =
          min (mv.length - done) (short done + 1) := by
        unfold preadv
        rw [length_take, length_drop]
        omega
      have some_ : preadv file (off + done) (mv.length - done) (short done) ≠ [] := by
        rw [← length_pos_iff]
        omega
      rw [if_pos more]
      rw [if_neg some_]
      refine ih ?_ ?_ ?_ ?_
      · rw [setSlice_length (by omega), size]
      · omega
      · omega
      · have pre : (mv.take done).length = done := by
          rw [length_take]
          omega
        have got : preadv file (off + done) (mv.length - done) (short done) =
            ((file.drop off).drop done).take
              (preadv file (off + done) (mv.length - done) (short done)).length := by
          rw [length, drop_drop]
          rfl
        have both : (mv.take done ++
            preadv file (off + done) (mv.length - done) (short done)).length = done +
              (preadv file (off + done) (mv.length - done) (short done)).length := by
          rw [length_append, pre]
        unfold setSlice
        rw [take_left' both, filled, take_add, ← got]
    · have all : done = mv.length := by omega
      rw [all, take_length, size] at filled
      rw [if_neg more, filled]

end Read

section Copy

variable {disk : Int → Option Bytes} {limit base nbytes : Nat} {region dest : Bytes}
  {shards : List Shard} {sh : Shard} {job : Piece}

theorem JobFits.inRegion (fits : JobFits shards base nbytes sh job)
    (kept : Kept disk limit region sh) : job.range.2 ≤ (region.drop base).length := by
  have lt := kept.inside
  have inShard := fits.inShard
  have place := fits.place
  rw [length_drop]
  change job.destOff + job.length ≤ _
  omega

/-- Both ways of reading copy the bytes of the region. -/
theorem readJob_spec (backend : Backend) (kept : Kept disk limit region sh)
    (fits : JobFits shards base nbytes sh job) (room : alignUp nbytes ≤ dest.length) :
    readJob backend disk dest job = .ok (copySlice (region.drop base) dest job.range) := by
  have held := kept.held
  have lt := kept.inside
  have inShard := fits.inShard
  have inBuffer := fits.inBuffer
  have size : ((region.take (sh.globalOff + sh.nbytes)).drop sh.globalOff).length = sh.nbytes := by
    rw [length_drop, length_take]
    omega
  have bytes : (((region.take (sh.globalOff + sh.nbytes)).drop sh.globalOff).drop
      job.fileOff).take job.length =
      ((region.drop base).take (job.destOff + job.length)).drop job.destOff := by
    rw [take_drop_of_le region (by omega), fits.place, drop_take, drop_drop,
      Nat.add_sub_cancel_left]
  unfold readJob
  rw [fits.file, held]
  cases backend with
  | direct short =>
    have view : ((dest.drop job.destOff).take job.length).length = job.length := by
      rw [length_take, length_drop]
      omega
    have filled := @preadLoop_spec (short job) ((region.take (sh.globalOff + sh.nbytes)).drop
      sh.globalOff) job.fileOff _ job.length 0 _ view (by omega) (Nat.zero_le _) (by omega) rfl
    change (preadInto (short job) _ _ _ >>= _) = _
    unfold preadInto
    rw [view, filled, bytes]
    rfl
  | mapped =>
    dsimp only
    rw [if_neg (by omega)]
    rw [if_neg (by omega), bytes]
    rfl

theorem readJobs_fold (backend : Backend) (kept : ∀ sh ∈ shards, Kept disk limit region sh)
    (jobs : List Piece) (fits : ∀ job ∈ jobs, ∃ sh, JobFits shards base nbytes sh job)
    (room : alignUp nbytes ≤ dest.length) :
    jobs.foldlM (readJob backend disk) dest =
      .ok ((jobs.map Piece.range).foldl (copySlice (region.drop base)) dest) := by
  induction jobs generalizing dest with
  | nil => rfl
  | cons job jobs ih =>
    obtain ⟨sh, here⟩ := fits job mem_cons_self
    have read := readJob_spec backend (kept sh here.member) here room
    have length : (copySlice (region.drop base) dest job.range).length = dest.length :=
      copySlice_length (Nat.le_add_right _ _) (here.inRegion (kept sh here.member))
        (here.inBuffer.trans room)
    rw [foldlM_cons, read, map_cons, foldl_cons]
    exact ih (fun other mem => fits other (mem_cons_of_mem _ mem)) (length ▸ room)

end Copy

/-! ### Ranges of the region -/

section Ranges

variable {c : Checkpoint} {limit : Nat} {region : Bytes} {writes : List Write}

theorem shards_sorted (archive : Archive c limit region writes) : c.shards = c.index.shards := by
  have ordered : ∀ {start : Nat} {shards : List Shard},
      Tiles start (shards.map Shard.range) region.length →
      shards.Pairwise fun first second => first.globalOff ≤ second.globalOff := by
    intro start shards
    induction shards generalizing start with
    | nil => exact fun _ => .nil
    | cons sh shards ih =>
      intro tiles
      obtain ⟨-, -, later⟩ := tiles.uncons
      refine .cons (fun other mem => ?_) (ih later)
      have bounds := later.within (mem_map_of_mem mem)
      exact (Nat.le_add_right _ _).trans bounds.1
  exact (ordered archive.tiles).insertionSort_eq

theorem readJobs_spec (archive : Archive c limit region writes) {chunk base nbytes : Nat}
    (pos : 0 < chunk) (chunkAligned : ALIGN ∣ chunk) (aligned : ALIGN ∣ base)
    (lt : base + nbytes ≤ region.length) :
    ∃ jobs, readJobs c chunk base nbytes = .ok jobs ∧
      (∀ job ∈ jobs, ∃ sh, JobFits c.index.shards base nbytes sh job) ∧
      ∀ p < nbytes, ∃ job ∈ jobs, job.destOff ≤ p ∧ p < job.destOff + job.length := by
  obtain ⟨pieces, computed, tiled, fits⟩ := @piecesLoop_spec c.disk limit base 0 region.length
    region c.index.shards archive.tiles archive.kept 0 nbytes
    (fun _ => ⟨Nat.zero_le _, aligned, Nat.dvd_zero _⟩) (fun _ => lt)
  rw [Nat.zero_add] at tiled
  refine ⟨pieces.flatMap (pieceJobs chunk), ?_, fun job mem => ?_, fun p below => ?_⟩
  · unfold readJobs Checkpoint.pieces
    rw [shards_sorted archive]
    exact congrArg (· >>= _) computed
  · obtain ⟨piece, isPiece, isJob⟩ := mem_flatMap.mp mem
    obtain ⟨sh, fit⟩ := fits piece isPiece
    exact ⟨sh, pieceJobs_fits fit (tiled.within (mem_map_of_mem isPiece)).2.2 pos
      chunkAligned job isJob⟩
  · obtain ⟨range, isRange, lower, upper⟩ := tiled.cover (Nat.zero_le p) below
    obtain ⟨piece, isPiece, rfl⟩ := mem_map.mp isRange
    obtain ⟨job, isJob, covers⟩ := pieceJobs_cover pos lower upper
    exact ⟨job, mem_flatMap.mpr ⟨piece, isPiece, isJob⟩, covers⟩

/-- The reads, in any order, leave the bytes of the range. -/
theorem readInto_spec (archive : Archive c limit region writes) (backend : Backend)
    {order : List Piece → List Piece} (anyOrder : ∀ jobs, (order jobs).Perm jobs)
    {chunk base nbytes : Nat} (pos : 0 < chunk) (chunkAligned : ALIGN ∣ chunk)
    (aligned : ALIGN ∣ base) (lt : base + nbytes ≤ region.length) {dest : Bytes}
    (room : alignUp nbytes ≤ dest.length) :
    ∃ filled, readInto c backend order chunk dest base nbytes = .ok filled ∧
      filled.length = dest.length ∧ filled.take nbytes = (region.drop base).take nbytes := by
  obtain ⟨jobs, computed, fits, covered⟩ := readJobs_spec archive pos chunkAligned aligned lt
  have orderFits : ∀ job ∈ order jobs, ∃ sh, JobFits c.index.shards base nbytes sh job :=
    fun job mem => fits job ((anyOrder jobs).mem_iff.mp mem)
  have folded := readJobs_fold backend archive.kept (order jobs) orderFits room
  have ranges : ∀ range ∈ (order jobs).map Piece.range, range.1 ≤ range.2 ∧
      range.2 ≤ (region.drop base).length ∧ range.2 ≤ dest.length := by
    intro range mem
    obtain ⟨job, isJob, rfl⟩ := mem_map.mp mem
    obtain ⟨sh, fit⟩ := orderFits job isJob
    exact ⟨Nat.le_add_right _ _, fit.inRegion (archive.kept sh fit.member), fit.inBuffer.trans room⟩
  refine ⟨_, ?_, (copySlices_get ranges).1, copySlices_cover ranges fun p below => ?_⟩
  · unfold readInto
    rw [computed]
    exact folded
  · obtain ⟨job, isJob, covers⟩ := covered p below
    exact ⟨job.range, mem_map_of_mem ((anyOrder jobs).mem_iff.mpr isJob), covers⟩

end Ranges

end FreeToken.Ftw
