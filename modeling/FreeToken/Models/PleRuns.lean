/-
**Runs of forwards over the context slots.**
-/

import FreeToken.Models.PleRows

namespace FreeToken

open List Function

/-! ### Steps -/

/-- A forward, or the copy or the reset of a slot. -/
inductive PleStep where
  | forward (batch : PleBatch)
  /-- `copy_from`: a snapshot is restored, or taken. -/
  | copyFrom (src dst : Nat)
  | reset (slot : Nat)
  deriving DecidableEq, Repr

variable (args : NgramArgs)

def PleStep.apply (pool : NgramPool) : PleStep → Option (List (List (BitVec 64)) × NgramPool)
  | .forward batch => args.forward pool batch
  | .copyFrom src dst => some ([], Function.update pool dst (pool src))
  | .reset slot => some ([], Function.update pool slot (List.replicate args.ctxLen args.boundary))

def NgramArgs.run (args : NgramArgs) (pool : NgramPool) :
    List PleStep → Option (List (List (List (BitVec 64))) × NgramPool)
  | [] => some ([], pool)
  | step :: steps => do
      let (rows, pool) ← step.apply args pool
      let (more, pool) ← args.run pool steps
      return (rows :: more, pool)

/-! ### What the slots stand for -/

/-- The stream that every slot stands for. `PleBatch.Allowed` is what a scheduler does: the slots
are distinct, and a request goes on where the stream of its slot ends. -/
abbrev PleLedger := Nat → Option (List TokenId)

namespace PleReq

variable (ledger : PleLedger) (req : PleReq)

def prior : List TokenId := if req.cachedLen = 0 then [] else (ledger req.slot).getD []

def stream : List TokenId := req.prior ledger ++ req.tokens

def boundary : Nat := (req.tokens.length - 1) / chunkSize * chunkSize

def snapshotSlot : Option Nat :=
  if (req.tokens.length - 1) / chunkSize < 1 then none else req.trackSlot

def snapshot : List TokenId := req.prior ledger ++ req.tokens.take req.boundary

end PleReq

namespace PleBatch

variable (ledger : PleLedger) (batch : PleBatch)

def slots : List Nat := batch.reqs.map PleReq.slot

def snapshotSlots : List Nat :=
  if batch.isDecode then [] else batch.reqs.filterMap PleReq.snapshotSlot

def advances : List (Copy Nat (Option (List TokenId))) :=
  batch.reqs.map fun req => ⟨req.slot, .value (some (req.stream ledger))⟩

def snapshots : List (Copy Nat (Option (List TokenId))) :=
  if batch.isDecode then []
  else batch.reqs.filterMap fun req =>
    req.snapshotSlot.map fun dst => ⟨dst, .value (some (req.snapshot ledger))⟩

def after : PleLedger := runCopies (runCopies ledger (batch.advances ledger)) (batch.snapshots ledger)

/-- What a scheduler does: a chunk has a token or more, a decode step has one, a request goes on
where the stream of its slot ends, and all slots are distinct. -/
structure Allowed : Prop where
  some_ : ∀ req ∈ batch.reqs, req.tokens ≠ []
  single : batch.isDecode = true → ∀ req ∈ batch.reqs, req.tokens.length = 1
  fresh : ∀ req ∈ batch.reqs, req.cachedLen = 0 → batch.isDecode = false
  continues : ∀ req ∈ batch.reqs, req.cachedLen ≠ 0 →
    ∃ prior, ledger req.slot = some prior ∧ prior.length = req.cachedLen
  distinct : (batch.slots ++ batch.snapshotSlots).Nodup

def Reaches (batch : PleBatch) : Prop :=
  batch.isDecode = false → ∀ req ∈ batch.reqs, req.snapshotSlot.isSome → args.ctxLen ≤ req.boundary

end PleBatch

namespace PleStep

variable (ledger : PleLedger)

def after : PleStep → PleLedger
  | .forward batch => batch.after ledger
  | .copyFrom src dst => Function.update ledger dst (ledger src)
  | .reset slot => Function.update ledger slot (some [])

def Allowed : PleStep → Prop
  | .forward batch => batch.Allowed ledger
  | _ => True

def Reaches : PleStep → Prop
  | .forward batch => batch.Reaches args
  | _ => True

end PleStep

variable (ledger : PleLedger)

namespace PleLedger

def afterAll (steps : List PleStep) : PleLedger :=
  steps.foldl (fun ledger step => step.after ledger) ledger

def Allows (ledger : PleLedger) : List PleStep → Prop
  | [] => True
  | step :: steps => step.Allowed ledger ∧ Allows (step.after ledger) steps

end PleLedger

/-! ### One forward over a whole stream -/

variable (stream : List TokenId)

def wholeBatch : PleBatch where
  reqs := [{ slot := 0, cachedLen := 0, tokens := stream }]

namespace NgramArgs

variable (args : NgramArgs)

/-- One forward over a whole stream. -/
def single : Option (List (List (BitVec 64)) × NgramPool) :=
  args.forward (fun _ => []) (wholeBatch stream)

def singleRows : List (List (BitVec 64)) := ((args.single stream).map Prod.fst).getD []

def singleContext : List TokenId := ((args.single stream).map fun done => done.2 0).getD []

/-- The rows that a step has to compute: for every request those of its new tokens in a single
forward over its whole stream. -/
def stepRows : PleStep → List (List (BitVec 64))
  | .forward batch => batch.reqs.flatMap fun req =>
      (args.singleRows (req.stream ledger)).drop req.cachedLen
  | _ => []

def runRows (ledger : PleLedger) : List PleStep → List (List (List (BitVec 64)))
  | [] => []
  | step :: steps => args.stepRows ledger step :: runRows (step.after ledger) steps

end NgramArgs

theorem PleStep.reaches_of_le {args : NgramArgs} (short : args.ctxLen ≤ chunkSize)
    (step : PleStep) : step.Reaches args := by
  cases step with
  | forward batch =>
    intro _ req _ isSnapshot
    refine short.trans ?_
    unfold PleReq.snapshotSlot at isSnapshot
    split at isSnapshot
    · cases isSnapshot
    · rename_i some_
      exact Nat.le_mul_of_pos_left _ (pos_of_ne_zero fun none => some_ (by omega))
  | _ => trivial

/-! ### One forward of a run -/

def Agrees (pool : NgramPool) : Prop :=
  ∀ slot stream, ledger slot = some stream → pool slot = contextOf args stream

namespace PleBatch

variable {args : NgramArgs} {ledger : PleLedger} {pool : NgramPool} {batch : PleBatch}

section Streams

variable (allowed : batch.Allowed ledger)

include allowed

theorem prior_length {req : PleReq} (mem : req ∈ batch.reqs) :
    (req.prior ledger).length = req.cachedLen := by
  unfold PleReq.prior
  by_cases isFresh : req.cachedLen = 0
  · rw [if_pos isFresh, isFresh]
    rfl
  · obtain ⟨prior, stands, length⟩ := allowed.continues req mem isFresh
    rw [if_neg isFresh, stands]
    exact length

theorem found (agrees : Agrees args ledger pool) {i : Nat} (isReq : i < batch.reqs.length) :
    (batch.metadata args pool).ngramContext.getD i [] =
      contextOf args (batch.reqs[i].prior ledger) := by
  have mem := getElem_mem isReq
  rw [ngramContext_getD isReq]
  unfold PleReq.prior
  by_cases isFresh : batch.reqs[i].cachedLen = 0
  · rw [if_pos ⟨by simp [allowed.fresh _ mem isFresh], isFresh⟩, if_pos isFresh, contextOf_nil]
  · obtain ⟨prior, stands, -⟩ := allowed.continues _ mem isFresh
    rw [if_neg fun both => isFresh both.2, if_neg isFresh, stands]
    exact agrees _ _ stands

end Streams

/-- `streams` as a function of the number of a request. -/
def priors (ledger : PleLedger) (batch : PleBatch) (i : Nat) : List TokenId :=
  ((batch.reqs[i]?).map fun req => req.prior ledger).getD []

theorem priors_eq {i : Nat} (isReq : i < batch.reqs.length) :
    batch.priors ledger i = batch.reqs[i].prior ledger := by
  unfold priors
  rw [getElem?_eq_getElem isReq]
  rfl

/-! ### The slots behind a forward -/

theorem slots_distinct (allowed : batch.Allowed ledger) : (batch.reqs.map PleReq.slot).Nodup :=
  (nodup_append.mp allowed.distinct).1

theorem advances_dst : (batch.advances ledger).map Copy.dst = batch.slots := by
  unfold advances slots
  rw [map_map]
  rfl

theorem snapshots_dst : (batch.snapshots ledger).map Copy.dst = batch.snapshotSlots := by
  unfold snapshots snapshotSlots
  split
  · rfl
  · rw [map_filterMap]
    refine filterMap_congr fun req _ => ?_
    cases req.snapshotSlot <;> rfl

theorem apart_of_values {Cell Value : Type} {copies : List (Copy Cell Value)}
    (nodup : (copies.map Copy.dst).Nodup)
    (values : ∀ copy ∈ copies, ∃ value, copy.source = .value value) : Apart copies := by
  refine ⟨nodup, fun copy mem cell reads => ?_⟩
  obtain ⟨value, isValue⟩ := values copy mem
  rw [isValue] at reads
  cases reads

theorem advances_apart (allowed : batch.Allowed ledger) : Apart (batch.advances ledger) := by
  refine apart_of_values (by rw [advances_dst]; exact slots_distinct allowed) fun copy mem => ?_
  obtain ⟨req, -, rfl⟩ := mem_map.mp mem
  exact ⟨_, rfl⟩

theorem snapshots_apart (allowed : batch.Allowed ledger) : Apart (batch.snapshots ledger) := by
  refine apart_of_values ?_ fun copy mem => ?_
  · rw [snapshots_dst]
    exact (nodup_append.mp allowed.distinct).2.1
  · unfold snapshots at mem
    split at mem
    · cases mem
    · obtain ⟨req, -, isCopy⟩ := mem_filterMap.mp mem
      obtain ⟨dst, -, rfl⟩ := Option.map_eq_some_iff.mp isCopy
      exact ⟨_, rfl⟩

theorem rolls_dst : ((batch.metadata args pool).rolls args).map Copy.dst = batch.slots := by
  unfold PleMetadata.rolls
  rw [map_map]
  exact zipIdx_map_fst _ _

theorem rolls_apart (allowed : batch.Allowed ledger) :
    Apart ((batch.metadata args pool).rolls args) := by
  refine apart_of_values (by rw [rolls_dst]; exact slots_distinct allowed) fun copy mem => ?_
  obtain ⟨item, -, rfl⟩ := mem_map.mp mem
  exact ⟨_, rfl⟩

theorem roll_slot (allowed : batch.Allowed ledger) (agrees : Agrees args ledger pool) {i : Nat}
    (isReq : i < batch.reqs.length) :
    (batch.metadata args pool).roll args pool batch.reqs[i].slot =
      contextOf args (batch.reqs[i].stream ledger) := by
  have mem : (batch.reqs[i].slot, i) ∈ (batch.metadata args pool).stateSlots.zipIdx := by
    rw [mk_mem_zipIdx_iff_getElem?]
    unfold metadata
    rw [getElem?_map, getElem?_eq_getElem isReq]
    rfl
  have written := @runCopies_of_mem _ _ _ pool _ (rolls_apart allowed) _
    (mem_map_of_mem mem)
  exact written.trans (nextContext_eq isReq (found allowed agrees isReq) allowed.single)

theorem roll_other {slot : Nat} (other : slot ∉ batch.slots) :
    (batch.metadata args pool).roll args pool slot = pool slot := by
  unfold PleMetadata.roll
  rw [runCopies_of_notMem]
  rwa [rolls_dst]

/-! ### The snapshots -/

theorem trackRow_eq (req : PleReq) (off : Nat) :
    trackRow req off = req.snapshotSlot.map fun dst => (dst, off + req.boundary) := by
  unfold trackRow PleReq.snapshotSlot PleReq.boundary
  cases req.trackSlot with
  | none =>
    rw [ite_self]
    rfl
  | some dst =>
    dsimp only
    split <;> rfl

theorem not_decode_of_track {pair : Nat × Nat} (mem : pair ∈ batch.track) :
    ¬batch.isDecode = true := by
  intro isDecode
  unfold track at mem
  rw [isDecode] at mem
  cases mem

theorem mem_track {dst row : Nat} (mem : (dst, row) ∈ batch.track) :
    ∃ (i : Nat) (isReq : i < batch.reqs.length), batch.reqs[i].snapshotSlot = some dst ∧
      row = batch.start i + batch.reqs[i].boundary := by
  have isPrefill := not_decode_of_track mem
  unfold track at mem
  rw [if_neg isPrefill] at mem
  obtain ⟨⟨req, off⟩, isPair, isRow⟩ := mem_filterMap.mp mem
  obtain ⟨i, within, isPair⟩ := getElem_of_mem isPair
  rw [length_zip] at within
  have isReq : i < batch.reqs.length := by omega
  rw [getElem_zip] at isPair
  obtain ⟨rfl, rfl⟩ := Prod.mk.inj isPair
  dsimp only at isRow
  rw [trackRow_eq] at isRow
  obtain ⟨slot, isSlot, same⟩ := Option.map_eq_some_iff.mp isRow
  obtain ⟨rfl, rfl⟩ := Prod.mk.inj same
  refine ⟨i, isReq, isSlot, congrArg (· + _) ?_⟩
  rw [← getD_eq_getElem _ 0, cumsum_getD (by rw [seqLens_length]; omega)]
  rfl

theorem boundary_lt {req : PleReq} {dst : Nat} (isSnapshot : req.snapshotSlot = some dst) :
    req.boundary < req.tokens.length := by
  unfold PleReq.snapshotSlot at isSnapshot
  split at isSnapshot
  · cases isSnapshot
  · rename_i some_
    unfold PleReq.boundary
    have most := Nat.div_mul_le_self (req.tokens.length - 1) chunkSize
    have pos : 0 < req.tokens.length - 1 := by
      by_contra none
      rw [Nat.le_zero.mp (not_lt.mp none), Nat.zero_div] at some_
      exact some_ Nat.one_pos
    omega

theorem boundaryWindow_eq {stream : List TokenId} {i : Nat} (isReq : i < batch.reqs.length)
    {row : Nat} (isRow : row = batch.start i + batch.reqs[i].boundary)
    (lt : batch.reqs[i].boundary < batch.reqs[i].tokens.length)
    (reaches : args.ctxLen ≤ batch.reqs[i].boundary) :
    (batch.metadata args pool).boundaryWindow args row =
      some (contextOf args (stream ++ batch.reqs[i].tokens.take batch.reqs[i].boundary)) := by
  refine mapM_some fun step mem => ?_
  have within := mem_range.mp mem
  have enough : args.ctxLen ≤ batch.reqs[i].boundary + step := Nat.le_add_right_of_le reaches
  obtain ⟨place, isPlace⟩ := Nat.exists_eq_add_of_le enough
  have index : (row : Int) - args.ctxLen + step = ((batch.start i + place : Nat) : Int) := by omega
  have there : (stream ++ batch.reqs[i].tokens.take batch.reqs[i].boundary).length + step =
      args.ctxLen + (stream.length + place) := by
    rw [length_append, length_take]
    omega
  have token : batch.inputIds[batch.start i + place]? = batch.reqs[i].tokens[place]? :=
    flatMap_getElem? isReq (by omega)
  unfold tensorIndex
  rw [index, if_neg (by omega), Int.toNat_natCast, there, padded_new]
  refine token.trans ?_
  rw [getElem?_eq_getElem (by omega), getD_eq_getElem _ _ (by
    rw [length_take]; omega), getElem_take]

theorem track_dst : batch.track.map Prod.fst = batch.snapshotSlots := by
  unfold track snapshotSlots
  split
  · rfl
  · have same : ∀ req off, (trackRow req off).map Prod.fst = req.snapshotSlot := by
      intro req off
      rw [trackRow_eq, Option.map_map]
      exact Option.map_id'
    rw [map_filterMap, @filterMap_congr _ _ _ (fun pair : PleReq × Nat => pair.1.snapshotSlot) _
        fun pair _ => same pair.1 pair.2]
    have long : batch.reqs.length ≤ (cumsum batch.seqLens).length := by
      unfold cumsum
      rw [length_map, length_range, seqLens_length]
      exact Nat.le_succ _
    have firsts := congrArg (filterMap PleReq.snapshotSlot) (map_fst_zip long)
    rw [filterMap_map] at firsts
    exact firsts

variable (args pool batch) in
def windowWrites : List (Copy Nat (List TokenId)) :=
  batch.track.map fun pair =>
    ⟨pair.1, .value (((batch.metadata args pool).boundaryWindow args pair.2).getD [])⟩

theorem windowWrites_dst : (windowWrites args pool batch).map Copy.dst = batch.snapshotSlots := by
  unfold windowWrites
  rw [map_map]
  exact track_dst

section Commit

variable (allowed : batch.Allowed ledger) (reaches : batch.Reaches args)

include reaches

theorem window_eq {dst row : Nat} (mem : (dst, row) ∈ batch.track) :
    ∃ (i : Nat) (isReq : i < batch.reqs.length), batch.reqs[i].snapshotSlot = some dst ∧
      (batch.metadata args pool).boundaryWindow args row =
        some (contextOf args (batch.reqs[i].snapshot ledger)) := by
  have isPrefill := Bool.not_eq_true _ ▸ not_decode_of_track mem
  obtain ⟨i, isReq, isSlot, isRow⟩ := mem_track mem
  have deep := reaches isPrefill _ (getElem_mem isReq) (by rw [isSlot]; rfl)
  exact ⟨i, isReq, isSlot, boundaryWindow_eq isReq isRow (boundary_lt isSlot) deep⟩

theorem commit_eq : (batch.metadata args pool).commit args pool batch.track =
    some (runCopies ((batch.metadata args pool).roll args pool) (windowWrites args pool batch)) := by
  have each : ∀ pair ∈ batch.track,
      ((batch.metadata args pool).boundaryWindow args pair.2).map (pair.1, ·) =
        some (pair.1, ((batch.metadata args pool).boundaryWindow args pair.2).getD []) := by
    intro pair mem
    obtain ⟨i, isReq, -, isWindow⟩ := @window_eq args (fun _ => none) pool batch reaches _ _ mem
    rw [isWindow]
    rfl
  unfold PleMetadata.commit windowWrites
  rw [mapM_some each]
  show some (runCopies _ ((batch.track.map _).map _)) = _
  rw [map_map]
  rfl

include allowed

/-- **Behind a forward every slot holds the context of its stream.** -/
theorem commit_agrees (agrees : Agrees args ledger pool) : Agrees args (batch.after ledger)
      (runCopies ((batch.metadata args pool).roll args pool) (windowWrites args pool batch)) := by
  have nodup := nodup_append.mp allowed.distinct
  intro slot stream stands
  unfold after at stands
  by_cases isSnapshot : slot ∈ batch.snapshotSlots
  · have apart : Apart (windowWrites args pool batch) := by
      refine apart_of_values (by rw [windowWrites_dst]; exact nodup.2.1) fun copy mem => ?_
      obtain ⟨pair, -, rfl⟩ := mem_map.mp mem
      exact ⟨_, rfl⟩
    have isWritten := isSnapshot
    rw [← track_dst] at isWritten
    obtain ⟨⟨dst, row⟩, mem, rfl⟩ := mem_map.mp isWritten
    obtain ⟨i, isReq, isSlot, isWindow⟩ := @window_eq args ledger pool batch reaches _ _ mem
    have isCopy : ⟨dst, .value (some (batch.reqs[i].snapshot ledger))⟩ ∈ batch.snapshots ledger := by
      unfold snapshots
      rw [if_neg (not_decode_of_track mem)]
      refine mem_filterMap.mpr ⟨batch.reqs[i], getElem_mem isReq, ?_⟩
      rw [isSlot]
      rfl
    rw [runCopies_of_mem (snapshots_apart allowed) isCopy] at stands
    cases stands
    have written := @runCopies_of_mem _ _ _ ((batch.metadata args pool).roll args pool) _ apart _
      (mem_map_of_mem mem)
    refine written.trans ?_
    rw [isWindow]
    rfl
  · rw [runCopies_of_notMem (by rwa [windowWrites_dst])]
    rw [runCopies_of_notMem (by rwa [snapshots_dst])] at stands
    by_cases isSlot : slot ∈ batch.slots
    · obtain ⟨req, mem, rfl⟩ := mem_map.mp isSlot
      obtain ⟨i, isReq, rfl⟩ := getElem_of_mem mem
      rw [roll_slot allowed agrees isReq]
      rw [runCopies_of_mem (advances_apart allowed) (mem_map_of_mem mem)] at stands
      exact congrArg (contextOf args) (Option.some.inj stands)
    · rw [roll_other isSlot]
      rw [runCopies_of_notMem (by rwa [advances_dst])] at stands
      exact agrees slot stream stands

end Commit

end PleBatch

/-! ### Single forwards -/

section Single

variable (args : NgramArgs) (stream : List TokenId)

theorem single_eq : ∃ pool, args.single stream =
    some ((List.range stream.length).map (tokenRows args stream), pool) ∧
      pool 0 = contextOf args stream := by
  have isReq : 0 < (wholeBatch stream).reqs.length := one_pos
  have found : ((wholeBatch stream).metadata args fun _ => []).ngramContext.getD 0 [] =
      contextOf args [] := by
    rw [PleBatch.ngramContext_getD isReq, contextOf_nil]
    exact if_pos ⟨Bool.false_ne_true, rfl⟩
  have isDecode : ¬(wholeBatch stream).isDecode = true := Bool.false_ne_true
  have rows := PleBatch.rowIds_eq (fun _ => []) (fun decodes => absurd decodes isDecode)
    fun req within => by
      obtain rfl : req = 0 := Nat.lt_one_iff.mp within
      exact found
  have allRows : NgramEmbedding.rowIds args ((wholeBatch stream).metadata args fun _ => []) =
      (range stream.length).map (tokenRows args stream) := by
    rw [rows]
    show (range stream.length).map (fun place => tokenRows args stream (0 + place)) ++ [] = _
    rw [append_nil]
    exact map_congr_left fun place _ => congrArg _ (zero_add place)
  have context := PleBatch.nextContext_eq isReq found fun decodes => absurd decodes isDecode
  refine ⟨((wholeBatch stream).metadata args fun _ => []).roll args fun _ => [], ?_, ?_⟩
  · have none : (wholeBatch stream).track = [] := rfl
    show ((wholeBatch stream).metadata args fun _ => []).commit args _ (wholeBatch stream).track >>=
      _ = _
    rw [none]
    rw [allRows]
    rfl
  · have one : ((wholeBatch stream).metadata args fun _ => []).rolls args =
        [⟨0, .value (((wholeBatch stream).metadata args fun _ => []).nextContext args 0)⟩] := rfl
    unfold PleMetadata.roll runCopies
    rw [one, foldl_cons, foldl_nil]
    exact (update_self _ _ _).trans context

theorem singleRows_eq :
    args.singleRows stream = (List.range stream.length).map (tokenRows args stream) := by
  obtain ⟨pool, done, -⟩ := single_eq args stream
  unfold NgramArgs.singleRows
  rw [done]
  rfl

theorem singleContext_eq : args.singleContext stream = contextOf args stream := by
  obtain ⟨pool, done, isContext⟩ := single_eq args stream
  unfold NgramArgs.singleContext
  rw [done]
  exact isContext

end Single

/-! ### Runs -/

section Runs

variable {args : NgramArgs} {ledger : PleLedger} {pool : NgramPool}

theorem rowIds_streams {batch : PleBatch} (allowed : batch.Allowed ledger)
    (agrees : Agrees args ledger pool) :
    NgramEmbedding.rowIds args (batch.metadata args pool) = batch.reqs.flatMap fun req =>
      (List.range req.tokens.length).map fun place =>
        tokenRows args (req.stream ledger) ((req.prior ledger).length + place) := by
  have rows := PleBatch.rowIds_eq (batch.priors ledger) allowed.single fun i isReq => by
    rw [PleBatch.priors_eq isReq]
    exact PleBatch.found allowed agrees isReq
  have each : ∀ item ∈ batch.reqs.zipIdx,
      ((range item.1.tokens.length).map fun place => tokenRows args
        (batch.priors ledger item.2 ++ item.1.tokens) ((batch.priors ledger item.2).length + place)) =
        (range item.1.tokens.length).map fun place =>
          tokenRows args (item.1.stream ledger) ((item.1.prior ledger).length + place) := by
    intro item mem
    obtain ⟨isReq, same⟩ := mem_zipIdx' mem
    rw [PleBatch.priors_eq isReq, ← same]
    rfl
  have requests := congrArg (flatMap fun req : PleReq =>
    (range req.tokens.length).map fun place =>
      tokenRows args (req.stream ledger) ((req.prior ledger).length + place))
    (zipIdx_map_fst 0 batch.reqs)
  rw [flatMap_map] at requests
  exact rows.trans ((flatMap_congr each).trans requests)

theorem rows_drop {req : PleReq} (length : (req.prior ledger).length = req.cachedLen) :
    ((List.range req.tokens.length).map fun place =>
      tokenRows args (req.stream ledger) ((req.prior ledger).length + place)) =
      (args.singleRows (req.stream ledger)).drop req.cachedLen := by
  have later : (range (req.stream ledger).length).drop (req.prior ledger).length =
      (range req.tokens.length).map ((req.prior ledger).length + ·) := by
    unfold PleReq.stream
    rw [length_append, range_add]
    exact drop_left' length_range
  rw [singleRows_eq, ← length, ← map_drop, later, map_map]
  rfl

theorem forward_spec {batch : PleBatch} (allowed : batch.Allowed ledger)
    (reaches : batch.Reaches args) (agrees : Agrees args ledger pool) :
    ∃ later, args.forward pool batch = some (args.stepRows ledger (.forward batch), later) ∧
      Agrees args (batch.after ledger) later := by
  refine ⟨_, ?_, PleBatch.commit_agrees allowed reaches agrees⟩
  unfold NgramArgs.forward
  dsimp only
  rw [PleBatch.commit_eq reaches, rowIds_streams allowed agrees]
  show some (_, _) = some (_, _)
  congr 2
  exact flatMap_congr fun req mem => rows_drop (PleBatch.prior_length allowed mem)

theorem step_spec {step : PleStep} (allowed : step.Allowed ledger) (reaches : step.Reaches args)
    (agrees : Agrees args ledger pool) :
    ∃ later, step.apply args pool = some (args.stepRows ledger step, later) ∧
      Agrees args (step.after ledger) later := by
  cases step with
  | forward batch => exact forward_spec allowed reaches agrees
  | copyFrom src dst =>
    refine ⟨_, rfl, fun slot stream stands => ?_⟩
    unfold PleStep.after at stands
    dsimp only at stands
    by_cases isDst : slot = dst
    · rw [isDst, update_self] at stands ⊢
      exact agrees src stream stands
    · rw [update_of_ne isDst] at stands ⊢
      exact agrees slot stream stands
  | reset other =>
    refine ⟨_, rfl, fun slot stream stands => ?_⟩
    unfold PleStep.after at stands
    dsimp only at stands
    by_cases isReset : slot = other
    · rw [isReset, update_self] at stands ⊢
      cases stands
      exact contextOf_nil.symm
    · rw [update_of_ne isReset] at stands ⊢
      exact agrees slot stream stands

theorem run_spec (steps : List PleStep) (allowed : ledger.Allows steps)
    (reaches : ∀ step ∈ steps, step.Reaches args) (agrees : Agrees args ledger pool) :
    ∃ later, args.run pool steps = some (args.runRows ledger steps, later) ∧
      Agrees args (ledger.afterAll steps) later := by
  induction steps generalizing ledger pool with
  | nil => exact ⟨pool, rfl, agrees⟩
  | cons step steps ih =>
    obtain ⟨middle, done, middleAgrees⟩ := step_spec allowed.1 (reaches step mem_cons_self) agrees
    obtain ⟨later, rest, laterAgrees⟩ :=
      ih allowed.2 (fun other mem => reaches other (mem_cons_of_mem _ mem)) middleAgrees
    refine ⟨later, ?_, laterAgrees⟩
    unfold NgramArgs.run
    rw [done]
    show (args.run middle steps).bind _ = _
    rw [rest]
    rfl

/-- **The row ids do not depend on the chunks.** In every run whose snapshots reach back no further
than their forward, the rows of every forward are those of single forwards over the whole streams,
and every slot holds the context that such a forward leaves. -/
theorem chunk_invariant (args : NgramArgs) (pool : NgramPool) (steps : List PleStep)
    (allowed : PleLedger.Allows (fun _ => none) steps)
    (reaches : ∀ step ∈ steps, step.Reaches args) :
    ∃ later, args.run pool steps = some (args.runRows (fun _ => none) steps, later) ∧
      ∀ slot stream, PleLedger.afterAll (fun _ => none) steps slot = some stream →
        later slot = args.singleContext stream := by
  obtain ⟨later, done, agrees⟩ := @run_spec args (fun _ => none) pool steps allowed reaches
    fun slot stream stands => by cases stands
  refine ⟨later, done, fun slot stream stands => ?_⟩
  rw [singleContext_eq]
  exact agrees slot stream stands

end Runs

/-! ### Runs of a small model -/

namespace NgramArgs

def small : NgramArgs where
  ngramSize := 3
  headsPerNgram := 1
  boundary := 0
  multipliers := [3, 5, 7]
  headsVocabSizes := [11, 13]
  headsOffsets := [0, 11]
  atLeastTwo := by decide

def long : NgramArgs where
  ngramSize := 67
  headsPerNgram := 0
  boundary := 0
  multipliers := []
  headsVocabSizes := []
  headsOffsets := []
  atLeastTwo := by decide

end NgramArgs

def smallSteps : List PleStep :=
  [.forward { reqs := [{ slot := 1, cachedLen := 0, tokens := [5] }] },
    .forward { reqs := [{ slot := 1, cachedLen := 1, tokens := [0, 6] }] },
    .forward { reqs := [{ slot := 1, cachedLen := 3, tokens := [7] }], isDecode := true }]

theorem chunk_invariant_small : ∃ later, NgramArgs.small.run (fun _ => []) smallSteps =
    some (NgramArgs.small.runRows (fun _ => none) smallSteps, later) ∧
      ∀ slot stream, PleLedger.afterAll (fun _ => none) smallSteps slot = some stream →
        later slot = NgramArgs.small.singleContext stream := by
  refine chunk_invariant NgramArgs.small _ smallSteps ⟨?_, ?_, ?_, trivial⟩ ?_
  · exact ⟨by decide, by decide, by decide, by decide, by decide⟩
  · refine ⟨by decide, by decide, by decide, fun req mem _ => ?_, by decide⟩
    rw [eq_of_mem_singleton mem]
    exact ⟨[5], rfl, rfl⟩
  · refine ⟨by decide, by decide, by decide, fun req mem _ => ?_, by decide⟩
    rw [eq_of_mem_singleton mem]
    exact ⟨[5, 0, 6], rfl, rfl⟩
  · exact fun step _ => step.reaches_of_le (by decide)

def longSteps : List PleStep :=
  [.forward { reqs := [{ slot := 1, cachedLen := 0, tokens := List.replicate 65 1,
                         trackSlot := some 9 }] }]

/-- The window of the snapshot reaches before the forward, and comes back from its end. -/
theorem snapshot_wraps : ∃ rows later, PleLedger.Allows (fun _ => none) longSteps ∧
    NgramArgs.long.run (fun _ => []) longSteps = some (rows, later) ∧
    PleLedger.afterAll (fun _ => none) longSteps 9 = some (List.replicate 64 1) ∧
    later 9 ≠ NgramArgs.long.singleContext (List.replicate 64 1) := by
  refine ⟨_, _, ⟨⟨by decide, by decide, by decide, by decide, by decide⟩, trivial⟩, rfl, rfl, ?_⟩
  rw [singleContext_eq]
  decide

end FreeToken
