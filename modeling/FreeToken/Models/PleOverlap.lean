/-
**The disk backend stages the rows of the device.**
-/

import FreeToken.Models.PleDisk

namespace FreeToken

open List Function

/-- A request in its slot: `input_ids`, the length of its prompt, and how much of it was forwarded. -/
structure Seat where
  ids : List TokenId
  promptLen : Nat
  cachedLen : Nat
  deriving DecidableEq, Repr

/-- `ledger` is what the slots stand for; only the conditions on the events read it. -/
structure PleOverlap where
  pool : NgramPool
  ledger : PleLedger := fun _ => none
  seats : Nat → Option Seat := fun _ => none
  /-- The slots and the tokens of the results that the host has not processed. -/
  inflight : List (Nat × TokenId) := []

structure LaunchPart where
  slot : Nat
  len : Nat
  trackSlot : Option Nat := none
  deriving DecidableEq, Repr

/-- A batch; the lanes that fill up a graph are `pads`. -/
structure Launch where
  parts : List LaunchPart
  isDecode : Bool := false
  pads : List PleReq := []
  deriving DecidableEq, Repr

namespace PleOverlap

variable (s : PleOverlap)

def pending (slot : Nat) : List TokenId := (s.inflight.filter fun res => res.1 = slot).map Prod.snd

def seat (slot : Nat) : Seat := (s.seats slot).getD ⟨[], 0, 0⟩

/-- `token_pool`: the tokens that the device has. -/
def tokens (slot : Nat) : List TokenId := (s.seat slot).ids ++ s.pending slot

def request (part : LaunchPart) : PleReq where
  slot := part.slot
  cachedLen := (s.seat part.slot).cachedLen
  tokens := ((s.tokens part.slot).drop (s.seat part.slot).cachedLen).take part.len
  trackSlot := part.trackSlot

def hostRequest (isDecode : Bool) (part : LaunchPart) : HostReq where
  ids := if isDecode then (s.seat part.slot).ids
    else (s.seat part.slot).ids.take ((s.seat part.slot).cachedLen + part.len)
  cachedLen := (s.seat part.slot).cachedLen
  deviceLen := (s.seat part.slot).cachedLen + part.len

end PleOverlap

namespace Launch

variable (s : PleOverlap) (launch : Launch)

def batch : PleBatch where
  reqs := launch.parts.map s.request
  isDecode := launch.isDecode

def device : PleBatch where
  reqs := (launch.batch s).reqs ++ launch.pads
  isDecode := launch.isDecode

def host : HostBatch where
  reqs := launch.parts.map (s.hostRequest launch.isDecode)
  readback := (launch.device s).inputIds
  isDecode := launch.isDecode

def finishes (part : LaunchPart) : Bool :=
  launch.isDecode || (s.seat part.slot).cachedLen + part.len = (s.seat part.slot).promptLen

/-- What a scheduler launches: chunks of prompts, or one token of every request that is past its
prompt. -/
structure Allowed (sampled : List (Nat × TokenId)) : Prop where
  seated : ∀ part ∈ launch.parts, (s.seats part.slot).isSome
  some_ : ∀ part ∈ launch.parts, 0 < part.len
  chunk : launch.isDecode = false → ∀ part ∈ launch.parts,
    (s.seat part.slot).cachedLen + part.len ≤ (s.seat part.slot).promptLen
  decode : launch.isDecode = true → ∀ part ∈ launch.parts,
    part.len = 1 ∧ (s.seat part.slot).promptLen ≤ (s.seat part.slot).cachedLen
  distinct : ((launch.batch s).slots ++ (launch.batch s).snapshotSlots).Nodup
  free : ∀ slot ∈ (launch.batch s).snapshotSlots, s.seats slot = none
  padSlots : ∀ pad ∈ launch.pads, s.seats pad.slot = none
  padTokens : ∀ pad ∈ launch.pads, pad.tokens.length = 1
  graphs : launch.isDecode = false → launch.pads = []
  samples : sampled.map Prod.fst = (launch.parts.filter (launch.finishes s)).map LaunchPart.slot

def ledger : PleLedger := fun slot =>
  if slot ∈ launch.pads.map PleReq.slot then none else (launch.batch s).after s.ledger slot

def advance (slot : Nat) : Nat :=
  ((launch.parts.filter fun part => part.slot = slot).map LaunchPart.len).sum

end Launch

namespace PleOverlap

variable (s : PleOverlap)

/-- `append_host`: the host processes the last results. -/
def drained (slot : Nat) : Option Seat :=
  (s.seats slot).map fun seat => { seat with ids := seat.ids ++ s.pending slot }

def launched (launch : Launch) (sampled : List (Nat × TokenId)) (pool : NgramPool) :
    PleOverlap where
  pool := pool
  ledger := launch.ledger s
  seats slot := (s.drained slot).map fun seat =>
    { seat with cachedLen := seat.cachedLen + launch.advance slot }
  inflight := sampled

def arrive (slot : Nat) (prompt : List TokenId) (cachedLen : Nat) : PleOverlap :=
  { s with
    seats := Function.update s.seats slot (some ⟨prompt, prompt.length, cachedLen⟩)
    inflight := s.inflight.filter fun res => res.1 ≠ slot }

/-- **What a scheduler does.** A request is admitted with a prefix that its slot stands for, and a
slot is written by a copy or a reset while no request is in it. -/
inductive Reachable (args : NgramArgs) : PleOverlap → Prop
  | boot (pool : NgramPool) : Reachable args { pool := pool }
  | arrive {s : PleOverlap} {slot cachedLen : Nat} {prompt : List TokenId} (reached : Reachable args s)
      (free : s.seats slot = none) (within : cachedLen < prompt.length)
      (restored : cachedLen ≠ 0 → s.ledger slot = some (prompt.take cachedLen)) :
      Reachable args (s.arrive slot prompt cachedLen)
  | leave {s : PleOverlap} {slot : Nat} (reached : Reachable args s) :
      Reachable args { s with seats := Function.update s.seats slot none }
  | drain {s : PleOverlap} (reached : Reachable args s) :
      Reachable args { s with seats := s.drained, inflight := [] }
  | launch {s : PleOverlap} {launch : Launch} {sampled : List (Nat × TokenId)}
      {rows : List (List (BitVec 64))} {pool : NgramPool} (reached : Reachable args s)
      (allowed : launch.Allowed s sampled)
      (forwarded : args.forward s.pool (launch.device s) = some (rows, pool)) :
      Reachable args (s.launched launch sampled pool)
  | write {s : PleOverlap} {step : PleStep} {slot : Nat} {rows : List (List (BitVec 64))}
      {pool : NgramPool} (reached : Reachable args s)
      (isWrite : step = .reset slot ∨ ∃ src, step = .copyFrom src slot)
      (free : s.seats slot = none) (written : step.apply args s.pool = some (rows, pool)) :
      Reachable args { s with pool := pool, ledger := step.after s.ledger }

end PleOverlap

/-! ### The lanes that fill up a graph -/

variable {slot : Nat}

section Lanes

variable {args : NgramArgs} {ledger : PleLedger} {pool : NgramPool} {batch full : PleBatch}
  {pads : List PleReq} (lanes : full.reqs = batch.reqs ++ pads) (fullDecodes : full.isDecode = true)
  (allowed : batch.Allowed ledger) (isDecode : batch.isDecode = true)
  (padTokens : ∀ pad ∈ pads, pad.tokens.length = 1) (agrees : Agrees args ledger pool)

include lanes

theorem lane_eq {i : Nat} (isReq : i < batch.reqs.length) :
    ∃ isLane : i < full.reqs.length, full.reqs[i] = batch.reqs[i] := by
  have isLane : i < full.reqs.length := by
    rw [lanes, length_append]
    exact Nat.lt_add_right _ isReq
  refine ⟨isLane, ?_⟩
  rw [getElem_of_eq lanes, getElem_append_left isReq]

include isDecode allowed padTokens

theorem lanes_single : ∀ req ∈ full.reqs, req.tokens.length = 1 := by
  intro req mem
  rw [lanes, mem_append] at mem
  rcases mem with isReq | isPad
  · exact allowed.single isDecode req isReq
  · exact padTokens req isPad

include fullDecodes agrees

theorem lane_spec {i : Nat} (isReq : i < batch.reqs.length) :
    NgramEmbedding.rowAt args (full.metadata args pool) i =
        NgramEmbedding.rowAt args (batch.metadata args pool) i ∧
      (full.metadata args pool).nextContext args i =
        (batch.metadata args pool).nextContext args i := by
  have single := lanes_single lanes allowed isDecode padTokens
  obtain ⟨isLane, same⟩ := lane_eq lanes isReq
  have found := PleBatch.found allowed agrees isReq
  have laneFound : (full.metadata args pool).ngramContext.getD i [] =
      contextOf args (batch.reqs[i].prior ledger) := by
    rw [PleBatch.ngramContext_getD isReq, isDecode] at found
    rw [PleBatch.ngramContext_getD isLane, fullDecodes, same]
    exact found
  constructor
  · rw [PleBatch.rowAt_decode isLane laneFound fullDecodes single,
      PleBatch.rowAt_decode isReq found isDecode (allowed.single isDecode), same]
  · rw [PleBatch.nextContext_eq isLane laneFound fun _ => single,
      PleBatch.nextContext_eq isReq found allowed.single, same]

theorem rowIds_lanes : ∃ padRows, NgramEmbedding.rowIds args (full.metadata args pool) =
      NgramEmbedding.rowIds args (batch.metadata args pool) ++ padRows ∧
      padRows.length = pads.length := by
  have count : batch.inputIds.length = batch.reqs.length := by
    have starts := PleBatch.start_eq (allowed.single isDecode) le_rfl
    unfold PleBatch.start at starts
    rwa [← PleBatch.seqLens_length, take_length, ← PleBatch.inputIds_length,
      PleBatch.seqLens_length] at starts
  have fullCount : full.inputIds.length = batch.reqs.length + pads.length := by
    have starts := PleBatch.start_eq (lanes_single lanes allowed isDecode padTokens) le_rfl
    unfold PleBatch.start at starts
    rwa [← PleBatch.seqLens_length, take_length, ← PleBatch.inputIds_length,
      PleBatch.seqLens_length, lanes, length_append] at starts
  refine ⟨((range pads.length).map (batch.reqs.length + ·)).map
    (NgramEmbedding.rowAt args (full.metadata args pool)), ?_, by simp⟩
  unfold NgramEmbedding.rowIds
  rw [show (full.metadata args pool).inputIds.length = _ from fullCount,
    show (batch.metadata args pool).inputIds.length = _ from count, range_add,
    map_append]
  congr 1
  refine map_congr_left fun i mem => ?_
  exact (lane_spec lanes fullDecodes allowed isDecode padTokens agrees
    (mem_range.mp mem)).1

theorem roll_lanes (other : slot ∉ pads.map PleReq.slot) :
    (full.metadata args pool).roll args pool slot =
      (batch.metadata args pool).roll args pool slot := by
  have slots : (full.metadata args pool).stateSlots =
      (batch.metadata args pool).stateSlots ++ pads.map PleReq.slot := by
    unfold PleBatch.metadata
    dsimp only
    rw [lanes, map_append]
  have first : (batch.metadata args pool).stateSlots.zipIdx.map (fun item =>
        (⟨item.1, .value ((full.metadata args pool).nextContext args item.2)⟩ :
          Copy Nat (List TokenId))) = (batch.metadata args pool).rolls args := by
    refine map_congr_left fun item mem => ?_
    have lt := (mem_zipIdx' mem).1
    have isReq : item.2 < batch.reqs.length := by
      unfold PleBatch.metadata at lt
      rwa [length_map] at lt
    rw [(lane_spec lanes fullDecodes allowed isDecode padTokens agrees isReq).2]
  unfold PleMetadata.roll
  rw [← first]
  unfold PleMetadata.rolls runCopies
  rw [slots, zipIdx_append, map_append, foldl_append]
  refine runCopies_of_notMem ?_
  rw [map_map]
  intro mem
  refine other ?_
  have firsts := zipIdx_map_fst (0 + (batch.metadata args pool).stateSlots.length)
    (pads.map PleReq.slot)
  rw [← firsts]
  exact mem

end Lanes

/-! ### The invariant -/

/-- **How far the host is behind.** It has the whole prompt until that is forwarded, and all tokens
but the one that is decoded then. -/
structure Lags (s : PleOverlap) (slot : Nat) (seat : Seat) : Prop where
  prompt : 0 < seat.promptLen
  known : seat.cachedLen ≤ seat.ids.length
  held : seat.cachedLen ≠ 0 → s.ledger slot = some (seat.ids.take seat.cachedLen)
  before : seat.cachedLen < seat.promptLen → seat.ids.length = seat.promptLen ∧ s.pending slot = []
  ahead : seat.promptLen ≤ seat.cachedLen →
    seat.ids.length + (s.pending slot).length = seat.cachedLen + 1

/-- Every slot holds the context of its stream, and that of a request is what the host knows. -/
structure PleOverlap.Sound (args : NgramArgs) (s : PleOverlap) : Prop where
  agrees : Agrees args s.ledger s.pool
  lags : ∀ slot seat, s.seats slot = some seat → Lags s slot seat

/-! ### One launch -/

namespace Launch

section Streams

variable {args : NgramArgs} {s : PleOverlap} {launch : Launch} {sampled : List (Nat × TokenId)}
  {part : LaunchPart} (lags : ∀ slot seat, s.seats slot = some seat → Lags s slot seat)
  (allowed : launch.Allowed s sampled) (mem : part ∈ launch.parts)

include lags allowed mem

theorem seat_lags : s.seats part.slot = some (s.seat part.slot) ∧
    Lags s part.slot (s.seat part.slot) := by
  obtain ⟨seat, isSeat⟩ := Option.isSome_iff_exists.mp (allowed.seated part mem)
  have same : s.seat part.slot = seat := by
    unfold PleOverlap.seat
    rw [isSeat]
    rfl
  rw [same]
  exact ⟨isSeat, lags _ _ isSeat⟩

theorem part_inside : (s.seat part.slot).cachedLen + part.len ≤ (s.tokens part.slot).length := by
  obtain ⟨-, lag⟩ := seat_lags lags allowed mem
  unfold PleOverlap.tokens
  rw [length_append]
  cases isDecode : launch.isDecode with
  | false =>
    have within := allowed.chunk isDecode part mem
    have pos := allowed.some_ part mem
    have whole := (lag.before (by omega)).1
    omega
  | true =>
    obtain ⟨one, past⟩ := allowed.decode isDecode part mem
    have whole := lag.ahead past
    omega

theorem chunk_inside (isPrefill : launch.isDecode = false) :
    (s.seat part.slot).cachedLen + part.len ≤ (s.seat part.slot).ids.length ∧
      s.pending part.slot = [] := by
  obtain ⟨-, lag⟩ := seat_lags lags allowed mem
  have within := allowed.chunk isPrefill part mem
  have pos := allowed.some_ part mem
  obtain ⟨whole, none⟩ := lag.before (by omega)
  exact ⟨by omega, none⟩

theorem request_length : (s.request part).tokens.length = part.len := by
  have lt := part_inside lags allowed mem
  unfold PleOverlap.request
  rw [length_take, length_drop]
  omega

theorem request_prior : (s.request part).prior s.ledger =
    (s.seat part.slot).ids.take (s.seat part.slot).cachedLen := by
  obtain ⟨-, lag⟩ := seat_lags lags allowed mem
  unfold PleReq.prior PleOverlap.request
  by_cases isFresh : (s.seat part.slot).cachedLen = 0
  · rw [if_pos isFresh, isFresh, take_zero]
  · rw [if_neg isFresh, lag.held isFresh]
    rfl

theorem request_stream : (s.request part).stream s.ledger =
    (s.tokens part.slot).take ((s.seat part.slot).cachedLen + part.len) := by
  obtain ⟨-, lag⟩ := seat_lags lags allowed mem
  have first : (s.tokens part.slot).take (s.seat part.slot).cachedLen =
      (s.seat part.slot).ids.take (s.seat part.slot).cachedLen :=
    take_append_of_le_length lag.known
  unfold PleReq.stream
  rw [request_prior lags allowed mem, take_add, first]
  rfl

omit mem in
theorem batch_allowed : (launch.batch s).Allowed s.ledger := by
  refine ⟨fun req isReq => ?_, fun isDecode req isReq => ?_, fun req isReq isFresh => ?_,
    fun req isReq isLater => ?_, allowed.distinct⟩
  all_goals obtain ⟨part, mem, rfl⟩ := mem_map.mp isReq
  · refine ne_nil_of_length_pos ?_
    rw [request_length lags allowed mem]
    exact allowed.some_ part mem
  · rw [request_length lags allowed mem]
    exact (allowed.decode isDecode part mem).1
  · obtain ⟨-, lag⟩ := seat_lags lags allowed mem
    refine Bool.eq_false_iff.mpr fun isDecode => ?_
    have past := (allowed.decode isDecode part mem).2
    have pos := lag.prompt
    have none : (s.seat part.slot).cachedLen = 0 := isFresh
    omega
  · obtain ⟨-, lag⟩ := seat_lags lags allowed mem
    refine ⟨_, lag.held isLater, ?_⟩
    rw [length_take]
    exact min_eq_left lag.known

end Streams

end Launch

/-! ### What the host stages -/

section Host

theorem hostContext_eq {args : NgramArgs} (two : args.ctxLen = 2) {ids : List TokenId}
    {position : Nat} (known : position ≤ ids.length) :
    hostContext ids position args.boundary = some (contextOf args (ids.take position)) := by
  have long : (ids.take position).length = position := by
    rw [length_take]
    exact min_eq_left known
  have token : ∀ {back : Nat}, back ≤ 2 → 0 < back →
      (if position ≥ back then ids[position - back]? else some args.boundary) =
        some (padded args (ids.take position) (position + (2 - back))) := by
    intro back within some_
    unfold padded
    by_cases enough : position ≥ back
    · have place : position + (2 - back) - 2 = position - back := by omega
      rw [if_pos enough, two, if_neg (by omega), place,
        getD_eq_getElem _ _ (by rw [long]; omega), getElem_take,
        getElem?_eq_getElem (by omega)]
    · rw [if_neg enough, two, if_pos (by omega)]
  unfold hostContext
  rw [token le_rfl two_pos, @token 1 (by omega) one_pos]
  unfold contextOf
  rw [two, long]
  rfl

end Host

variable {part : LaunchPart}

namespace Launch

section Rows

variable {args : NgramArgs} {s : PleOverlap} {launch : Launch} {sampled : List (Nat × TokenId)}
  (lags : ∀ slot seat, s.seats slot = some seat → Lags s slot seat)
  (allowed : launch.Allowed s sampled)

include lags allowed

theorem request_single (isDecode : launch.isDecode = true) (mem : part ∈ launch.parts) :
    (s.request part).tokens = [(s.request part).tokens.headD args.boundary] := by
  have long := request_length lags allowed mem
  rw [(allowed.decode isDecode part mem).1] at long
  obtain ⟨token, only⟩ := length_eq_one_iff.mp long
  rw [only]
  rfl

theorem readback_eq (isDecode : launch.isDecode = true) : (launch.host s).readback =
    (launch.parts.map fun part => (s.request part).tokens.headD args.boundary) ++
      launch.pads.flatMap PleReq.tokens := by
  unfold host device PleBatch.inputIds batch
  dsimp only
  rw [flatMap_append, flatMap_map, map_eq_flatMap]
  congr 1
  exact flatMap_congr fun part mem => request_single lags allowed isDecode mem

/-- **The runs of the host**: the contexts of the streams, and the new tokens. -/
theorem host_runs (two : args.ctxLen = 2) : (launch.host s).runs args.boundary =
    some (launch.parts.map fun part =>
      contextOf args ((s.request part).prior s.ledger) ++ (s.request part).tokens) := by
  unfold HostBatch.runs
  cases isDecode : launch.isDecode with
  | false =>
    have kind : (launch.host s).isDecode = false := isDecode
    have each : ∀ part ∈ launch.parts, (hostContext (s.hostRequest launch.isDecode part).ids
          (s.hostRequest launch.isDecode part).cachedLen args.boundary).map
          (· ++ ((s.hostRequest launch.isDecode part).ids.take
            (s.hostRequest launch.isDecode part).deviceLen).drop
              (s.hostRequest launch.isDecode part).cachedLen) =
          some (contextOf args ((s.request part).prior s.ledger) ++ (s.request part).tokens) := by
      intro part mem
      obtain ⟨within, none⟩ := chunk_inside lags allowed mem isDecode
      unfold PleOverlap.hostRequest
      dsimp only
      rw [isDecode, if_neg Bool.false_ne_true, take_take, Nat.min_self,
        hostContext_eq two (by rw [length_take]; omega), take_take,
        Nat.min_eq_left (Nat.le_add_right _ _), request_prior lags allowed mem]
      unfold PleOverlap.request PleOverlap.tokens
      rw [none, append_nil, take_drop]
      rfl
    rw [kind, if_neg Bool.false_ne_true]
    unfold host
    rw [mapM_map]
    exact mapM_some each
  | true =>
    have kind : (launch.host s).isDecode = true := isDecode
    have each : ∀ part ∈ launch.parts, (hostContext (s.hostRequest launch.isDecode part).ids
          ((s.hostRequest launch.isDecode part).deviceLen - 1) args.boundary).map
          (· ++ [(s.request part).tokens.headD args.boundary]) =
          some (contextOf args ((s.request part).prior s.ledger) ++ (s.request part).tokens) := by
      intro part mem
      obtain ⟨-, lag⟩ := seat_lags lags allowed mem
      unfold PleOverlap.hostRequest
      rw [isDecode, if_pos rfl, (allowed.decode isDecode part mem).1, Nat.add_sub_cancel,
        hostContext_eq two lag.known, request_prior lags allowed mem,
        ← request_single lags allowed isDecode mem]
      rfl
    have long : (launch.host s).reqs.length =
        (launch.parts.map fun part => (s.request part).tokens.headD args.boundary).length := by
      unfold host
      rw [length_map, length_map]
    have pairs : (launch.host s).reqs.zip (launch.host s).readback =
        launch.parts.map fun part => (s.hostRequest launch.isDecode part,
          (s.request part).tokens.headD args.boundary) := by
      have whole := @zip_append _ _ _ [] _ (launch.pads.flatMap PleReq.tokens) long
      rw [append_nil, zip_nil_left, append_nil] at whole
      rw [readback_eq lags allowed isDecode, whole]
      exact zip_map'
    rw [kind, if_pos rfl, pairs, mapM_map]
    exact mapM_some each

theorem host_fill {store : PleStore} (same : store.Matches args)
    (agrees : Agrees args s.ledger s.pool) :
    (launch.host s).fill args.boundary store =
      some (NgramEmbedding.rowIds args ((launch.batch s).metadata args s.pool)) := by
  have two : args.ctxLen = 2 := by
    unfold NgramArgs.ctxLen
    rw [same.trigrams]
  have batchAllowed := batch_allowed lags allowed
  unfold HostBatch.fill PleStore.fill
  rw [host_runs lags allowed two, rowIds_streams batchAllowed agrees]
  unfold batch
  rw [Option.map_some, flatMap_map, flatMap_map]
  congr 1
  exact flatMap_congr fun part _ => stage_eq same _ _

end Rows

/-! ### What the device computes -/

section Device

variable {args : NgramArgs} {s : PleOverlap} {launch : Launch} {sampled : List (Nat × TokenId)}
  (sound : s.Sound args) (allowed : launch.Allowed s sampled)

include sound allowed

/-- **A forward of the device**: the rows of the requests, then those of the lanes. -/
theorem device_spec (short : args.ctxLen ≤ chunkSize) : ∃ padRows later,
    args.forward s.pool (launch.device s) =
      some (NgramEmbedding.rowIds args ((launch.batch s).metadata args s.pool) ++ padRows, later) ∧
      padRows.length = launch.pads.length ∧ Agrees args (launch.ledger s) later := by
  have batchAllowed := batch_allowed sound.lags allowed
  have reaches : (launch.batch s).Reaches args :=
    PleStep.reaches_of_le short (.forward (launch.batch s))
  have agrees := PleBatch.commit_agrees batchAllowed reaches sound.agrees
  cases isDecode : launch.isDecode with
  | false =>
    have none := allowed.graphs isDecode
    have same : launch.device s = launch.batch s := by
      unfold device
      rw [none, append_nil]
      rfl
    have count : 0 = launch.pads.length := (congrArg length none).symm
    refine ⟨[], runCopies (((launch.batch s).metadata args s.pool).roll args s.pool)
      (PleBatch.windowWrites args s.pool (launch.batch s)), ?_, count, fun slot stream stands => ?_⟩
    · unfold NgramArgs.forward
      dsimp only
      rw [same, PleBatch.commit_eq reaches, append_nil]
      rfl
    · unfold ledger at stands
      rw [none, map_nil, if_neg not_mem_nil] at stands
      exact agrees slot stream stands
  | true =>
    have fullDecodes : (launch.device s).isDecode = true := isDecode
    have batchDecodes : (launch.batch s).isDecode = true := isDecode
    have noTrack : (launch.device s).track = [] := by
      unfold PleBatch.track
      rw [fullDecodes, if_pos rfl]
    have noWrites : PleBatch.windowWrites args s.pool (launch.batch s) = [] := by
      unfold PleBatch.windowWrites PleBatch.track
      rw [batchDecodes, if_pos rfl]
      rfl
    obtain ⟨padRows, rows, count⟩ := @rowIds_lanes args s.ledger s.pool (launch.batch s)
      (launch.device s) launch.pads rfl fullDecodes batchAllowed batchDecodes allowed.padTokens
      sound.agrees
    refine ⟨padRows, (launch.device s).metadata args s.pool |>.roll args s.pool, ?_, count,
      fun slot stream stands => ?_⟩
    · unfold NgramArgs.forward
      rw [noTrack, ← rows]
      rfl
    · unfold ledger at stands
      split at stands
      · cases stands
      · rename_i other
        rw [roll_lanes rfl fullDecodes batchAllowed batchDecodes allowed.padTokens sound.agrees
          other]
        rw [noWrites] at agrees
        exact agrees slot stream stands

end Device

end Launch

/-! ### The events -/

theorem filter_key {α : Type} {key : α → Nat} {items : List α} (nodup : (items.map key).Nodup)
    {item : α} (mem : item ∈ items) :
    (items.filter fun other => key other = key item) = [item] := by
  induction items with
  | nil => cases mem
  | cons first items ih =>
    obtain ⟨fresh, rest⟩ := nodup_cons.mp nodup
    rcases mem_cons.mp mem with rfl | later
    · rw [filter_cons_of_pos (by simp), filter_eq_nil_iff.mpr]
      intro other isLater same
      exact fresh (mem_map.mpr ⟨other, isLater, by simpa using same⟩)
    · rw [filter_cons_of_neg, ih rest later]
      simp only [decide_eq_true_eq]
      intro same
      exact fresh (same ▸ mem_map_of_mem later)

theorem filter_key_none {α : Type} {key : α → Nat} {items : List α}
    (other : slot ∉ items.map key) : (items.filter fun item => key item = slot) = [] := by
  refine filter_eq_nil_iff.mpr fun item mem same => other ?_
  exact mem_map.mpr ⟨item, mem, by simpa using same⟩

namespace Launch

section Slots

variable {s : PleOverlap} {launch : Launch} {sampled : List (Nat × TokenId)}
  (allowed : launch.Allowed s sampled)

include allowed

theorem parts_distinct : (launch.parts.map LaunchPart.slot).Nodup := by
  have slots : (launch.batch s).slots = launch.parts.map LaunchPart.slot := map_map
  rw [← slots]
  exact (nodup_append.mp allowed.distinct).1

theorem advance_part (mem : part ∈ launch.parts) : launch.advance part.slot = part.len := by
  unfold advance
  rw [filter_key (parts_distinct allowed) mem]
  exact sum_singleton

omit allowed in
theorem advance_other (other : slot ∉ launch.parts.map LaunchPart.slot) :
    launch.advance slot = 0 := by
  unfold advance
  rw [filter_key_none other]
  rfl

theorem pending_part (pool : NgramPool) (mem : part ∈ launch.parts) :
    ((s.launched launch sampled pool).pending part.slot).length =
      if launch.finishes s part then 1 else 0 := by
  unfold PleOverlap.pending PleOverlap.launched
  rw [length_map]
  by_cases finishes : launch.finishes s part = true
  · have isSampled : part.slot ∈ sampled.map Prod.fst := by
      rw [allowed.samples]
      exact mem_map_of_mem (mem_filter.mpr ⟨mem, finishes⟩)
    have nodup : (sampled.map Prod.fst).Nodup := by
      rw [allowed.samples]
      exact (parts_distinct allowed).sublist (filter_sublist.map _)
    obtain ⟨res, isResult, same⟩ := mem_map.mp isSampled
    rw [if_pos finishes, ← same, filter_key nodup isResult]
    rfl
  · rw [if_neg finishes, filter_key_none]
    · rfl
    · rw [allowed.samples]
      intro isSampled
      obtain ⟨other, isOther, same⟩ := mem_map.mp isSampled
      obtain ⟨otherMem, otherFinishes⟩ := mem_filter.mp isOther
      obtain rfl := inj_on_of_nodup_map (parts_distinct allowed) otherMem mem same
      exact finishes otherFinishes

theorem pending_other (pool : NgramPool) (other : slot ∉ launch.parts.map LaunchPart.slot) :
    (s.launched launch sampled pool).pending slot = [] := by
  unfold PleOverlap.pending PleOverlap.launched
  rw [filter_key_none]
  · rfl
  · rw [allowed.samples]
    intro isSampled
    exact other ((filter_sublist.map _).subset isSampled)

theorem seated_apart {seat : Seat} (isSeat : s.seats slot = some seat) :
    slot ∉ launch.pads.map PleReq.slot ∧ slot ∉ (launch.batch s).snapshotSlots := by
  constructor
  · intro isPad
    obtain ⟨pad, mem, rfl⟩ := mem_map.mp isPad
    rw [allowed.padSlots pad mem] at isSeat
    cases isSeat
  · intro isSnapshot
    rw [allowed.free slot isSnapshot] at isSeat
    cases isSeat

theorem ledger_seated {seat : Seat} (isSeat : s.seats slot = some seat) :
    launch.ledger s slot = runCopies s.ledger ((launch.batch s).advances s.ledger) slot := by
  obtain ⟨noPad, noSnapshot⟩ := seated_apart allowed isSeat
  unfold ledger PleBatch.after
  rw [if_neg noPad, runCopies_of_notMem (by rwa [PleBatch.snapshots_dst])]

end Slots

end Launch

namespace PleOverlap

section Events

variable {args : NgramArgs} {s : PleOverlap}

/-- **A launch** leaves the host behind by the token that it samples. -/
theorem Sound.launched {launch : Launch} {sampled : List (Nat × TokenId)} {pool : NgramPool}
    {rows : List (List (BitVec 64))} (sound : s.Sound args) (allowed : launch.Allowed s sampled)
    (short : args.ctxLen ≤ chunkSize)
    (forwarded : args.forward s.pool (launch.device s) = some (rows, pool)) :
    (s.launched launch sampled pool).Sound args := by
  have batchAllowed := Launch.batch_allowed sound.lags allowed
  constructor
  · obtain ⟨padRows, later, done, -, agrees⟩ := Launch.device_spec sound allowed short
    rw [forwarded] at done
    obtain ⟨-, rfl⟩ := Prod.mk.inj (Option.some.inj done)
    exact agrees
  · intro slot seat isSeat
    obtain ⟨after, isAfter, rfl⟩ := Option.map_eq_some_iff.mp isSeat
    obtain ⟨old, isOld, rfl⟩ := Option.map_eq_some_iff.mp isAfter
    have lag := sound.lags slot old isOld
    have ledger := Launch.ledger_seated allowed isOld
    by_cases isPart : slot ∈ launch.parts.map LaunchPart.slot
    · obtain ⟨part, mem, rfl⟩ := mem_map.mp isPart
      have same : s.seat part.slot = old := by
        unfold PleOverlap.seat
        rw [isOld]
        rfl
      have isCopy := mem_map_of_mem (f := fun req : PleReq =>
        (⟨req.slot, .value (some (req.stream s.ledger))⟩ : Copy Nat (Option (List TokenId))))
        (mem_map_of_mem (f := s.request) mem)
      have stands := @runCopies_of_mem _ _ _ s.ledger _ (PleBatch.advances_apart batchAllowed) _
        isCopy
      have stream := Launch.request_stream sound.lags allowed mem
      have lt := Launch.part_inside sound.lags allowed mem
      have pending := Launch.pending_part allowed pool mem
      unfold PleOverlap.tokens at stream lt
      rw [same] at stream lt
      rw [length_append] at lt
      have pos := allowed.some_ part mem
      have advance := Launch.advance_part allowed mem
      have held : (s.launched launch sampled pool).ledger part.slot =
          some ((old.ids ++ s.pending part.slot).take (old.cachedLen + part.len)) :=
        ledger.trans (stands.trans (congrArg some stream))
      rw [advance]
      cases isDecode : launch.isDecode with
      | false =>
        have within := allowed.chunk isDecode part mem
        rw [same] at within
        obtain ⟨whole, none⟩ := lag.before (by omega)
        have finishes : launch.finishes s part = decide (old.cachedLen + part.len =
            old.promptLen) := by
          unfold Launch.finishes
          rw [isDecode, same]
          rfl
        rw [none, append_nil] at held ⊢
        refine ⟨lag.prompt, ?_, fun _ => held, fun early => ⟨whole, ?_⟩, fun past => ?_⟩
        · exact within.trans whole.ge
        · refine eq_nil_of_length_eq_zero (pending.trans (if_neg ?_))
          have early : old.cachedLen + part.len < old.promptLen := early
          rw [finishes, decide_eq_true_eq]
          exact early.ne
        · have past : old.promptLen ≤ old.cachedLen + part.len := past
          rw [pending, finishes, if_pos (decide_eq_true (by omega))]
          show old.ids.length + 1 = old.cachedLen + part.len + 1
          omega
      | true =>
        obtain ⟨one, past⟩ := allowed.decode isDecode part mem
        rw [same] at past
        have ahead := lag.ahead past
        have finishes : launch.finishes s part = true := by
          unfold Launch.finishes
          rw [isDecode]
          rfl
        rw [finishes, if_pos rfl] at pending
        have whole : (old.ids ++ s.pending part.slot).length = old.cachedLen + part.len := by
          rw [length_append, ahead, one]
        refine ⟨lag.prompt, whole.ge, fun _ => held, fun early => ?_, fun _ => ?_⟩
        · have early : old.cachedLen + part.len < old.promptLen := early
          omega
        · rw [pending]
          exact congrArg (· + 1) whole
    · have advance := Launch.advance_other isPart
      have pending := Launch.pending_other allowed pool isPart
      have kept : (s.launched launch sampled pool).ledger slot = s.ledger slot := by
        refine ledger.trans (runCopies_of_notMem ?_)
        have slots : (launch.batch s).slots = launch.parts.map LaunchPart.slot := map_map
        rwa [PleBatch.advances_dst, slots]
      rw [advance]
      refine ⟨lag.prompt, ?_, fun isLater => ?_, fun early => ⟨?_, pending⟩, fun past => ?_⟩
      · rw [length_append]
        exact lag.known.trans (Nat.le_add_right _ _)
      · rw [kept, lag.held isLater]
        exact congrArg some (take_append_of_le_length lag.known).symm
      · obtain ⟨whole, none⟩ := lag.before early
        rw [none, append_nil, whole]
      · rw [pending]
        rw [length_append]
        exact lag.ahead past

theorem Sound.arrive {slot cachedLen : Nat} {prompt : List TokenId} (sound : s.Sound args)
    (within : cachedLen < prompt.length)
    (restored : cachedLen ≠ 0 → s.ledger slot = some (prompt.take cachedLen)) :
    (s.arrive slot prompt cachedLen).Sound args := by
  refine ⟨sound.agrees, fun other seat isSeat => ?_⟩
  by_cases isNew : other = slot
  · subst isNew
    have none : (s.arrive other prompt cachedLen).pending other = [] := by
      unfold pending PleOverlap.arrive
      rw [filter_filter, filter_eq_nil_iff.mpr fun res _ both => ?_]
      · rfl
      · simp at both
    have same := (update_self other _ s.seats).symm.trans isSeat
    cases same
    refine ⟨Nat.zero_lt_of_lt within, within.le, restored, fun _ => ⟨rfl, none⟩, fun past => ?_⟩
    exact absurd within (not_lt.mpr past)
  · have kept : (s.arrive slot prompt cachedLen).pending other = s.pending other := by
      unfold pending PleOverlap.arrive
      rw [filter_filter]
      congr 1
      refine filter_congr fun res _ => ?_
      by_cases same : res.1 = other
      · simp [same, isNew]
      · simp [same]
    have isOld : s.seats other = some seat := (update_of_ne isNew _ s.seats).symm.trans isSeat
    obtain ⟨prompt_, known, held, pre, ahead⟩ := sound.lags other seat isOld
    refine ⟨prompt_, known, held, ?_, ?_⟩
    · rwa [kept]
    · rwa [kept]

theorem Sound.leave {slot : Nat} (sound : s.Sound args) :
    PleOverlap.Sound args { s with seats := Function.update s.seats slot none } := by
  refine ⟨sound.agrees, fun other seat isSeat => ?_⟩
  by_cases isLeft : other = slot
  · subst isLeft
    cases (update_self other _ s.seats).symm.trans isSeat
  · obtain ⟨prompt, known, held, pre, ahead⟩ :=
      sound.lags other seat ((update_of_ne isLeft _ s.seats).symm.trans isSeat)
    exact ⟨prompt, known, held, pre, ahead⟩

theorem Sound.drain (sound : s.Sound args) :
    PleOverlap.Sound args { s with seats := s.drained, inflight := [] } := by
  refine ⟨sound.agrees, fun slot seat isSeat => ?_⟩
  obtain ⟨old, isOld, rfl⟩ := Option.map_eq_some_iff.mp isSeat
  have lag := sound.lags slot old isOld
  refine ⟨lag.prompt, ?_, fun isLater => ?_, fun early => ⟨?_, rfl⟩, fun past => ?_⟩
  · rw [length_append]
    exact lag.known.trans (Nat.le_add_right _ _)
  · rw [take_append_of_le_length lag.known]
    exact lag.held isLater
  · obtain ⟨whole, none⟩ := lag.before early
    rw [none, append_nil, whole]
  · rw [length_append]
    exact lag.ahead past

theorem Sound.write {step : PleStep} {rows : List (List (BitVec 64))}
    {pool : NgramPool} (sound : s.Sound args)
    (isWrite : step = .reset slot ∨ ∃ src, step = .copyFrom src slot)
    (free : s.seats slot = none) (written : step.apply args s.pool = some (rows, pool)) :
    PleOverlap.Sound args { s with pool := pool, ledger := step.after s.ledger } := by
  have others : ∀ other, other ≠ slot → step.after s.ledger other = s.ledger other := by
    intro other isOther
    rcases isWrite with rfl | ⟨src, rfl⟩
    all_goals exact update_of_ne isOther _ _
  have allowed : step.Allowed s.ledger ∧ step.Reaches args := by
    rcases isWrite with rfl | ⟨src, rfl⟩
    all_goals exact ⟨trivial, trivial⟩
  constructor
  · obtain ⟨later, done, agrees⟩ := step_spec allowed.1 allowed.2 sound.agrees
    rw [written] at done
    obtain ⟨-, rfl⟩ := Prod.mk.inj (Option.some.inj done)
    exact agrees
  · intro other seat isSeat
    obtain ⟨prompt, known, held, pre, ahead⟩ := sound.lags other seat isSeat
    refine ⟨prompt, known, fun isLater => ?_, pre, ahead⟩
    have apart : other ≠ slot := by
      rintro rfl
      cases free.symm.trans isSeat
    exact (others other apart).trans (held isLater)

theorem Reachable.sound (short : args.ctxLen ≤ chunkSize) (reached : Reachable args s) :
    s.Sound args := by
  induction reached with
  | boot pool =>
    refine ⟨fun slot stream stands => ?_, fun slot seat isSeat => ?_⟩
    · cases stands
    · cases isSeat
  | arrive _ _ within restored sound => exact sound.arrive within restored
  | leave _ sound => exact sound.leave
  | drain _ sound => exact sound.drain
  | launch _ allowed forwarded sound => exact sound.launched allowed short forwarded
  | write _ isWrite free written sound => exact sound.write isWrite free written

end Events

end PleOverlap

/-- **The disk backend stages the rows that the device computes.** In every state that a scheduler
reaches, the host makes the rows of the batch that is launched out of the ids that it has, and the
forward of the device computes the same rows, with those of the lanes behind them. -/
theorem staged_rows (args : NgramArgs) (store : PleStore) (same : store.Matches args)
    (s : PleOverlap) (reached : PleOverlap.Reachable args s) (launch : Launch)
    (sampled : List (Nat × TokenId)) (allowed : launch.Allowed s sampled) :
    ∃ staged padRows later, (launch.host s).fill args.boundary store = some staged ∧
      args.forward s.pool (launch.device s) = some (staged ++ padRows, later) ∧
      padRows.length = launch.pads.length := by
  have short : args.ctxLen ≤ chunkSize := by
    unfold NgramArgs.ctxLen
    rw [same.trigrams]
    decide
  have sound := reached.sound short
  obtain ⟨padRows, later, done, count, -⟩ := Launch.device_spec sound allowed short
  exact ⟨_, padRows, later, Launch.host_fill sound.lags allowed same sound.agrees, done, count⟩

/-! ### A prompt and a decode step -/

namespace PleOverlap

def smallStore : PleStore where
  mult := [3, 5, 7]
  sizes := [11, 13]
  offsets := [0, 11]
  eos := 0

def smallPrompt : PleOverlap := PleOverlap.arrive { pool := fun _ => [] } 1 [5, 0, 6] 0

def smallPrefill : Launch := { parts := [{ slot := 1, len := 3 }] }

def smallPool : NgramPool :=
  ((NgramArgs.small.forward smallPrompt.pool (smallPrefill.device smallPrompt)).map
    Prod.snd).getD fun _ => []

def smallDecoding : PleOverlap := smallPrompt.launched smallPrefill [(1, 7)] smallPool

def smallDecode : Launch where
  parts := [{ slot := 1, len := 1 }]
  isDecode := true
  pads := [{ slot := 0, cachedLen := 1, tokens := [0] }]

end PleOverlap

theorem staged_rows_small : ∃ staged padRows later,
    (PleOverlap.smallDecode.host .smallDecoding).fill NgramArgs.small.boundary
      PleOverlap.smallStore = some staged ∧
    NgramArgs.small.forward PleOverlap.smallDecoding.pool
      (PleOverlap.smallDecode.device .smallDecoding) = some (staged ++ padRows, later) ∧
    padRows.length = PleOverlap.smallDecode.pads.length := by
  have admitted : PleOverlap.Reachable NgramArgs.small .smallPrompt :=
    .arrive (.boot _) rfl (by decide) fun later => absurd rfl later
  have prefill : PleOverlap.smallPrefill.Allowed .smallPrompt [(1, 7)] :=
    ⟨by decide, by decide, by decide, by decide, by decide, by decide, by decide, by decide,
      by decide, by decide⟩
  obtain ⟨padRows, later, done, -⟩ :=
    Launch.device_spec (admitted.sound (by decide)) prefill (by decide)
  have isPool : PleOverlap.smallPool = later := by
    unfold PleOverlap.smallPool
    rw [done]
    rfl
  have decoding : PleOverlap.Reachable NgramArgs.small .smallDecoding :=
    .launch admitted prefill (isPool ▸ done)
  refine staged_rows NgramArgs.small PleOverlap.smallStore ?_ _ decoding _ [(1, 8)] ?_
  · refine ⟨rfl, rfl, rfl, rfl, rfl, rfl, rfl, fun size mem => ?_⟩
    rcases mem_pair.mp mem with rfl | rfl
    all_goals simp
  · exact ⟨by decide, by decide, by decide, by decide, by decide, by decide, by decide, by decide,
      by decide, by decide⟩

end FreeToken
