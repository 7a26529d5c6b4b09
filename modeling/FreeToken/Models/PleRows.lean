/-
**The rows of a token depend on the tokens before it, however they were batched.**

* `rowIds_prefill`, `rowIds_decode`: the rows of a forward are those of its streams.
-/

import FreeToken.Models.Ple

namespace FreeToken

open List

namespace NgramEmbedding

/-! ### The barrier -/

section Barrier

variable {args : NgramArgs} {row other : Nat → TokenId} {col : Nat}

theorem eosMax_lt_iff (start : Nat) : eosMax args row col < start ↔
    ∀ left, start ≤ left → left ≤ col → row left ≠ args.boundary := by
  have one : ∀ left, eosPos args row left < start ↔ (start ≤ left → row left ≠ args.boundary) := by
    intro left
    unfold eosPos
    split
    · rename_i isBoundary
      refine ⟨fun pre after => ?_, fun apart => ?_⟩
      · omega
      · by_contra after
        exact apart (by omega) isBoundary
    · rename_i noBoundary
      exact ⟨fun _ _ => noBoundary, fun _ => by omega⟩
  induction col with
  | zero =>
    rw [eosMax, one]
    refine ⟨fun clear left after pre => ?_, fun clear after => clear 0 after le_rfl⟩
    rw [Nat.le_zero.mp pre] at after ⊢
    exact clear after
  | succ col ih =>
    rw [eosMax, max_lt_iff]
    refine (and_congr ih (one _)).trans ?_
    constructor
    · rintro ⟨clear, last⟩ left after pre
      rcases Nat.le_succ_iff.mp pre with prev | rfl
      · exact clear left after prev
      · exact last after
    · intro clear
      exact ⟨fun left after pre => clear left after (Nat.le_succ_of_le pre),
        fun after => clear _ after le_rfl⟩

theorem le_inSegment_iff {shift : Nat} (within : shift ≤ col) :
    (shift : Int) ≤ inSegment args row col ↔
      ∀ left, 1 ≤ left → left ≤ shift → row (col - left) ≠ args.boundary := by
  have behind : (shift : Int) ≤ inSegment args row col ↔
      prevEos args row col < ((col - shift : Nat) : Int) := by
    unfold inSegment
    omega
  rw [behind]
  cases col with
  | zero =>
    obtain rfl := Nat.le_zero.mp within
    refine ⟨fun _ left some_ none => ?_, fun _ => ?_⟩
    · omega
    · show (-1 : Int) < _
      omega
  | succ col =>
    rw [prevEos, eosMax_lt_iff]
    constructor
    · intro clear left some_ pre
      exact clear (col + 1 - left) (by omega) (by omega)
    · intro clear left after pre
      have apart := clear (col + 1 - left) (by omega) (by omega)
      rw [Nat.sub_sub_self (by omega)] at apart
      exact apart

theorem shifted_clear {shift : Nat} (within : shift ≤ col)
    (clear : ∀ left, 1 ≤ left → left ≤ shift → row (col - left) ≠ args.boundary) :
    shifted args row shift col = row (col - shift) := by
  unfold shifted
  by_cases none : shift = 0
  · rw [if_pos none, none, Nat.sub_zero]
  · rw [if_neg none, if_pos ⟨by omega, (le_inSegment_iff within).mpr clear⟩]

theorem shifted_crossed {shift left : Nat} (within : shift ≤ col) (some_ : 1 ≤ left)
    (pre : left ≤ shift) (isBoundary : row (col - left) = args.boundary) :
    shifted args row shift col = args.boundary := by
  unfold shifted
  rw [if_neg (by omega), if_neg]
  rintro ⟨-, clear⟩
  exact (le_inSegment_iff within).mp clear left some_ pre isBoundary

/-- A shift depends on the tokens that it passes. -/
theorem shifted_congr {shift here there : Nat} (within : shift ≤ here) (alsoWithin : shift ≤ there)
    (same : ∀ left, left ≤ shift → row (here - left) = other (there - left)) :
    shifted args row shift here = shifted args other shift there := by
  by_cases clear : ∀ left, 1 ≤ left → left ≤ shift → row (here - left) ≠ args.boundary
  · rw [shifted_clear within clear, shifted_clear alsoWithin, same shift le_rfl]
    intro left some_ pre
    rw [← same left pre]
    exact clear left some_ pre
  · push Not at clear
    obtain ⟨left, some_, pre, isBoundary⟩ := clear
    rw [shifted_crossed within some_ pre isBoundary,
      shifted_crossed alsoWithin some_ pre ((same left pre).symm.trans isBoundary)]

end Barrier

theorem headIds_congr {args : NgramArgs} {tokens others : Nat → TokenId}
    (same : ∀ shift, shift ≤ args.ctxLen → tokens shift = others shift) :
    headIds args tokens = headIds args others := by
  refine flatMap_congr fun ngram mem => ?_
  have bound : ngram ≤ args.ngramSize ∧ 2 ≤ ngram := by
    rw [mem_range'_1] at mem
    omega
  have mixes : mixed args tokens ngram = mixed args others ngram := by
    unfold mixed
    rw [same 0 (Nat.zero_le _)]
    refine foldl_ext _ _ _ fun mix position mem => ?_
    rw [mem_range'_1] at mem
    rw [same position (by unfold NgramArgs.ctxLen; omega)]
  rw [mixes]

end NgramEmbedding

/-! ### Streams -/

/-- A stream behind boundaries. -/
def padded (args : NgramArgs) (stream : List TokenId) (place : Nat) : TokenId :=
  if place < args.ctxLen then args.boundary else stream.getD (place - args.ctxLen) args.boundary

/-- The context at the end of a stream. -/
def contextOf (args : NgramArgs) (stream : List TokenId) : List TokenId :=
  (List.range args.ctxLen).map fun col => padded args stream (stream.length + col)

/-- The rows of the token at a position of a stream. -/
def tokenRows (args : NgramArgs) (stream : List TokenId) (position : Nat) : List (BitVec 64) :=
  NgramEmbedding.headIds args fun shift =>
    NgramEmbedding.shifted args (padded args stream) shift (args.ctxLen + position)

section Streams

variable {args : NgramArgs} {stream more : List TokenId}

theorem contextOf_nil : contextOf args [] = List.replicate args.ctxLen args.boundary := by
  refine ext_getElem (by simp [contextOf]) fun i here _ => ?_
  simp [contextOf, padded]

theorem contextOf_length : (contextOf args stream).length = args.ctxLen := by
  unfold contextOf
  rw [length_map, length_range]

theorem contextOf_getD {col : Nat} (lt : col < args.ctxLen) (default : TokenId) :
    (contextOf args stream).getD col default = padded args stream (stream.length + col) := by
  unfold contextOf
  rw [getD_eq_getElem?_getD, getElem?_map, getElem?_range lt]
  rfl

theorem contextOf_getElem {col : Nat} (lt : col < (contextOf args stream).length) :
    (contextOf args stream)[col] = padded args stream (stream.length + col) := by
  have within := lt
  rw [contextOf_length] at within
  rw [← getD_eq_getElem _ args.boundary lt, contextOf_getD within]

theorem padded_append {place : Nat} (early : place < args.ctxLen + stream.length) :
    padded args (stream ++ more) place = padded args stream place := by
  unfold padded
  split
  · rfl
  · rw [getD_append _ _ _ _ (by omega)]

theorem padded_new {position : Nat} :
    padded args (stream ++ more) (args.ctxLen + (stream.length + position)) =
      more.getD position args.boundary := by
  unfold padded
  rw [if_neg (by omega), getD_append_right _ _ _ _ (by omega)]
  congr 1
  omega

end Streams

/-! ### One forward -/

namespace PleBatch

variable {args : NgramArgs} {pool : NgramPool} {batch : PleBatch}

def start (batch : PleBatch) (req : Nat) : Nat := (batch.seqLens.take req).sum

theorem inputIds_length : batch.inputIds.length = batch.seqLens.sum := length_flatMap

theorem inputIds_getD {req place : Nat} (isReq : req < batch.reqs.length)
    (lt : place < batch.reqs[req].tokens.length) (default : TokenId) :
    batch.inputIds.getD (batch.start req + place) default =
      batch.reqs[req].tokens.getD place default := by
  rw [getD_eq_getElem?_getD, getD_eq_getElem?_getD]
  exact congrArg (Option.getD · default) (flatMap_getElem? isReq lt)

theorem seqLens_length : batch.seqLens.length = batch.reqs.length := length_map _

theorem seqLens_getElem {req : Nat} (isReq : req < batch.reqs.length)
    {isLen : req < batch.seqLens.length} :
    batch.seqLens[req] = batch.reqs[req].tokens.length := by
  simp [seqLens]

theorem ngramContext_getD {req : Nat} (isReq : req < batch.reqs.length) :
    (batch.metadata args pool).ngramContext.getD req [] =
      if ¬batch.isDecode ∧ batch.reqs[req].cachedLen = 0 then
        List.replicate args.ctxLen args.boundary
      else pool batch.reqs[req].slot := by
  unfold metadata
  rw [getD_eq_getElem?_getD, getElem?_map, getElem?_eq_getElem isReq]
  rfl

section Prefill

variable (isPrefill : batch.isDecode = false)

include isPrefill

theorem cuSeqlens_eq : (batch.metadata args pool).cuSeqlens = cumsum batch.seqLens := by
  unfold metadata
  rw [isPrefill]
  rfl

theorem cu_eq {req : Nat} (within : req ≤ batch.reqs.length) (default : Nat) :
    (batch.metadata args pool).cuSeqlens.getD req default = batch.start req := by
  rw [cuSeqlens_eq isPrefill, cumsum_getD (by rwa [seqLens_length])]
  rfl

variable {req place : Nat} (isReq : req < batch.reqs.length)
  (lt : place < batch.reqs[req].tokens.length)

include isReq lt

theorem reqOf_eq :
    NgramEmbedding.reqOf (batch.metadata args pool) (batch.start req + place) = req := by
  have lens : (batch.metadata args pool).seqLens.length = batch.reqs.length := by
    unfold metadata
    rw [isPrefill]
    exact seqLens_length
  have isPart : req < batch.seqLens.length := by rwa [seqLens_length]
  have isPlace : place < batch.seqLens[req] := by rwa [seqLens_getElem isReq]
  have found := cumsum_countP isPart isPlace
  unfold NgramEmbedding.reqOf
  rw [cuSeqlens_eq isPrefill, start, found, lens]
  omega

theorem colOf_eq : NgramEmbedding.colOf args (batch.metadata args pool) (batch.start req + place) =
      place + args.ctxLen := by
  unfold NgramEmbedding.colOf NgramEmbedding.cu
  rw [reqOf_eq isPrefill isReq lt, cu_eq isPrefill isReq.le]
  omega

omit isReq lt in
theorem places_injective {pos other : Nat} (lt : pos < batch.inputIds.length)
    (otherInside : other < batch.inputIds.length)
    (sameReq : NgramEmbedding.reqOf (batch.metadata args pool) pos =
      NgramEmbedding.reqOf (batch.metadata args pool) other)
    (sameCol : NgramEmbedding.colOf args (batch.metadata args pool) pos =
      NgramEmbedding.colOf args (batch.metadata args pool) other) : pos = other := by
  rw [inputIds_length] at lt otherInside
  obtain ⟨req, isReq, place, within, rfl⟩ := split_position lt
  obtain ⟨otherReq, isOther, otherPlace, otherWithin, rfl⟩ := split_position otherInside
  rw [seqLens_length] at isReq isOther
  rw [seqLens_getElem isReq] at within
  rw [seqLens_getElem isOther] at otherWithin
  have first := @reqOf_eq args pool batch isPrefill req place isReq within
  have second := @reqOf_eq args pool batch isPrefill otherReq otherPlace isOther otherWithin
  have firstCol := @colOf_eq args pool batch isPrefill req place isReq within
  have secondCol := @colOf_eq args pool batch isPrefill otherReq otherPlace isOther otherWithin
  obtain rfl : req = otherReq := first.symm.trans (sameReq.trans second)
  have samePlace := firstCol.symm.trans (sameCol.trans secondCol)
  rw [add_right_cancel samePlace]

omit isReq lt in
theorem window_apart : Apart ((List.range (batch.metadata args pool).inputIds.length).map
    (NgramEmbedding.tokenWrite args (batch.metadata args pool))) := by
  refine ⟨?_, fun copy mem cell reads => ?_⟩
  · rw [map_map]
    refine Nodup.map_on (fun pos lt other otherInside same => ?_) nodup_range
    obtain ⟨sameReq, sameCol⟩ := Prod.mk.inj same
    exact places_injective isPrefill (mem_range.mp lt) (mem_range.mp otherInside)
      sameReq sameCol
  · obtain ⟨pos, -, rfl⟩ := mem_map.mp mem
    cases reads

omit isPrefill in
theorem start_add_lt : batch.start req + place < batch.inputIds.length := by
  have here : batch.start (req + 1) = batch.start req + batch.reqs[req].tokens.length := by
    unfold start
    rw [sum_take_succ (by rwa [seqLens_length]), seqLens_getElem isReq]
  have all := @sum_take_mono batch.seqLens (req + 1) batch.seqLens.length (by rwa [seqLens_length])
  rw [take_length] at all
  rw [inputIds_length]
  unfold start at here ⊢
  omega

theorem packedTokens_new :
    NgramEmbedding.packedTokens args (batch.metadata args pool) (req, place + args.ctxLen) =
      batch.reqs[req].tokens.getD place args.boundary := by
  let info := batch.metadata args pool
  let copy := NgramEmbedding.tokenWrite args info (batch.start req + place)
  have mem : copy ∈ (range info.inputIds.length).map (NgramEmbedding.tokenWrite args info) :=
    mem_map_of_mem (mem_range.mpr (start_add_lt isReq lt))
  have written : NgramEmbedding.packedTokens args info copy.dst =
      batch.inputIds.getD (batch.start req + place) args.boundary :=
    runCopies_of_mem (window_apart isPrefill) mem
  have isDst : copy.dst = (req, place + args.ctxLen) :=
    Prod.ext (reqOf_eq isPrefill isReq lt) (colOf_eq isPrefill isReq lt)
  rw [isDst] at written
  exact written.trans (inputIds_getD isReq lt _)

omit isPrefill isReq lt in
theorem packedTokens_context {col : Nat} (isContext : col < args.ctxLen) :
    NgramEmbedding.packedTokens args (batch.metadata args pool) (req, col) =
      ((batch.metadata args pool).ngramContext.getD req []).getD col args.boundary := by
  unfold NgramEmbedding.packedTokens
  rw [runCopies_of_notMem]
  · exact if_pos isContext
  · rw [map_map]
    intro mem
    obtain ⟨pos, -, same⟩ := mem_map.mp mem
    have behind := (Prod.mk.inj same).2
    unfold NgramEmbedding.colOf at behind
    omega

end Prefill

end PleBatch

/-! ### The rows of a token -/

section Rows

variable {args : NgramArgs} {stream new : List TokenId}

theorem headIds_window {row : Nat → TokenId} {place : Nat}
    (context : ∀ col, col < args.ctxLen → row col = (contextOf args stream).getD col args.boundary)
    (tokens : ∀ later, later ≤ place → row (later + args.ctxLen) = new.getD later args.boundary) :
    (NgramEmbedding.headIds args fun shift =>
      NgramEmbedding.shifted args row shift (place + args.ctxLen)) =
      tokenRows args (stream ++ new) (stream.length + place) := by
  refine NgramEmbedding.headIds_congr fun shift within => ?_
  refine NgramEmbedding.shifted_congr (by omega) (by omega) fun left pre => ?_
  by_cases isNew : left ≤ place
  · have here : place + args.ctxLen - left = place - left + args.ctxLen := by omega
    have there : args.ctxLen + (stream.length + place) - left =
        args.ctxLen + (stream.length + (place - left)) := by omega
    rw [here, there, tokens _ (Nat.sub_le _ _), padded_new]
  · have there : args.ctxLen + (stream.length + place) - left =
        stream.length + (place + args.ctxLen - left) := by omega
    rw [context _ (by omega), contextOf_getD (by omega), there, padded_append (by omega)]

end Rows

namespace PleBatch

variable {args : NgramArgs} {pool : NgramPool} {batch : PleBatch} {stream : List TokenId}
  {req place : Nat} (isReq : req < batch.reqs.length)
  (found : (batch.metadata args pool).ngramContext.getD req [] = contextOf args stream)

include isReq found

theorem rowAt_prefill (isPrefill : batch.isDecode = false)
    (lt : place < batch.reqs[req].tokens.length) :
    NgramEmbedding.rowAt args (batch.metadata args pool) (batch.start req + place) =
      tokenRows args (stream ++ batch.reqs[req].tokens) (stream.length + place) := by
  have isDecode : (batch.metadata args pool).isDecode = false := isPrefill
  unfold NgramEmbedding.rowAt NgramEmbedding.windowRow NgramEmbedding.windowCol
  rw [isDecode, if_neg Bool.false_ne_true, if_neg Bool.false_ne_true,
    reqOf_eq isPrefill isReq lt, colOf_eq isPrefill isReq lt]
  refine headIds_window (fun col isContext => ?_) fun later pre => ?_
  · rw [packedTokens_context isContext, found]
  · exact packedTokens_new isPrefill isReq (lt_of_le_of_lt pre lt)

omit isReq found in
theorem start_eq (single : ∀ other ∈ batch.reqs, other.tokens.length = 1)
    (within : req ≤ batch.reqs.length) : batch.start req = req := by
  have ones : batch.seqLens = replicate batch.reqs.length 1 := by
    refine eq_replicate_iff.mpr ⟨seqLens_length, fun len mem => ?_⟩
    obtain ⟨other, isReq, rfl⟩ := mem_map.mp mem
    exact single other isReq
  unfold start
  rw [ones, take_replicate, sum_replicate, min_eq_left within]
  exact mul_one _

theorem rowAt_decode (isDecode : batch.isDecode = true)
    (single : ∀ other ∈ batch.reqs, other.tokens.length = 1) :
    NgramEmbedding.rowAt args (batch.metadata args pool) req =
      tokenRows args (stream ++ batch.reqs[req].tokens) stream.length := by
  have decodes : (batch.metadata args pool).isDecode = true := isDecode
  have token : (batch.metadata args pool).inputIds.getD req args.boundary =
      batch.reqs[req].tokens.getD 0 args.boundary := by
    have here := inputIds_getD isReq (by rw [single _ (getElem_mem isReq)]; exact Nat.one_pos)
      args.boundary
    rw [start_eq single isReq.le] at here
    exact here
  have window := @headIds_window args stream batch.reqs[req].tokens
    (fun col => (contextOf args stream ++ [batch.reqs[req].tokens.getD 0 args.boundary]).getD col
      args.boundary) 0
    (fun col isContext => getD_append _ _ _ _ (by rwa [contextOf_length]))
    (fun later pre => by
      obtain rfl := Nat.le_zero.mp pre
      rw [getD_append_right _ _ _ _ (by rw [contextOf_length]; omega), contextOf_length,
        Nat.zero_add, Nat.sub_self]
      rfl)
  rw [Nat.zero_add] at window
  unfold NgramEmbedding.rowAt NgramEmbedding.windowRow NgramEmbedding.windowCol
  rw [decodes, if_pos rfl, if_pos rfl, found, token]
  exact window

omit found in
theorem rowAt_eq (single : batch.isDecode = true → ∀ other ∈ batch.reqs, other.tokens.length = 1)
    (found : (batch.metadata args pool).ngramContext.getD req [] = contextOf args stream)
    (lt : place < batch.reqs[req].tokens.length) :
    NgramEmbedding.rowAt args (batch.metadata args pool) (batch.start req + place) =
      tokenRows args (stream ++ batch.reqs[req].tokens) (stream.length + place) := by
  cases kind : batch.isDecode with
  | false => exact rowAt_prefill isReq found kind lt
  | true =>
    rw [single kind _ (getElem_mem isReq), Nat.lt_one_iff] at lt
    rw [lt, start_eq (single kind) isReq.le]
    exact rowAt_decode isReq found kind (single kind)

omit isReq found in
theorem rowIds_eq (streams : Nat → List TokenId)
    (single : batch.isDecode = true → ∀ other ∈ batch.reqs, other.tokens.length = 1)
    (found : ∀ req, req < batch.reqs.length →
      (batch.metadata args pool).ngramContext.getD req [] = contextOf args (streams req)) :
    NgramEmbedding.rowIds args (batch.metadata args pool) =
      batch.reqs.zipIdx.flatMap fun (req, i) => (List.range req.tokens.length).map fun place =>
        tokenRows args (streams i ++ req.tokens) ((streams i).length + place) := by
  have parts := map_range_flatMap batch.seqLens
    (NgramEmbedding.rowAt args (batch.metadata args pool))
    (fun i place => tokenRows args (streams i ++ (batch.reqs.getD i ⟨0, 0, [], none⟩).tokens)
      ((streams i).length + place)) fun part isPart place lt => by
        rw [seqLens_length] at isPart
        rw [seqLens_getElem isPart] at lt
        rw [getD_eq_getElem _ _ isPart]
        exact rowAt_eq isPart single (found part isPart) lt
  unfold NgramEmbedding.rowIds
  rw [show (batch.metadata args pool).inputIds.length = batch.seqLens.sum from inputIds_length, parts]
  unfold seqLens
  rw [zipIdx_map, flatMap_map]
  refine flatMap_congr fun item mem => ?_
  obtain ⟨isReq, same⟩ := mem_zipIdx' mem
  obtain ⟨req, i⟩ := item
  dsimp only [Prod.map_apply, id_eq] at isReq same ⊢
  rw [getD_eq_getElem _ _ isReq, ← same]

omit isReq found in
theorem start_succ (isReq : req < batch.reqs.length) :
    batch.start (req + 1) = batch.start req + batch.reqs[req].tokens.length := by
  unfold start
  rw [sum_take_succ (by rwa [seqLens_length]), seqLens_getElem isReq]

theorem nextToken_eq (isPrefill : batch.isDecode = false) {col : Nat} (lt : col < args.ctxLen) :
    (batch.metadata args pool).nextToken args req col =
      padded args (stream ++ batch.reqs[req].tokens)
        ((stream ++ batch.reqs[req].tokens).length + col) := by
  unfold PleMetadata.nextToken
  rw [cu_eq isPrefill isReq.le, cu_eq isPrefill isReq, start_succ isReq, found, length_append]
  by_cases isNew : args.ctxLen ≤ batch.reqs[req].tokens.length + col
  · obtain ⟨place, reaches⟩ := Nat.exists_eq_add_of_le isNew
    have there : stream.length + batch.reqs[req].tokens.length + col =
        args.ctxLen + (stream.length + place) := by omega
    have here : (((batch.start req + batch.reqs[req].tokens.length : Nat) : Int) - args.ctxLen +
        col).toNat = batch.start req + place := by omega
    rw [if_pos (by omega), here, there, padded_new]
    exact inputIds_getD isReq (by omega) _
  · have here : min (batch.start req + batch.reqs[req].tokens.length - batch.start req + col)
        (args.ctxLen - 1) = batch.reqs[req].tokens.length + col := by omega
    rw [if_neg (by omega), here, contextOf_getD (by omega), padded_append (by omega), add_assoc]

theorem nextContext_eq
    (single : batch.isDecode = true → ∀ other ∈ batch.reqs, other.tokens.length = 1) :
    (batch.metadata args pool).nextContext args req =
      contextOf args (stream ++ batch.reqs[req].tokens) := by
  have kind : (batch.metadata args pool).isDecode = batch.isDecode := rfl
  unfold PleMetadata.nextContext
  cases isDecode : batch.isDecode with
  | false =>
    rw [kind, isDecode, if_neg Bool.false_ne_true]
    refine map_congr_left fun col mem => ?_
    exact nextToken_eq isReq found isDecode (mem_range.mp mem)
  | true =>
    have one := single isDecode _ (getElem_mem isReq)
    have token : (batch.metadata args pool).inputIds.getD req args.boundary =
        batch.reqs[req].tokens.getD 0 args.boundary := by
      have here := inputIds_getD isReq (by rw [one]; exact Nat.one_pos) args.boundary
      rw [start_eq (single isDecode) isReq.le] at here
      exact here
    rw [kind, isDecode, if_pos rfl, found, token]
    have some_ : 0 < args.ctxLen := Nat.sub_pos_of_lt args.atLeastTwo
    refine ext_getElem ?_ fun col here there => ?_
    · rw [length_append, length_drop, contextOf_length, contextOf_length, length_singleton]
      omega
    · rw [contextOf_length] at there
      have whole : (contextOf args (stream ++ batch.reqs[req].tokens))[col] =
          padded args (stream ++ batch.reqs[req].tokens) (stream.length + (col + 1)) := by
        rw [contextOf_getElem, length_append, one]
        congr 1
        omega
      rw [whole]
      by_cases isOld : col + 1 < args.ctxLen
      · rw [getElem_append_left (by rw [length_drop, contextOf_length]; omega),
          getElem_drop, padded_append (by omega), contextOf_getElem, Nat.add_comm 1 col]
      · have isLast : stream.length + (col + 1) = args.ctxLen + (stream.length + 0) := by omega
        rw [getElem_append_right (by rw [length_drop, contextOf_length]; omega),
          getElem_singleton, isLast, padded_new]

end PleBatch

end FreeToken
