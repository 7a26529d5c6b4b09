/-
**Harmony's channels, scanned again and again.**

The streaming parser scans the whole buffer at every chunk and delivers what exceeds the length it has
delivered before.
-/

import FreeToken.Server.ReasoningParser

namespace FreeToken.GptOssHarmonyReasoningParser

open Markers ReasoningParseResult
open List hiding append_assoc append_nil

structure Segment where
  header : List Char
  body : List Char
  ending : Option (List Char)

/-- The channel segments of a text. -/
def segments (text : List Char) : List Segment :=
  match _channel : cut harmonyChannel text with
  | none => []
  | some (_, fromHeader) =>
      match _message : cut harmonyMessage fromHeader with
      | none => []
      | some (header, fromBody) =>
          match _boundary : firstCut harmonyBoundaryTokens fromBody with
          | none => [⟨header, fromBody, none⟩]
          | some (body, token, after) => ⟨header, body, some token⟩ :: segments (token ++ after)
termination_by text.length
decreasing_by exact rest_lt _channel _message _boundary

def Segment.Cut (segment : Segment) : Prop :=
  isTool segment.header = true ∧
    ∃ token, segment.ending = some token ∧ token ∉ closingBoundaryTokens

/-- A tool block is ended by a token that opens something else, which the block does not keep. -/
def ToolBlockCut (text : List Char) : Prop := ∃ segment ∈ segments text, segment.Cut

/-! ### Scans of a growing text -/

section Scan

variable {text more skipped fromHeader header fromBody body token after : List Char} {hold : Bool}

theorem scan_eq (hold : Bool) (text : List Char) : scan hold text =
    match cut harmonyChannel text with
    | none => {}
    | some (_, fromHeader) =>
      match cut harmonyMessage fromHeader with
      | none => {}
      | some (header, fromBody) =>
        match firstCut harmonyBoundaryTokens fromBody with
        | none => segment hold header fromBody none
        | some (body, token, after) =>
          segment hold header body (some token) ++ scan hold (token ++ after) := by
  rw [scan]
  split
  · next channel => rw [channel]
  · next channel =>
    rw [channel]
    dsimp only
    split
    · next message => rw [message]
    · next message =>
      rw [message]
      dsimp only
      split
      · next boundary => rw [boundary]
      · next boundary => rw [boundary]

theorem segments_eq (text : List Char) : segments text = match cut harmonyChannel text with
    | none => []
    | some (_, fromHeader) =>
      match cut harmonyMessage fromHeader with
      | none => []
      | some (header, fromBody) =>
        match firstCut harmonyBoundaryTokens fromBody with
        | none => [⟨header, fromBody, none⟩]
        | some (body, token, after) => ⟨header, body, some token⟩ :: segments (token ++ after) := by
  rw [segments]
  split
  · next channel => rw [channel]
  · next channel =>
    rw [channel]
    dsimp only
    split
    · next message => rw [message]
    · next message =>
      rw [message]
      dsimp only
      split
      · next boundary => rw [boundary]
      · next boundary => rw [boundary]

theorem segments_of_open (channel : cut harmonyChannel text = some (skipped, fromHeader))
    (message : cut harmonyMessage fromHeader = some (header, fromBody))
    (boundary : firstCut harmonyBoundaryTokens fromBody = none) :
    segments text = [⟨header, fromBody, none⟩] := by
  rw [segments_eq]
  simp only [channel, message, boundary]

theorem segments_of_ended (channel : cut harmonyChannel text = some (skipped, fromHeader))
    (message : cut harmonyMessage fromHeader = some (header, fromBody))
    (boundary : firstCut harmonyBoundaryTokens fromBody = some (body, token, after)) :
    segments text = ⟨header, body, some token⟩ :: segments (token ++ after) := by
  rw [segments_eq]
  simp only [channel, message, boundary]

theorem scan_of_open (channel : cut harmonyChannel text = some (skipped, fromHeader))
    (message : cut harmonyMessage fromHeader = some (header, fromBody))
    (boundary : firstCut harmonyBoundaryTokens fromBody = none) :
    scan hold text = segment hold header fromBody none := by
  rw [scan_eq]
  simp only [channel, message, boundary]

theorem scan_of_ended (channel : cut harmonyChannel text = some (skipped, fromHeader))
    (message : cut harmonyMessage fromHeader = some (header, fromBody))
    (boundary : firstCut harmonyBoundaryTokens fromBody = some (body, token, after)) :
    scan hold text = segment hold header body (some token) ++ scan hold (token ++ after) := by
  rw [scan_eq]
  simp only [channel, message, boundary]

theorem silent_of_no_header (headerless : ∀ skipped fromHeader,
    cut harmonyChannel text = some (skipped, fromHeader) → cut harmonyMessage fromHeader = none) :
    segments text = [] ∧ scan hold text = {} := by
  rw [segments_eq, scan_eq]
  cases channel : cut harmonyChannel text with
  | none => exact ⟨rfl, rfl⟩
  | some parts =>
    dsimp only
    rw [headerless parts.1 parts.2 channel]
    exact ⟨rfl, rfl⟩

theorem scan_of_no_channel (absent : ¬harmonyChannel <:+: text) : scan hold text = {} :=
  (silent_of_no_header fun _ _ found => by
    rw [cut_eq_none.mpr absent] at found
    cases found).2

theorem apart_boundaryTokens : Separate harmonyBoundaryTokens := by decide

theorem segments_induction {motive : List Char → Prop}
    (silent : ∀ text, (∀ skipped fromHeader, cut harmonyChannel text = some (skipped, fromHeader) →
      cut harmonyMessage fromHeader = none) → motive text)
    (stillOpen : ∀ text skipped fromHeader header fromBody,
      cut harmonyChannel text = some (skipped, fromHeader) →
      cut harmonyMessage fromHeader = some (header, fromBody) →
      firstCut harmonyBoundaryTokens fromBody = none → motive text)
    (ended : ∀ text skipped fromHeader header fromBody body token after,
      cut harmonyChannel text = some (skipped, fromHeader) →
      cut harmonyMessage fromHeader = some (header, fromBody) →
      firstCut harmonyBoundaryTokens fromBody = some (body, token, after) →
      motive (token ++ after) → motive text) (text : List Char) : motive text := by
  induction text using segments.induct with
  | case1 text channel =>
    exact silent text fun _ _ found => by
      rw [channel] at found
      cases found
  | case2 text skipped fromHeader channel message =>
    exact silent text fun _ _ found => by
      rw [channel] at found
      cases found
      exact message
  | case3 text skipped fromHeader channel header fromBody message boundary =>
    exact stillOpen text skipped fromHeader header fromBody channel message boundary
  | case4 text skipped fromHeader channel header fromBody message body token after boundary ih =>
    exact ended text skipped fromHeader header fromBody body token after channel message boundary ih

theorem ToolBlockCut.append (isCut : ToolBlockCut text) (more : List Char) :
    ToolBlockCut (text ++ more) := by
  induction text using segments_induction with
  | silent text headerless =>
    obtain ⟨_, mem, -⟩ := isCut
    rw [(@silent_of_no_header _ true headerless).1] at mem
    cases mem
  | stillOpen text _ _ header fromBody channel message boundary =>
    obtain ⟨_, mem, -, token, ending, -⟩ := isCut
    rw [segments_of_open channel message boundary, mem_singleton] at mem
    rw [mem] at ending
    cases ending
  | ended text _ _ header fromBody body token after channel message boundary ih =>
    obtain ⟨segment, mem, isCut⟩ := isCut
    unfold ToolBlockCut
    rw [segments_of_ended (cut_append channel) (cut_append message)
      (firstCut_append apart_boundaryTokens more boundary), ← List.append_assoc]
    rw [segments_of_ended channel message boundary] at mem
    rcases mem_cons.mp mem with rfl | later
    · exact ⟨_, mem_cons_self, isCut⟩
    · obtain ⟨segment', member', isCut'⟩ := ih ⟨segment, later, isCut⟩
      exact ⟨segment', mem_cons_of_mem _ member', isCut'⟩

theorem segment_grown (header fromBody more : List Char) (hold : Bool) :
    segment true header fromBody none ≤ segment hold header (fromBody ++ more) none := by
  unfold segment
  have grown : safe harmonyAllTokens fromBody <+:
      if (none : Option (List Char)).isNone && hold then safe harmonyAllTokens (fromBody ++ more)
      else fromBody ++ more := by
    split
    · exact safe_append _ _ _
    · exact (List.take_prefix _ _).trans (prefix_append _ _)
  split
  · refine ⟨prefix_rfl, ?_⟩
    simp [prefix_append]
  · dsimp only
    split
    · exact ⟨grown, prefix_rfl⟩
    · exact ⟨prefix_rfl, grown⟩

theorem segment_ended (open_ : firstCut harmonyBoundaryTokens fromBody = none)
    (boundary : firstCut harmonyBoundaryTokens (fromBody ++ more) = some (body, token, after))
    (whole : ¬(Segment.mk header body (some token)).Cut) :
    segment true header fromBody none ≤ segment hold header body (some token) := by
  obtain ⟨mem, split, first⟩ := firstCut_spec boundary
  have occurs : body ++ token <+: fromBody ++ more := ⟨after, by rw [split, List.append_assoc]⟩
  have absent := firstCut_eq_none.mp open_ token mem
  unfold segment
  split
  · next isTool =>
    -- the block keeps its closing token, which was not complete
    have kept : token ∈ closingBoundaryTokens := by
      by_contra other
      exact whole ⟨isTool, token, rfl, other⟩
    have longer : fromBody <+: body ++ token := by
      rcases prefix_or_prefix_of_prefix (prefix_append fromBody more) occurs with
        isFront | isBack
      · exact isFront
      · exact absurd ((suffix_append _ _).isInfix.trans isBack.isInfix) absent
    refine ⟨prefix_rfl, ?_⟩
    obtain ⟨rest, rest_eq⟩ := longer
    simp only [Option.filter, kept, decide_true, if_true, Option.getD_some]
    refine ⟨rest, ?_⟩
    simp only [Option.getD_none, List.append_nil, List.append_assoc, rest_eq]
  · have isMem : token ∈ harmonyAllTokens := mem_append_right _ mem
    have front : safe harmonyAllTokens fromBody <+: body := by
      apply prefix_of_prefix_length_le
        ((List.take_prefix _ _).trans (prefix_append fromBody more))
        ((prefix_append _ _).trans occurs)
      exact safe_le_cut isMem occurs absent
    dsimp only
    split
    · exact ⟨front, prefix_rfl⟩
    · exact ⟨prefix_rfl, front⟩

/-- Without such a block **a scan extends every scan of the text as it arrived**. -/
theorem scan_le (whole : ¬ToolBlockCut (text ++ more)) (hold : Bool) :
    scan true text ≤ scan hold (text ++ more) := by
  induction text using segments_induction with
  | silent text headerless =>
    rw [(silent_of_no_header headerless).2]
    exact nil_le
  | stillOpen text _ _ header fromBody channel message boundary =>
    rw [scan_of_open channel message boundary]
    cases boundary' : firstCut harmonyBoundaryTokens (fromBody ++ more) with
    | none =>
      rw [scan_of_open (cut_append channel) (cut_append message) boundary']
      exact segment_grown header fromBody more hold
    | some parts =>
      obtain ⟨body, token, after⟩ := parts
      rw [scan_of_ended (cut_append channel) (cut_append message) boundary']
      refine ReasoningParseResult.le_trans
        (segment_ended boundary boundary' fun isCut => whole ?_) le_append
      refine ⟨_, ?_, isCut⟩
      rw [segments_of_ended (cut_append channel) (cut_append message) boundary']
      exact mem_cons_self
  | ended text _ _ header fromBody body token after channel message boundary ih =>
    have boundary' := firstCut_append apart_boundaryTokens more boundary
    rw [scan_of_ended channel message boundary,
      scan_of_ended (cut_append channel) (cut_append message) boundary', ← List.append_assoc]
    have later : ¬ToolBlockCut (token ++ after ++ more) := by
      rintro ⟨segment, mem, isCut⟩
      refine whole ⟨segment, ?_, isCut⟩
      rw [segments_of_ended (cut_append channel) (cut_append message) boundary',
        ← List.append_assoc]
      exact mem_cons_of_mem _ mem
    exact append_le_append (ih later)

theorem scan_held (text : List Char) : scan true text ≤ scan false text := by
  induction text using segments_induction with
  | silent text headerless =>
    rw [(silent_of_no_header headerless).2]
    exact nil_le
  | stillOpen text _ _ header fromBody channel message boundary =>
    rw [scan_of_open channel message boundary, scan_of_open channel message boundary]
    have grown := segment_grown header fromBody [] false
    rwa [List.append_nil] at grown
  | ended text _ _ header fromBody body token after channel message boundary ih =>
    rw [scan_of_ended channel message boundary, scan_of_ended channel message boundary]
    exact append_le_append ih

/-! ### A tool block that is cut -/

theorem boundaryToken_length (mem : token ∈ harmonyBoundaryTokens) :
    0 < token.length ∧ token.length ≤ 22 := by
  have all : ∀ token ∈ harmonyBoundaryTokens, 0 < token.length ∧ token.length ≤ 22 := by decide
  exact all token mem

theorem boundary_incomplete (boundary : firstCut harmonyBoundaryTokens fromBody =
    some (body, token, after)) : firstCut harmonyBoundaryTokens (body ++ token.dropLast) = none := by
  obtain ⟨mem, split, first⟩ := firstCut_spec boundary
  have pos := (boundaryToken_length mem).1
  refine firstCut_eq_none.mpr ?_
  rintro other isOther ⟨front, back, within⟩
  have here : front ++ other <+: body ++ token.dropLast := ⟨back, within⟩
  have whole : body ++ token.dropLast <+: fromBody := by
    rw [split]
    apply prefix_append_right_inj _ |>.mpr
    exact (List.dropLast_prefix _).trans (prefix_append _ _)
  have late := first other isOther front (here.trans whole)
  have short := congrArg length within
  simp only [length_append, length_dropLast] at short
  have occurs : body ++ token <+: fromBody := ⟨after, by rw [split, List.append_assoc]⟩
  have same := apart_boundaryTokens _ isOther _ mem
    (infix_of_cover (here.trans whole) occurs late (by omega))
  rw [same] at short
  omega

theorem scan_token (mem : token ∈ harmonyBoundaryTokens) (other : token ∉ closingBoundaryTokens) :
    scan true token = {} := by
  have opener : token = harmonyStart ∨ token = harmonyChannel := by
    have all : ∀ token ∈ harmonyBoundaryTokens,
        token ∈ closingBoundaryTokens ∨ token = harmonyStart ∨ token = harmonyChannel := by decide
    exact (all token mem).resolve_left other
  apply (silent_of_no_header ?_).2
  rcases opener with rfl | rfl
  · have none : cut harmonyChannel harmonyStart = none := by decide
    rintro _ _ found
    rw [none] at found
    cases found
  · have here : cut harmonyChannel harmonyChannel = some ([], []) := by decide
    rintro _ _ found
    rw [here] at found
    cases found
    decide

/-- With one, the beginning of the token is delivered as content before it is complete. -/
theorem scan_leaks (isCut : ToolBlockCut text) : ∃ early last later out leak,
    text = early ++ (last ++ later) ∧ 22 ≤ early.length ∧ solid leak ≠ [] ∧
      scan true early = out ++ ⟨[], leak⟩ ∧ scan true (early ++ last) = out ∧
      out ≤ scan true text := by
  induction text using segments_induction with
  | silent text headerless =>
    obtain ⟨_, mem, -⟩ := isCut
    rw [(@silent_of_no_header _ true headerless).1] at mem
    cases mem
  | stillOpen text _ _ header fromBody channel message boundary =>
    obtain ⟨_, mem, -, token, ending, -⟩ := isCut
    rw [segments_of_open channel message boundary, mem_singleton] at mem
    rw [mem] at ending
    cases ending
  | ended text skipped fromHeader header fromBody body token after channel message boundary ih =>
    obtain ⟨isBoundary, splitBody, -⟩ := firstCut_spec boundary
    obtain ⟨pos, short⟩ := boundaryToken_length isBoundary
    have splitText := (cut_eq_some.mp channel).1
    have splitHeader := (cut_eq_some.mp message).1
    obtain ⟨front, isFront⟩ : ∃ front, front =
      skipped ++ (harmonyChannel ++ (header ++ harmonyMessage)) := ⟨_, rfl⟩
    have long : 22 ≤ front.length := by
      have sizes : harmonyChannel.length = 11 ∧ harmonyMessage.length = 11 := by decide
      simp only [isFront, length_append]
      omega
    have splitFront : text = front ++ (body ++ (token ++ after)) := by
      rw [isFront, splitText, splitHeader, splitBody]
      simp only [List.append_assoc]
    -- the segment when `rest` has arrived after the body
    have arrived : ∀ rest more, token ++ after = rest ++ more → ∃ fromHeader,
        cut harmonyChannel (front ++ (body ++ rest)) = some (skipped, fromHeader) ∧
          cut harmonyMessage fromHeader = some (header, body ++ rest) := by
      intro rest more split
      refine ⟨header ++ (harmonyMessage ++ (body ++ rest)), ?_, ?_⟩
      · apply cut_of_append more
        rw [splitFront, splitHeader, splitBody, split] at channel
        simpa only [List.append_assoc] using channel
      · apply cut_of_append more
        rw [splitHeader, splitBody, split] at message
        simpa only [List.append_assoc] using message
    have ends : ∀ rest more, token ++ after = token ++ rest ++ more →
        scan true (front ++ (body ++ (token ++ rest))) =
          segment true header body (some token) ++ scan true (token ++ rest) := by
      intro rest more split
      obtain ⟨fromHeader, channel', message'⟩ := arrived _ _ split
      refine scan_of_ended channel' message' (firstCut_of_append apart_boundaryTokens more ?_)
      have isAfter : after = rest ++ more := by
        rw [List.append_assoc] at split
        exact append_cancel_left split
      rw [splitBody, isAfter] at boundary
      simpa only [List.append_assoc] using boundary
    obtain ⟨segment', mem, isCut⟩ := isCut
    rw [segments_of_ended channel message boundary] at mem
    rw [scan_of_ended channel message boundary]
    rcases mem_cons.mp mem with rfl | later
    · obtain ⟨isTool, _, same, notClosing⟩ := isCut
      cases same
      obtain ⟨final, whole⟩ : ∃ final, token.dropLast ++ [final] = token :=
        ⟨_, dropLast_append_getLast (ne_nil_of_length_pos pos)⟩
      have visible : ∀ token ∈ harmonyBoundaryTokens, solid token.dropLast ≠ [] := by decide
      refine ⟨front ++ (body ++ token.dropLast), [final], after,
        segment true header body (some token), token.dropLast, ?_, ?_, visible token isBoundary,
        ?_, ?_, le_append⟩
      · rw [splitFront]
        conv_lhs => rw [← whole]
        simp only [List.append_assoc]
      · rw [length_append]
        omega
      · obtain ⟨fromHeader, channel', message'⟩ := arrived token.dropLast ([final] ++ after) (by
            rw [← List.append_assoc, whole])
        rw [scan_of_open channel' message' (boundary_incomplete boundary)]
        simp only [segment, isTool, if_true]
        show (⟨_, _⟩ : ReasoningParseResult) = ⟨_, _⟩
        simp [Option.filter, notClosing]
      · have ended := ends [] after (by simp)
        rw [List.append_nil, scan_token isBoundary notClosing, append_nil] at ended
        rw [List.append_assoc, List.append_assoc, whole]
        exact ended
    · obtain ⟨early, last, rest, out, leak, split, enough, visible, leaks, retracts, kept⟩ :=
        ih ⟨segment', later, isCut⟩
      obtain ⟨rest', rfl⟩ : token <+: early := by
        apply prefix_of_prefix_length_le (prefix_append token after)
        · rw [split]
          exact prefix_append _ _
        · omega
      refine ⟨front ++ (body ++ (token ++ rest')), last, rest,
        segment true header body (some token) ++ out, leak, ?_, ?_, visible, ?_, ?_,
        append_le_append kept⟩
      · rw [splitFront, split]
        simp only [List.append_assoc]
      · rw [length_append]
        omega
      · rw [ends _ _ split, leaks, append_assoc]
      · rw [List.append_assoc, List.append_assoc, List.append_assoc,
          ends _ rest (by rw [split]; simp only [List.append_assoc]), ← List.append_assoc,
          retracts]

end Scan

/-! ### Streams -/

/-- What the parser promises of a text: the stream delivers what the one-shot parse does, up to outer
whitespace, each scan extends the scans before it, and a text without a channel is delivered as it
is. -/
structure Delivers (text : List Char) : Prop where
  agrees : ∀ chunks : List (List Char), chunks.flatten = text →
    strip (stream chunks).reasoningText = strip (detectAndParse text).reasoningText ∧
      strip (stream chunks).normalText = strip (detectAndParse text).normalText
  grows : ∀ early late, early <+: late → late <+: text → scan true early ≤ scan true late
  unchanged : ¬harmonyChannel <:+: text → ∀ chunks : List (List Char), chunks.flatten = text →
    stream chunks = ⟨[], text⟩

section Stream

variable {text : List Char} {chunks : List (List Char)}

theorem append_emit {emitted scanned : ReasoningParseResult} (buffer : List Char)
    (grown : emitted ≤ scanned) : emitted ++ (emit ⟨buffer, emitted.reasoningText.length,
      emitted.normalText.length⟩ scanned).1 = scanned := by
  obtain ⟨⟨reasoning, isReasoning⟩, content, isContent⟩ := grown
  show (⟨_, _⟩ : ReasoningParseResult) = scanned
  cases scanned with
  | mk reasoningText normalText =>
    subst isReasoning isContent
    simp [emit]

theorem stream_eq (grows : ∀ early late, early <+: late → late <+: text →
    scan true early ≤ scan true late) (whole : chunks.flatten = text) :
    stream chunks = scan false text := by
  have start : scan true [] = {} := scan_of_no_channel (by decide)
  refine deliver_induction (fun seen out self => out = scan true seen ∧
    self = ⟨seen, out.reasoningText.length, out.normalText.length⟩) ?step ?stop
    ⟨start.symm, rfl⟩ ((List.nil_append _).trans whole)
  case step =>
    rintro seen out self chunk ⟨rfl, rfl⟩ isFront
    have grown := append_emit (seen ++ chunk)
      (grows seen (seen ++ chunk) (prefix_append _ _) isFront)
    refine ⟨grown, ?_⟩
    show (⟨_, _, _⟩ : GptOssHarmonyReasoningParser) = ⟨_, _, _⟩
    congr 1
    · exact congrArg (fun result => result.reasoningText.length) grown.symm
    · exact congrArg (fun result => result.normalText.length) grown.symm
  case stop =>
    rintro out self ⟨rfl, rfl⟩
    exact append_emit text (scan_held text)

theorem ToolBlockCut.channel (isCut : ToolBlockCut text) : harmonyChannel <:+: text := by
  by_contra absent
  obtain ⟨_, mem, -⟩ := isCut
  rw [segments_eq, cut_eq_none.mpr absent] at mem
  cases mem

theorem detectAndParse_of_channel (present : harmonyChannel <:+: text) : detectAndParse text =
      ⟨strip (scan false text).reasoningText, strip (scan false text).normalText⟩ := by
  unfold detectAndParse
  rw [if_pos present]

theorem disagrees_of_cut (isCut : ToolBlockCut text) : ∃ chunks : List (List Char),
    chunks.flatten = text ∧
      strip (stream chunks).normalText ≠ strip (detectAndParse text).normalText := by
  obtain ⟨early, last, later, out, leak, split, -, visible, leaks, retracts, kept⟩ :=
    scan_leaks isCut
  refine ⟨[early, last, later], ?_, fun same => visible ?_⟩
  · rw [split]
    simp
  · have rest := append_emit text kept
    have final := append_emit text (scan_held text)
    have delivered : stream [early, last, later] = out ++ ⟨[], leak⟩ ++
        ((emit ⟨text, out.reasoningText.length, out.normalText.length⟩ (scan true text)).1 ++
          (emit ⟨text, (scan true text).reasoningText.length, (scan true text).normalText.length⟩
            (scan false text)).1) := by
      have whole : early ++ last ++ later = text := by rw [split, List.append_assoc]
      unfold stream deliver deliver deliver deliver parseStreamingIncrement flush
      simp only [List.nil_append, leaks, retracts, whole, emit, drop_zero, reasoningText_append,
        normalText_append, List.append_nil, drop_length, length_append]
      rw [drop_eq_nil_of_le (Nat.le_add_right _ _)]
      show (⟨_, _⟩ : ReasoningParseResult) = ⟨_, _⟩
      simp
    have counted := congrArg (fun text => (solid text).length) same
    rw [solid_strip, detectAndParse_of_channel isCut.channel, solid_strip, solid_strip,
      delivered] at counted
    have total := congrArg (fun result => (solid result.normalText).length) final
    have part := congrArg (fun result => (solid result.normalText).length) rest
    simp only [normalText_append, solid_append, length_append] at counted total part
    exact eq_nil_of_length_eq_zero (by omega)

theorem grows_of_whole (whole : ¬ToolBlockCut text) {early late : List Char}
    (isEarly : early <+: late) (isLate : late <+: text) : scan true early ≤ scan true late := by
  obtain ⟨more, rfl⟩ := isEarly
  obtain ⟨rest, rfl⟩ := isLate
  exact scan_le (fun isCut => whole (isCut.append rest)) true

/-- **Harmony's reasoning parser.** A text is delivered as it should be in every chunking exactly when
it has a channel, or is empty, and none of its tool blocks is cut. -/
theorem delivers_iff : Delivers text ↔
    (harmonyChannel <:+: text ∨ text = []) ∧ ¬ToolBlockCut text := by
  constructor
  · intro delivers
    refine ⟨?_, fun isCut => ?_⟩
    · by_contra neither
      obtain ⟨absent, nonempty⟩ := not_or.mp neither
      have unchanged := delivers.unchanged absent [text] (by simp)
      rw [stream_eq delivers.grows (flatten_singleton), scan_of_no_channel absent] at unchanged
      exact nonempty (congrArg ReasoningParseResult.normalText unchanged).symm
    · obtain ⟨chunks, whole, differs⟩ := disagrees_of_cut isCut
      exact differs (delivers.agrees chunks whole).2
  · rintro ⟨present, whole⟩
    have grows : ∀ early late, early <+: late → late <+: text → scan true early ≤ scan true late :=
      fun _ _ => grows_of_whole whole
    refine ⟨fun chunks isText => ?_, grows, fun absent chunks isText => ?_⟩
    · rw [stream_eq grows isText]
      rcases present with present | rfl
      · rw [detectAndParse_of_channel present]
        have again : ∀ text, strip (strip text) = strip text := strip_strip
        exact ⟨(again _).symm, (again _).symm⟩
      · rw [scan_of_no_channel (by decide)]
        exact ⟨rfl, rfl⟩
    · obtain rfl := present.resolve_left absent
      rw [stream_eq grows isText, scan_of_no_channel absent]

/-- A text without a channel is lost, and the token that cuts a tool block leaks. -/
theorem not_delivers : ¬Delivers "hello".toList ∧
    ¬Delivers "<|channel|>commentary to=functions.f<|message|>{}<|start|>".toList := by
  constructor
  · intro delivers
    have unchanged := delivers.unchanged (by decide) ["hello".toList] rfl
    rw [stream_eq delivers.grows (flatten_singleton), scan_of_no_channel (by decide)] at unchanged
    cases unchanged
  · intro delivers
    have channel : cut harmonyChannel
        "<|channel|>commentary to=functions.f<|message|>{}<|start|>".toList =
          some ([], "commentary to=functions.f<|message|>{}<|start|>".toList) := by decide
    have message : cut harmonyMessage
        "commentary to=functions.f<|message|>{}<|start|>".toList =
          some ("commentary to=functions.f".toList, "{}<|start|>".toList) := by decide
    have boundary : firstCut harmonyBoundaryTokens "{}<|start|>".toList =
        some ("{}".toList, harmonyStart, []) := by decide
    have isCut : ToolBlockCut
        "<|channel|>commentary to=functions.f<|message|>{}<|start|>".toList := by
      unfold ToolBlockCut
      rw [segments_of_ended channel message boundary]
      exact ⟨_, mem_cons_self, by decide, harmonyStart, rfl, by decide⟩
    obtain ⟨chunks, whole, differs⟩ := disagrees_of_cut isCut
    exact differs (delivers.agrees chunks whole).2

end Stream

end FreeToken.GptOssHarmonyReasoningParser
