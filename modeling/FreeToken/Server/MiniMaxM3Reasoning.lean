/-
**MiniMax-M3's think block.**

The streaming parser is the base machine behind a head that may be a bare closer; the one-shot parse
is positional and trims nothing.
-/

import FreeToken.Server.ThinkReasoning

namespace FreeToken.MiniMaxM3ReasoningParser

open Markers ReasoningParseResult BaseReasoningParser Option
open List hiding nil_append

def thinkStart : List Char := miniMaxM3Format.thinkStartToken
def thinkEnd : List Char := miniMaxM3Format.thinkEndToken
def toolStart : List Char := "]<]minimax[>[<tool_call>".toList

/-! ### The head -/

def afterHead (text : List Char) : List Char :=
  if thinkEnd.isPrefixOf (lstrip text) then (lstrip text).drop thinkEnd.length else text

section Head

variable {self : MiniMaxM3ReasoningParser} {chunks : List (List Char)} {front back : List Char}

theorem deliver_settled (settled : self.leadingCloserPending = false) :
    deliver parseStreamingIncrement flush self chunks =
      deliver BaseReasoningParser.parseStreamingIncrement BaseReasoningParser.flush self.base
        chunks := by
  induction chunks generalizing self with
  | nil =>
    show flush self = self.base.flush
    unfold flush
    rw [settled]
    rfl
  | cons chunk chunks ih =>
    have step : self.parseStreamingIncrement chunk = self.parseBase chunk := by
      unfold parseStreamingIncrement
      rw [settled]
      rfl
    rw [deliver_cons, deliver_cons, step]
    exact congrArg _ (@ih { self with base := _ } settled)

def Diverged (head : List Char) : Prop :=
  lstrip head ≠ [] ∧ ¬thinkEnd <+: lstrip head ∧ ¬lstrip head <+: thinkEnd

theorem Diverged.append (diverged : Diverged front) (back : List Char) :
    afterHead (front ++ back) = front ++ back := by
  obtain ⟨nonempty, longer, shorter⟩ := diverged
  unfold afterHead
  rw [if_neg]
  rw [List.isPrefixOf_iff_prefix, lstrip_append fun blank => nonempty (lstrip_eq_nil.mpr blank)]
  intro starts
  rcases prefix_or_prefix_of_prefix starts (prefix_append (lstrip front) back) with
    isLonger | isShorter
  · exact longer isLonger
  · exact shorter isShorter

theorem parse_diverged (pending : self.leadingCloserPending = true)
    (format : self.base.format = miniMaxM3Format) (diverged : Diverged (self.headBuffer ++ front)) :
    self.parseStreamingIncrement front = { self with
      leadingCloserPending := false
      headBuffer := [] }.parseBase (self.headBuffer ++ front) := by
  obtain ⟨nonempty, longer, shorter⟩ := diverged
  have notLonger : ¬miniMaxM3Format.thinkEndToken.isPrefixOf (lstrip (self.headBuffer ++ front)) :=
    fun starts => longer (List.isPrefixOf_iff_prefix.mp starts)
  have notShorter : ¬(lstrip (self.headBuffer ++ front)).isPrefixOf miniMaxM3Format.thinkEndToken :=
    fun starts => shorter (List.isPrefixOf_iff_prefix.mp starts)
  unfold parseStreamingIncrement
  rw [pending, format]
  simp only [if_true, notLonger, notShorter, nonempty]
  simp

theorem parse_closer (pending : self.leadingCloserPending = true)
    (format : self.base.format = miniMaxM3Format) (outside : self.base.inReasoning = false)
    (closer : thinkEnd <+: lstrip (self.headBuffer ++ front)) : ∃ rest,
    lstrip (self.headBuffer ++ front) = thinkEnd ++ rest ∧ self.parseStreamingIncrement front =
        if rest = [] then ({}, { self with leadingCloserPending := false, headBuffer := [] })
        else { self with
          leadingCloserPending := false
          headBuffer := [] }.parseBase rest := by
  obtain ⟨rest, same⟩ := closer
  refine ⟨rest, same.symm, ?_⟩
  have starts : miniMaxM3Format.thinkEndToken.isPrefixOf (lstrip (self.headBuffer ++ front)) :=
    isPrefixOf_iff_prefix.mpr ⟨rest, same⟩
  have dropped : (lstrip (self.headBuffer ++ front)).drop miniMaxM3Format.thinkEndToken.length =
      rest := by
    rw [← same]
    exact drop_left
  have base : { self.base with inReasoning := false } = self.base := by rw [← outside]
  rw [← format] at starts dropped
  unfold parseStreamingIncrement
  simp only [pending, if_true, starts, base, dropped]

theorem parse_kept (pending : self.leadingCloserPending = true)
    (format : self.base.format = miniMaxM3Format) (other : ¬Diverged (self.headBuffer ++ front))
    (unclosed : ¬thinkEnd <+: lstrip (self.headBuffer ++ front)) :
    self.parseStreamingIncrement front =
      ({}, { self with headBuffer := self.headBuffer ++ front }) := by
  have notStarts : ¬miniMaxM3Format.thinkEndToken.isPrefixOf (lstrip (self.headBuffer ++ front)) :=
    fun starts => unclosed (List.isPrefixOf_iff_prefix.mp starts)
  have kept : (lstrip (self.headBuffer ++ front) = [] ||
      (lstrip (self.headBuffer ++ front)).isPrefixOf miniMaxM3Format.thinkEndToken) = true := by
    rw [Bool.or_eq_true, decide_eq_true_iff, isPrefixOf_iff_prefix]
    by_contra neither
    obtain ⟨nonempty, longer⟩ := not_or.mp neither
    exact other ⟨nonempty, unclosed, longer⟩
  unfold parseStreamingIncrement
  rw [pending, format]
  simp only [if_true, notStarts, kept]
  simp

/-- The head gives the base machine the text, or what follows its bare closer. -/
theorem deliver_pending (pending : self.leadingCloserPending = true)
    (format : self.base.format = miniMaxM3Format) (outside : self.base.inReasoning = false)
    (unclosed : ¬thinkEnd <+: lstrip self.headBuffer) : ∃ chunks' : List (List Char),
    chunks'.flatten = afterHead (self.headBuffer ++ chunks.flatten) ∧
      deliver parseStreamingIncrement flush self chunks =
        deliver BaseReasoningParser.parseStreamingIncrement BaseReasoningParser.flush self.base
          chunks' := by
  induction chunks generalizing self with
  | nil =>
    have same : afterHead (self.headBuffer ++ []) = self.headBuffer := by
      rw [List.append_nil]
      unfold afterHead
      rw [if_neg fun starts => unclosed (List.isPrefixOf_iff_prefix.mp starts)]
    rw [flatten_nil, same]
    show ∃ chunks', _ ∧ self.flush = _
    unfold flush
    rw [pending]
    by_cases none : self.headBuffer = []
    · exact ⟨[], none.symm, by simp [none, deliver]⟩
    · exact ⟨[self.headBuffer], flatten_singleton, by simp [none, deliver]⟩
  | cons chunk chunks ih =>
    rw [flatten_cons, ← List.append_assoc]
    by_cases closer : thinkEnd <+: lstrip (self.headBuffer ++ chunk)
    · obtain ⟨rest, same, step⟩ := parse_closer pending format outside closer
      have solid : ¬Blank (self.headBuffer ++ chunk) := fun blank => by
        rw [lstrip_eq_nil.mpr blank] at same
        cases same
      have isRest : afterHead (self.headBuffer ++ chunk ++ chunks.flatten) =
          rest ++ chunks.flatten := by
        unfold afterHead
        rw [lstrip_append solid, same, List.append_assoc, if_pos
          (List.isPrefixOf_iff_prefix.mpr (prefix_append _ _))]
        exact drop_left
      rw [isRest, deliver_cons, step]
      by_cases none : rest = []
      · refine ⟨chunks, by rw [none, List.nil_append], ?_⟩
        rw [if_pos none]
        exact deliver_settled rfl
      · refine ⟨rest :: chunks, flatten_cons, ?_⟩
        rw [if_neg none, deliver_cons]
        exact congrArg _ (deliver_settled rfl)
    · by_cases diverged : Diverged (self.headBuffer ++ chunk)
      · refine ⟨(self.headBuffer ++ chunk) :: chunks, ?_, ?_⟩
        · rw [diverged.append]
          exact flatten_cons
        · rw [deliver_cons, deliver_cons, parse_diverged pending format diverged]
          exact congrArg _ (deliver_settled rfl)
      · obtain ⟨chunks', isRest, delivered⟩ := @ih { self with headBuffer := self.headBuffer ++ chunk }
          pending format outside closer
        refine ⟨chunks', isRest, ?_⟩
        rw [deliver_cons, parse_kept pending format diverged closer, nil_append]
        exact delivered

end Head

/-! ### Texts that are delivered exactly -/

/-- A block that every chunking delivers as it splits: no whitespace comes before the closer, and a
tool block before the closer is short enough to be held. -/
def BlockExact (text : List Char) : Prop :=
  miniMaxM3Format.HeldInFull text ∧
    ∀ reasoning rest, cut thinkEnd text = some (reasoning, rest) → rstrip reasoning = reasoning

def tools (count : Nat) : List Char := (List.replicate count toolStart).flatten

/-- The texts that are delivered exactly. In the adaptive mode an opener stands at the very beginning,
or after nothing but tool markers where a tool block without a closer follows it. -/
def Exact (force : Bool) (text : List Char) : Prop :=
  if force then ¬thinkStart <:+: text ∧ BlockExact text
  else if thinkEnd <+: lstrip text then ¬thinkStart <:+: afterHead text
  else ∀ pre body, cut thinkStart text = some (pre, body) → pre = [] ∧ BlockExact body ∨
      (∃ count, pre = tools count) ∧ toolStart <+: body ∧ ¬thinkEnd <:+: body

section Exactness

variable {text pre body : List Char} {self : BaseReasoningParser} {chunks : List (List Char)}
  {delivered : ReasoningParseResult}

theorem splits_exact (splits : Splits miniMaxM3Format text delivered)
    (trimmed : ∀ reasoning rest, cut thinkEnd text = some (reasoning, rest) →
      rstrip reasoning = reasoning) : delivered = miniMaxM3Format.split text := by
  obtain ⟨blank, isBlank, exactly, split⟩ := splits
  have none : blank = [] := by
    cases closer : cut thinkEnd text with
    | none => exact exactly (cut_eq_none.mp closer)
    | some parts =>
      obtain ⟨reasoning, rest⟩ := parts
      have same := trimmed reasoning rest closer
      unfold ReasoningFormat.split at split
      rw [show cut miniMaxM3Format.thinkEndToken text = some (reasoning, rest) from closer] at split
      rw [(ReasoningParseResult.mk.inj split).1, rstrip_append_of_blank isBlank] at same
      have short := (List.rdropWhile_prefix isSpace delivered.reasoningText).length_le
      have sizes := congrArg length same
      rw [length_append] at sizes
      change (rdropWhile isSpace delivered.reasoningText).length = _ at sizes
      exact eq_nil_of_length_eq_zero (by omega)
  rw [split, none, List.append_nil]

theorem deliver_block (text : List Char) (format : self.format = miniMaxM3Format) (inside : self.inReasoning = true)
    (streams : self.streamReasoning = true) (empty : self.buffer = [])
    (absent : self.strippedThinkStart = true ∨ ¬thinkStart <:+: text)
    (exactly : BlockExact text) (whole : chunks.flatten = text) :
    deliver BaseReasoningParser.parseStreamingIncrement BaseReasoningParser.flush self chunks =
      miniMaxM3Format.split text := by
  have valid := ReasoningFormat.valid_miniMaxM3
  have splits := @deliver_reasoning self chunks (by rw [format]; exact valid) inside streams
    (by rw [format, empty, List.nil_append, whole]; exact absent)
    (by rw [format, empty]; decide)
    (fun tool isTool within => by
      rw [format] at isTool
      rw [empty] at within
      exact absurd (eq_nil_of_infix_nil within) (valid.nonempty tool
        (mem_cons_of_mem _ (ReasoningFormat.mem_endings.mpr (.inr isTool)))))
    (by rw [format, empty, List.nil_append, whole]; exact exactly.1)
  rw [format, empty, List.nil_append, whole] at splits
  exact splits_exact splits exactly.2

theorem deliver_plain (format : self.format = miniMaxM3Format) (outside : self.inReasoning = false)
    (empty : self.buffer = []) (absent : ¬thinkStart <:+: text) (whole : chunks.flatten = text) :
    deliver BaseReasoningParser.parseStreamingIncrement BaseReasoningParser.flush self chunks =
      ⟨[], text⟩ := by
  have delivered := @deliver_content self chunks outside
    (.inr (by rw [format, empty, List.nil_append, whole]; exact absent))
  rwa [empty, List.nil_append, whole] at delivered

def markers : List (List Char) := [thinkEnd, thinkStart, toolStart]

theorem tools_succ (count : Nat) : tools (count + 1) = tools count ++ toolStart := by
  unfold tools
  rw [replicate_succ', flatten_append, flatten_singleton]

theorem tools_add (first second : Nat) : tools (first + second) = tools first ++ tools second := by
  unfold tools
  rw [replicate_add, flatten_append]

theorem safe_eq {front part : List Char} {marker : List Char} (mem : marker ∈ markers)
    (starts : part <+: marker) (proper : part.length < marker.length)
    (alone : ∀ other ∈ markers, ∀ gap, gap ≠ [] → gap <:+ front → gap ++ part <+: other →
      other.length ≤ (gap ++ part).length) : safe markers (front ++ part) = front := by
  have least := le_longestPartial (front ++ part) mem starts proper (suffix_append _ _)
  have same : longestPartial markers (front ++ part) = part.length := by
    rcases held_prefix markers (front ++ part) with none | ⟨other, isOther, begins, shorter⟩
    · have zero := congrArg length none
      rw [length_held, length_nil] at zero
      omega
    · by_contra longer
      have isSuffix : held markers (front ++ part) <:+ front ++ part := drop_suffix _ _
      obtain ⟨gap, isGap⟩ := suffix_of_suffix_length_le (suffix_append front part)
        isSuffix (by rw [length_held]; exact least)
      rw [← isGap] at isSuffix begins shorter
      have nonempty : gap ≠ [] := fun none => longer (by
        rw [← length_held, ← isGap, none, List.nil_append])
      have within : gap <:+ front := by
        obtain ⟨rest, split⟩ := isSuffix
        rw [← List.append_assoc] at split
        exact ⟨rest, append_cancel_right split⟩
      exact absurd (alone other isOther gap nonempty within begins) (Nat.not_le.mpr shorter)
  unfold safe
  rw [same, length_append, Nat.add_sub_cancel]
  exact take_left

theorem markers_length {marker : List Char} (mem : marker ∈ markers) :
    0 < marker.length ∧ marker.length ≤ toolStart.length := by
  have all : ∀ marker ∈ markers, 0 < marker.length ∧ marker.length ≤ toolStart.length := by decide
  exact all marker mem

theorem tools_alone {count : Nat} {part : List Char} {other gap : List Char}
    (isOther : other ∈ markers) (nonempty : gap ≠ []) (isSuffix : gap <:+ tools count)
    (begins : gap ++ part <+: other) : other.length ≤ (gap ++ part).length := by
  rcases Nat.le_total toolStart.length gap.length with long | short
  · have low := (markers_length isOther).2
    rw [length_append]
    omega
  · have all : ∀ marker ∈ markers, ∀ gap ∈ toolStart.tails, gap ≠ [] → gap <+: marker →
        gap = marker := by decide
    cases count with
    | zero => exact absurd (eq_nil_of_suffix_nil isSuffix) nonempty
    | succ count =>
      rw [tools_succ] at isSuffix
      have within : gap <:+ toolStart :=
        suffix_of_suffix_length_le isSuffix (suffix_append _ _) short
      have same := all other isOther gap ((mem_tails _ _).mpr within) nonempty
        ((prefix_append _ _).trans begins)
      rw [← same, length_append]
      exact Nat.le_add_right _ _

theorem tools_front {count : Nat} {front : List Char} (isFront : front <+: tools count ++ thinkStart)
    (proper : front.length < (tools count ++ thinkStart).length) : ∃ done left part,
      count = done + left ∧ front = tools done ++ part ∧ ∃ marker ∈ markers,
        part <+: marker ∧ part.length < marker.length := by
  induction count generalizing front with
  | zero => exact ⟨0, 0, front, rfl, rfl, thinkStart, by decide, isFront, proper⟩
  | succ count ih =>
    have unrolled : tools (count + 1) = toolStart ++ tools count := by
      rw [Nat.add_comm, tools_add]
      rfl
    rw [unrolled, List.append_assoc] at isFront proper
    rcases Nat.lt_or_ge front.length toolStart.length with short | long
    · refine ⟨0, count + 1, front, by omega, rfl, toolStart, by decide, ?_, short⟩
      exact prefix_of_prefix_length_le isFront (prefix_append _ _) short.le
    · obtain ⟨rest, rfl⟩ := prefix_of_prefix_length_le (prefix_append _ _) isFront long
      rw [prefix_append_right_inj] at isFront
      obtain ⟨done, left, part, sum, isRest, partial_⟩ := ih isFront (by
        simp only [length_append] at proper ⊢
        omega)
      refine ⟨done + 1, left, part, by omega, ?_, partial_⟩
      rw [isRest, Nat.add_comm done, tools_add, List.append_assoc]
      rfl

theorem detectAndParse_forced (text : List Char) :
    (init true).detectAndParse text = miniMaxM3Format.split text := rfl

theorem detectAndParse_bare (closer : thinkEnd <+: lstrip text) :
    (init false).detectAndParse text = ⟨[], afterHead text⟩ := by
  have starts : thinkEnd.isPrefixOf (lstrip text) := isPrefixOf_iff_prefix.mpr closer
  have starts' : miniMaxM3Format.thinkEndToken.isPrefixOf (lstrip text) := starts
  unfold detectAndParse afterHead
  rw [if_pos starts, show (init false).base.format = miniMaxM3Format from rfl,
    show (init false).base.forceReasoning = false from rfl]
  rw [if_neg Bool.false_ne_true, if_pos starts']
  rfl

theorem detectAndParse_adaptive (unclosed : ¬thinkEnd <+: lstrip text) :
    (init false).detectAndParse text = match cut thinkStart text with
      | none => ⟨[], text⟩
      | some (pre, body) =>
        if thinkEnd <:+: body ∨ toolStart <:+: body then
          ⟨[], pre⟩ ++ miniMaxM3Format.split body
        else miniMaxM3Format.split body := by
  have unstarted : ¬miniMaxM3Format.thinkEndToken.isPrefixOf (lstrip text) := fun starts =>
    unclosed (List.isPrefixOf_iff_prefix.mp starts)
  unfold detectAndParse
  rw [show (init false).base.format = miniMaxM3Format from rfl,
    show (init false).base.forceReasoning = false from rfl]
  rw [if_neg Bool.false_ne_true, if_neg unstarted]
  change (match cut thinkStart text with | none => _ | some (pre, body) => _) = _
  cases cut thinkStart text with
  | none => rfl
  | some parts =>
    obtain ⟨pre, body⟩ := parts
    dsimp only
    unfold ReasoningFormat.split
    cases closer : cut miniMaxM3Format.thinkEndToken body with
    | some parts =>
      rw [if_pos (.inl (cut_isSome.mp ⟨_, closer⟩))]
      rfl
    | none =>
      have open_ := cut_eq_none.mp closer
      cases tool : miniMaxM3Format.toolCut body with
      | some parts =>
        obtain ⟨marker, rest, isTool, found, -⟩ := ReasoningFormat.toolCut_eq_some.mp tool
        cases isTool
        rw [if_pos (.inr (cut_isSome.mp ⟨_, found⟩))]
        rfl
      | none =>
        rw [if_neg]
        rintro (isOpen | here)
        · exact open_ isOpen
        · exact ReasoningFormat.toolCut_eq_none.mp tool toolStart rfl here

theorem closer_of_tools {count : Nat} (closer : thinkEnd <:+: tools count ++ body) :
    thinkEnd <:+: body := by
  induction count with
  | zero => exact closer
  | succ count ih =>
    apply ih
    have unrolled : tools (count + 1) = toolStart ++ tools count := by
      rw [Nat.add_comm, tools_add]
      rfl
    rw [unrolled, List.append_assoc] at closer
    generalize tools count ++ body = rest at closer ⊢
    obtain ⟨front, back, split⟩ := closer
    rw [List.append_assoc] at split
    rcases append_eq_append_iff.mp split with ⟨gap, isTool, same⟩ | ⟨gap, rfl, same⟩
    · have apart : ∀ gap ∈ toolStart.tails, gap ≠ [] → ¬gap <+: thinkEnd ∧ ¬thinkEnd <+: gap := by
        decide
      by_cases none : gap = []
      · rw [none, List.nil_append] at same
        exact ⟨[], back, same⟩
      · have isTail := apart gap ((mem_tails _ _).mpr ⟨front, isTool.symm⟩) none
        rcases append_eq_append_iff.mp same with ⟨more, isGap, -⟩ | ⟨more, isCloser, -⟩
        · exact absurd ⟨more, isGap.symm⟩ isTail.2
        · exact absurd ⟨more, isCloser.symm⟩ isTail.1
    · exact ⟨gap, back, by rw [List.append_assoc, same]⟩

theorem split_of_tool (starts : toolStart <+: text) (unclosed : ¬thinkEnd <:+: text) :
    miniMaxM3Format.split text = ⟨[], text⟩ := by
  obtain ⟨rest, rfl⟩ := starts
  have closer : cut miniMaxM3Format.thinkEndToken (toolStart ++ rest) = none :=
    cut_eq_none.mpr unclosed
  have tool : miniMaxM3Format.toolCut (toolStart ++ rest) = some ([], toolStart ++ rest) :=
    ReasoningFormat.toolCut_eq_some.mpr ⟨toolStart, rest, rfl, cut_of_prefix _ _, rfl⟩
  unfold ReasoningFormat.split
  rw [closer]
  rw [tool]

theorem blockExact_of_unclosed (unclosed : ¬thinkEnd <:+: text) : BlockExact text := by
  have none := cut_eq_none.mpr unclosed
  refine ⟨fun _ _ _ _ closer => ?_, fun _ _ closer => ?_⟩
  · change cut thinkEnd text = _ at closer
    rw [none] at closer
    cases closer
  · rw [none] at closer
    cases closer

theorem tools_shrink {rest front : List Char} (isTools : ∃ count, rest = tools count)
    (isFront : front <+: rest ++ thinkStart) (proper : front.length < (rest ++ thinkStart).length) :
    ∃ count, rest.drop (safe markers front).length = tools count := by
  obtain ⟨count, rfl⟩ := isTools
  obtain ⟨done, left, part, rfl, rfl, marker, mem, starts, shorter⟩ := tools_front isFront proper
  refine ⟨left, ?_⟩
  rw [safe_eq mem starts shorter fun other isOther gap nonempty isSuffix begins =>
    tools_alone isOther nonempty isSuffix begins, tools_add, drop_left]

/-- **A text that is to be delivered exactly is**, in every chunking. -/
theorem stream_of_exact {force : Bool} (exactly : Exact force text) (whole : chunks.flatten = text) :
    stream force chunks = (init force).detectAndParse text := by
  unfold Exact at exactly
  cases force with
  | true =>
    rw [if_pos rfl] at exactly
    obtain ⟨absent, exactly⟩ := exactly
    unfold stream
    rw [deliver_settled rfl, detectAndParse_forced]
    exact deliver_block text rfl rfl rfl rfl (.inr absent) exactly whole
  | false =>
    rw [if_neg Bool.false_ne_true] at exactly
    obtain ⟨chunks', isRest, delivered⟩ := @deliver_pending (init false) chunks rfl rfl rfl (by decide)
    rw [show (init false).headBuffer = [] from rfl, List.nil_append, whole] at isRest
    unfold stream
    rw [delivered]
    by_cases closer : thinkEnd <+: lstrip text
    · rw [if_pos closer] at exactly
      rw [deliver_plain rfl rfl rfl exactly isRest, detectAndParse_bare closer]
    · rw [if_neg closer] at exactly
      have same : afterHead text = text := by
        unfold afterHead
        rw [if_neg fun starts => closer (List.isPrefixOf_iff_prefix.mp starts)]
      rw [same] at isRest
      rw [detectAndParse_adaptive closer]
      cases opener : cut thinkStart text with
      | none => exact deliver_plain rfl rfl rfl (cut_eq_none.mp opener) isRest
      | some parts =>
        obtain ⟨pre, body⟩ := parts
        dsimp only
        have absent : ¬thinkStart <:+: (init false).base.buffer := by decide
        rcases exactly pre body opener with ⟨rfl, exactly⟩ | ⟨isTools, block, unclosed⟩
        · obtain ⟨emitted, pending, chunks'', isBefore, -, isBody, delivered'⟩ :=
            @deliver_opener (init false).base chunks' [] body (fun _ => True) rfl
              (by rw [isRest]; exact opener) absent (fun _ => rfl) (fun _ => by contradiction) trivial
              fun _ _ _ _ _ => trivial
          obtain ⟨rfl, rfl⟩ := append_eq_nil_iff.mp isBefore.symm
          rw [delivered', deliver_block body rfl rfl rfl rfl (.inl rfl) exactly isBody]
          split
          · rfl
          · rfl
        · obtain ⟨emitted, pending, chunks'', isBefore, ⟨count, rfl⟩, isBody, delivered'⟩ :=
            @deliver_opener (init false).base chunks' pre body (fun rest => ∃ count, rest = tools count)
              rfl (by rw [isRest]; exact opener) absent (fun _ => rfl) (fun _ => by contradiction)
              isTools fun rest front isTools isFront proper => tools_shrink isTools isFront proper
          have unclosed' : ¬thinkEnd <:+: tools count ++ body := fun closer =>
            unclosed (closer_of_tools closer)
          have starts : toolStart <+: tools count ++ body := by
            cases count with
            | zero => exact block
            | succ count =>
              rw [Nat.add_comm, tools_add, List.append_assoc]
              exact prefix_append _ _
          rw [delivered', deliver_block (tools count ++ body) rfl rfl rfl rfl (.inl rfl)
            (blockExact_of_unclosed unclosed') isBody, split_of_tool starts unclosed',
            if_pos (.inr block.isInfix), split_of_tool block unclosed, isBefore, mk_append]
          show (⟨_, _⟩ : ReasoningParseResult) = ⟨_, _⟩
          rw [List.append_assoc]
          rfl

end Exactness

/-! ### Texts that some chunking delivers otherwise -/

section Chunkings

variable {text pre body : List Char} {self : BaseReasoningParser}

def size (res : ReasoningParseResult) : Nat := res.reasoningText.length + res.normalText.length

theorem size_split (unclosed : ¬thinkEnd <:+: text) : size (miniMaxM3Format.split text) = text.length := by
  have closer : cut miniMaxM3Format.thinkEndToken text = none := cut_eq_none.mpr unclosed
  unfold ReasoningFormat.split size
  rw [closer]
  cases tool : miniMaxM3Format.toolCut text with
  | none => rfl
  | some parts =>
    conv_rhs => rw [ReasoningFormat.toolCut_split tool]
    rw [length_append]

theorem deliver_closed {reasoning rest : List Char} (format : self.format = miniMaxM3Format)
    (inside : self.inReasoning = true) (empty : self.buffer = [])
    (absent : self.strippedThinkStart = true ∨ ¬thinkStart <:+: text)
    (closer : cut thinkEnd text = some (reasoning, rest)) :
    deliver BaseReasoningParser.parseStreamingIncrement BaseReasoningParser.flush self [text] =
      ⟨rstrip reasoning, rest⟩ := by
  have step : self.parseStreamingIncrement text = self.parseCurrent text := by
    unfold BaseReasoningParser.parseStreamingIncrement
    rw [empty, List.nil_append, stripThinkStart_of_absent (by rw [format]; exact absent)]
  have parsed : self.parseCurrent text = (⟨rstrip reasoning, rest⟩, { self with
      buffer := []
      inReasoning := false }) := by
    unfold parseCurrent
    rw [format]
    change cut miniMaxM3Format.thinkEndToken text = _ at closer
    simp only [inside, if_true, closer]
  have rest := @deliver_content { self with
    buffer := []
    inReasoning := false } [] rfl (.inr (by
      rw [format]
      exact fun here => absurd (eq_nil_of_infix_nil here) (by decide)))
  rw [deliver_cons, step, parsed]
  rw [rest, mk_append, List.append_nil, flatten_nil, List.append_nil, List.append_nil]

theorem size_block (format : self.format = miniMaxM3Format) (inside : self.inReasoning = true)
    (streams : self.streamReasoning = true) (empty : self.buffer = [])
    (absent : self.strippedThinkStart = true ∨ ¬thinkStart <:+: text) :
    (thinkEnd <:+: text → size (deliver BaseReasoningParser.parseStreamingIncrement
      BaseReasoningParser.flush self [text]) + thinkEnd.length ≤ text.length) ∧
    (¬thinkEnd <:+: text → size (deliver BaseReasoningParser.parseStreamingIncrement
      BaseReasoningParser.flush self [text]) = text.length) := by
  constructor
  · intro closer
    obtain ⟨⟨reasoning, rest⟩, found⟩ := cut_isSome.mpr closer
    rw [deliver_closed format inside empty absent found]
    have short := (List.rdropWhile_prefix isSpace reasoning).length_le
    have total := congrArg length (cut_eq_some.mp found).1
    rw [length_append, length_append] at total
    show (rdropWhile isSpace reasoning).length + rest.length + _ ≤ _
    omega
  · intro unclosed
    rw [deliver_block text format inside streams empty absent (blockExact_of_unclosed unclosed)
      flatten_singleton]
    exact size_split unclosed

theorem deliver_overflow {front back block : List Char} (format : self.format = miniMaxM3Format)
    (inside : self.inReasoning = true) (empty : self.buffer = [])
    (absent : self.strippedThinkStart = true ∨ ¬thinkStart <:+: front ++ back)
    (unclosed : ¬thinkEnd <:+: front) (tool : miniMaxM3Format.toolCut front = some (pre, block))
    (long : toolHoldMax < block.length) :
    deliver BaseReasoningParser.parseStreamingIncrement BaseReasoningParser.flush self
      [front, back] = ⟨pre, block ++ back⟩ := by
  have step : self.parseStreamingIncrement front = self.parseCurrent front := by
    unfold BaseReasoningParser.parseStreamingIncrement
    rw [empty, List.nil_append, stripThinkStart_of_absent (absent.imp_right fun absent here => absent (by
      rw [format] at here
      exact here.trans (prefix_append _ _).isInfix))]
  have parsed : self.parseCurrent front = (⟨pre, block⟩, { self with
      buffer := []
      inReasoning := false }) := by
    have closer : cut miniMaxM3Format.thinkEndToken front = none := cut_eq_none.mpr unclosed
    unfold parseCurrent
    rw [format]
    simp only [inside, if_true, closer, tool, long]
  have rest := @deliver_content { self with
    buffer := []
    inReasoning := false } [back] rfl (absent.imp_right fun absent here => absent (by
      rw [format, List.nil_append, flatten_singleton] at here
      exact here.trans (suffix_append _ _).isInfix))
  rw [deliver_cons, step, parsed]
  rw [rest, mk_append, List.append_nil, List.nil_append, flatten_singleton]

/-- **A block that every chunking delivers as it splits is exact.** -/
theorem blockExact_of_deliver (format : self.format = miniMaxM3Format)
    (inside : self.inReasoning = true) (empty : self.buffer = [])
    (absent : self.strippedThinkStart = true ∨ ¬thinkStart <:+: text)
    (all : ∀ chunks : List (List Char), chunks.flatten = text →
      deliver BaseReasoningParser.parseStreamingIncrement BaseReasoningParser.flush self chunks =
        miniMaxM3Format.split text) : BlockExact text := by
  have split_closed : ∀ {reasoning rest}, cut thinkEnd text = some (reasoning, rest) →
      miniMaxM3Format.split text = ⟨reasoning, rest⟩ := by
    intro reasoning rest closer
    change cut miniMaxM3Format.thinkEndToken text = _ at closer
    unfold ReasoningFormat.split
    rw [closer]
  constructor
  · intro reasoning rest pre block closer tool sooner
    by_contra long
    rw [not_le] at long
    change cut thinkEnd text = _ at closer
    obtain ⟨isText, first⟩ := cut_eq_some.mp closer
    obtain ⟨marker, after, isTool, found, rfl⟩ := ReasoningFormat.toolCut_eq_some.mp tool
    cases isTool
    have found' : cut toolStart text = some (pre, after) := found
    have isText' := (cut_eq_some.mp found').1
    -- everything up to the last character of the closer
    obtain ⟨front, back, whole, short⟩ : ∃ front back, front ++ back = text ∧
        front.length = reasoning.length + 10 := by
      refine ⟨text.take (reasoning.length + 10), text.drop (reasoning.length + 10),
        take_append_drop _ _, ?_⟩
      rw [length_take, isText, length_append, length_append]
      have sizes : thinkEnd.length = 11 := by decide
      omega
    have sizes : miniMaxM3Format.thinkEndToken.length = 11 ∧ toolStart.length = 24 ∧
        toolHoldMax = 512 := by decide
    have unclosed : ¬thinkEnd <:+: front := by
      rintro ⟨prev, later, same⟩
      have occurs : prev ++ thinkEnd <+: text := by
        rw [← whole, ← same]
        exact ⟨later ++ back, by simp only [List.append_assoc]⟩
      have low := first prev occurs
      have total := congrArg length same
      have closerSize : thinkEnd.length = 11 := by decide
      simp only [length_append] at total
      omega
    obtain ⟨rest', isRest⟩ : pre ++ toolStart <+: front := by
      have starts : pre ++ toolStart <+: text := ⟨after, by rw [isText', List.append_assoc]⟩
      refine prefix_of_prefix_length_le starts ⟨back, whole⟩ ?_
      rw [length_append]
      omega
    have tool' : miniMaxM3Format.toolCut front = some (pre, toolStart ++ rest') := by
      refine ReasoningFormat.toolCut_eq_some.mpr ⟨toolStart, rest', rfl, ?_, rfl⟩
      apply cut_of_append back
      rw [whole, found']
      rw [← isRest, isText'] at whole
      simp only [List.append_assoc, append_cancel_left_eq] at whole
      rw [whole]
    have delivered := deliver_overflow format inside empty (by rw [whole]; exact absent) unclosed
      tool' (by
        have total := congrArg length isRest
        rw [length_append, length_append] at total
        rw [length_append]
        omega)
    rw [all [front, back] (by simpa using whole), split_closed closer] at delivered
    have same := congrArg (fun res => res.reasoningText.length) delivered
    dsimp only at same
    omega
  · intro reasoning rest closer
    have delivered := deliver_closed format inside empty absent closer
    rw [all [text] flatten_singleton, split_closed closer] at delivered
    exact (ReasoningParseResult.mk.inj delivered).1.symm

theorem exact_of_forced (all : ∀ chunks : List (List Char), chunks.flatten = text →
    stream true chunks = (init true).detectAndParse text) : Exact true text := by
  have delivered : ∀ chunks : List (List Char), chunks.flatten = text →
      deliver BaseReasoningParser.parseStreamingIncrement BaseReasoningParser.flush (init true).base
        chunks = miniMaxM3Format.split text := fun chunks whole =>
    (deliver_settled rfl).symm.trans (all chunks whole)
  have absent : ¬thinkStart <:+: text := by
    intro present
    obtain ⟨⟨pre, body⟩, opener⟩ := cut_isSome.mpr present
    have single := delivered [text] flatten_singleton
    rw [@deliver_opened (init true).base [] text pre body rfl opener] at single
    obtain ⟨lost, kept⟩ := @size_block (pre ++ body) (init true).base.opened rfl rfl rfl rfl
      (.inl rfl)
    have total := congrArg length (cut_eq_some.mp opener).1
    have sizes : thinkStart.length = 10 ∧ thinkEnd.length = 11 := by decide
    simp only [length_append] at total lost kept
    rw [single] at lost kept
    by_cases closer : thinkEnd <:+: text
    · -- the one-shot parse loses the closer only
      obtain ⟨⟨reasoning, rest⟩, found⟩ := cut_isSome.mpr closer
      have isText := congrArg length (cut_eq_some.mp found).1
      have oneShot : miniMaxM3Format.split text = ⟨reasoning, rest⟩ := by
        change cut miniMaxM3Format.thinkEndToken text = _ at found
        unfold ReasoningFormat.split
        rw [found]
      rw [oneShot] at lost kept
      simp only [size, length_append] at lost kept isText
      by_cases closer' : thinkEnd <:+: pre ++ body
      · have few := lost closer'
        omega
      · have few := kept closer'
        omega
    · rw [size_split closer] at lost kept
      by_cases closer' : thinkEnd <:+: pre ++ body
      · have few := lost closer'
        omega
      · have few := kept closer'
        omega
  exact ⟨absent, blockExact_of_deliver rfl rfl rfl (.inr absent) delivered⟩

theorem stream_diverged {front : List Char} (diverged : Diverged front) (chunks : List (List Char)) :
    stream false (front :: chunks) =
      deliver BaseReasoningParser.parseStreamingIncrement BaseReasoningParser.flush (init false).base
        (front :: chunks) := by
  unfold stream
  rw [deliver_cons, deliver_cons,
    @parse_diverged (init false) front rfl rfl (by rwa [show (init false).headBuffer = [] from rfl])]
  exact congrArg _ (deliver_settled rfl)

theorem bare_of_adaptive (closer : thinkEnd <+: lstrip text)
    (single : stream false [text] = (init false).detectAndParse text) :
    ¬thinkStart <:+: afterHead text := by
  intro present
  obtain ⟨⟨pre, body⟩, opener⟩ := cut_isSome.mpr present
  obtain ⟨rest, same, step⟩ := @parse_closer (init false) text rfl rfl rfl closer
  have isRest : afterHead text = rest := by
    unfold afterHead
    rw [if_pos (List.isPrefixOf_iff_prefix.mpr closer)]
    change lstrip text = _ at same
    rw [same]
    exact drop_left
  rw [isRest] at opener
  have nonempty : rest ≠ [] := by
    rintro rfl
    cases opener
  have based : stream false [text] =
      deliver BaseReasoningParser.parseStreamingIncrement BaseReasoningParser.flush (init false).base
        [rest] := by
    unfold stream
    rw [deliver_cons, deliver_cons, step, if_neg nonempty]
    exact congrArg _ (deliver_settled rfl)
  rw [based, @deliver_opened (init false).base [] rest pre body rfl opener,
    detectAndParse_bare closer, isRest] at single
  obtain ⟨lost, kept⟩ := @size_block (pre ++ body) (init false).base.opened rfl rfl rfl rfl
    (.inl rfl)
  have total := congrArg length (cut_eq_some.mp opener).1
  have sizes : thinkStart.length = 10 := by decide
  rw [single] at lost kept
  simp only [size, length_append, length_nil] at lost kept total
  by_cases closer' : thinkEnd <:+: pre ++ body
  · have few := lost closer'
    omega
  · have few := kept closer'
    omega

theorem block_of_adaptive (unclosed : ¬thinkEnd <+: lstrip text)
    (opener : cut thinkStart text = some ([], body))
    (all : ∀ chunks : List (List Char), chunks.flatten = text →
      stream false chunks = (init false).detectAndParse text) : BlockExact body := by
  have isText : text = thinkStart ++ body := (cut_eq_some.mp opener).1
  have oneShot : (init false).detectAndParse text = miniMaxM3Format.split body := by
    rw [detectAndParse_adaptive unclosed, opener]
    dsimp only
    split
    · rfl
    · rfl
  refine @blockExact_of_deliver body (init false).base.opened rfl rfl rfl (.inl rfl)
    fun chunks whole => ?_
  have delivered := all (thinkStart :: chunks) (by rw [flatten_cons, whole, isText])
  have alone : cut thinkStart thinkStart = some ([], []) := by decide
  have nothing : (init false).base.opened.parseStreamingIncrement [] =
      ({}, (init false).base.opened) := rfl
  rw [stream_diverged (by unfold Diverged; decide), oneShot,
    @deliver_opened (init false).base chunks thinkStart [] [] rfl alone, List.append_nil,
    deliver_cons, nothing] at delivered
  exact delivered

theorem deliver_apart {held : List Char} {final : List Char} {front pending : List Char}
    (diverged : Diverged (front ++ held)) (alone : safe markers (front ++ held) = front)
    (absent : ¬thinkStart <:+: front ++ held)
    (opener : cut thinkStart (held ++ final) = some (pending, body)) :
    stream false [front ++ held, final] = ⟨[], front⟩ ++
      deliver BaseReasoningParser.parseStreamingIncrement BaseReasoningParser.flush
        (init false).base.opened [pending ++ body] := by
  have kept : Markers.held markers (front ++ held) = held := by
    have whole := safe_append_held markers (front ++ held)
    rw [alone] at whole
    exact append_cancel_left whole
  rw [stream_diverged diverged, @deliver_silent (init false).base [final] (front ++ held) rfl
    (.inr absent)]
  have tracked : (init false).base.trackedTokens = markers := rfl
  rw [tracked, show (init false).base.buffer = [] from rfl, List.nil_append, alone, kept]
  rw [@deliver_opened { (init false).base with buffer := held } [] final pending body rfl opener]
  rfl

theorem diverged_of_part {front part : List Char} (unclosed : ¬thinkEnd <+: lstrip text)
    (isFront : front <+: text) (within : part <:+: front) (starts : lstrip part = part)
    (solid : ¬Blank part) (other : ¬part <:+: thinkEnd) : Diverged front := by
  have here := infix_lstrip starts solid within
  refine ⟨fun none => ?_, fun closer => unclosed (closer.trans (lstrip_mono isFront)), fun shorter =>
    other (here.trans shorter.isInfix)⟩
  rw [none] at here
  rw [eq_nil_of_infix_nil here] at solid
  exact solid nofun

theorem safe_dropLast {marker : List Char} (front : List Char) (mem : marker ∈ markers)
    (alone : ∀ other ∈ markers, ∀ begins ∈ other.inits, marker.dropLast <:+ begins →
      begins = marker.dropLast ∨ begins = other) :
    safe markers (front ++ marker.dropLast) = front := by
  have pos := (markers_length mem).1
  refine safe_eq mem (List.dropLast_prefix _) (by rw [length_dropLast]; omega) ?_
  intro other isOther gap nonempty _ begins
  rcases alone other isOther _ ((mem_inits _ _).mpr begins) (suffix_append _ _) with
    same | same
  · exact absurd (append_left_eq_self.mp same) nonempty
  · rw [same]

theorem absent_before {front : List Char} (opener : cut thinkStart text = some (pre, body))
    (isFront : front <+: text) (proper : front.length < (pre ++ thinkStart).length) :
    ¬thinkStart <:+: front := by
  rintro ⟨prev, later, same⟩
  have occurs : prev ++ thinkStart <+: text := (IsPrefix.trans ⟨later, same⟩ isFront)
  have low := (cut_eq_some.mp opener).2 prev occurs
  have total := congrArg length same
  simp only [length_append] at total proper
  omega

theorem closer_of_commute {reasoning : List Char} (nonempty : pre ≠ [])
    (commute : pre ++ (reasoning ++ thinkEnd) = reasoning ++ thinkEnd ++ pre) :
    thinkEnd <:+: pre := by
  have ends : thinkEnd <:+ reasoning ++ (thinkEnd ++ pre) := by
    rw [← List.append_assoc, ← commute]
    exact (suffix_append _ _).trans (suffix_append _ _)
  rcases Nat.le_total thinkEnd.length pre.length with long | short
  · have inner : thinkEnd <:+ thinkEnd ++ pre := suffix_of_suffix_length_le ends
      (suffix_append _ _) (by rw [length_append]; exact Nat.le_add_right _ _)
    exact (suffix_of_suffix_length_le inner (suffix_append _ _) long).isInfix
  · have unbordered : ∀ part ∈ thinkEnd.inits, part <:+ thinkEnd → part = [] ∨ part = thinkEnd := by
      decide
    obtain ⟨shift, same⟩ : thinkEnd <:+ thinkEnd ++ pre := suffix_of_suffix_length_le ends
      (suffix_append _ _) (by rw [length_append]; exact Nat.le_add_right _ _)
    have sizes := congrArg length same
    rw [length_append, length_append] at sizes
    obtain ⟨part, isShift⟩ : shift <+: thinkEnd := prefix_of_prefix_length_le
      (prefix_append shift thinkEnd) (by rw [same]; exact prefix_append _ _) (by omega)
    have split : part ++ pre = thinkEnd := by
      rw [← isShift, List.append_assoc, append_cancel_left_eq, isShift] at same
      exact same.symm
    rcases unbordered part ((mem_inits _ _).mpr ⟨pre, split⟩) ⟨shift, isShift⟩ with
      none | whole
    · rw [none, List.nil_append] at split
      rw [split]
    · rw [whole] at split
      exact absurd (append_right_eq_self.mp split) nonempty

theorem tool_of_front {rest : List Char} (nonempty : pre ≠ [])
    (starts : toolStart <+: pre ++ (toolStart ++ rest)) : toolStart <+: pre := by
  rcases prefix_or_prefix_of_prefix starts (prefix_append pre _) with isFront | shorter
  · exact isFront
  · obtain ⟨part, split⟩ := shorter
    have unbordered : ∀ part ∈ toolStart.inits, part <:+ toolStart → part = [] ∨ part = toolStart := by
      decide
    have begins : part <+: toolStart := by
      conv at starts => arg 1; rw [← split]
      rw [prefix_append_right_inj] at starts
      refine prefix_of_prefix_length_le starts (prefix_append _ _) ?_
      rw [← split, length_append]
      exact Nat.le_add_left _ _
    rcases unbordered part ((mem_inits _ _).mpr begins) ⟨pre, split⟩ with none | whole
    · rw [none, List.append_nil] at split
      rw [split]
    · rw [whole] at split
      exact absurd (append_left_eq_self.mp split) nonempty

theorem content_before (unclosed : ¬thinkEnd <+: lstrip text)
    (opener : cut thinkStart text = some (pre, body))
    (all : ∀ chunks : List (List Char), chunks.flatten = text →
      stream false chunks = (init false).detectAndParse text) :
    (init false).detectAndParse text = ⟨[], pre⟩ ++
      deliver BaseReasoningParser.parseStreamingIncrement BaseReasoningParser.flush
        (init false).base.opened [body] := by
  have isText := (cut_eq_some.mp opener).1
  have whole : thinkStart.dropLast ++ ['>'] = thinkStart := by decide
  have split : pre ++ thinkStart.dropLast ++ (['>'] ++ body) = text := by
    rw [isText]
    conv_rhs => rw [← whole]
    simp only [List.append_assoc]
  have isFront : pre ++ thinkStart.dropLast <+: text := ⟨_, split⟩
  have complete : cut thinkStart (thinkStart.dropLast ++ (['>'] ++ body)) = some ([], body) := by
    rw [← List.append_assoc, whole]
    exact cut_of_prefix _ _
  have delivered := deliver_apart
    (diverged_of_part unclosed isFront (suffix_append _ _).isInfix (by decide) (by decide)
      (by decide))
    (safe_dropLast pre (by decide) (by decide))
    (absent_before opener isFront (by
      simp only [length_append, length_dropLast]
      have pos : 0 < thinkStart.length := by decide
      omega)) complete
  rw [List.nil_append] at delivered
  rw [← delivered]
  exact (all _ (by simpa using split)).symm

/-- A block with a closer after some text: **one of three chunkings differs**. -/
theorem before_of_closed {reasoning rest : List Char} (unclosed : ¬thinkEnd <+: lstrip text)
    (opener : cut thinkStart text = some (pre, body))
    (closer : cut thinkEnd body = some (reasoning, rest)) (nonempty : pre ≠ [])
    (oneShot : (init false).detectAndParse text = ⟨reasoning, pre ++ rest⟩)
    (all : ∀ chunks : List (List Char), chunks.flatten = text →
      stream false chunks = (init false).detectAndParse text) : False := by
  have isText := (cut_eq_some.mp opener).1
  have isBody := (cut_eq_some.mp closer).1
  have whole : thinkEnd.dropLast ++ ['>'] = thinkEnd := by decide
  -- in one chunk, what comes before the opener counts as part of the block
  have single := all [text] flatten_singleton
  have diverged : Diverged text := diverged_of_part unclosed prefix_rfl
    (cut_isSome.mp ⟨_, opener⟩) (by decide) (by decide) (by decide)
  rw [stream_diverged diverged, @deliver_opened (init false).base [] text pre body rfl opener,
    oneShot] at single
  have present : thinkEnd <:+: pre ++ body :=
    (cut_isSome.mp ⟨_, closer⟩).trans (suffix_append _ _).isInfix
  obtain ⟨⟨reasoning', rest'⟩, closer'⟩ := cut_isSome.mpr present
  rw [deliver_closed rfl rfl rfl (.inl rfl) closer'] at single
  obtain ⟨trimmed, isRest⟩ := ReasoningParseResult.mk.inj single
  have isJoin := (cut_eq_some.mp closer').1
  have same : reasoning' = reasoning := by
    have prefix_ := rdropWhile_prefix isSpace reasoning'
    change rstrip reasoning' <+: reasoning' at prefix_
    rw [trimmed] at prefix_
    refine (prefix_.eq_of_length ?_).symm
    have sizes := congrArg length isJoin
    rw [isRest, isBody] at sizes
    simp only [length_append] at sizes
    omega
  subst same
  have commute : pre ++ (reasoning' ++ thinkEnd) = reasoning' ++ thinkEnd ++ pre := by
    rw [isRest, isBody] at isJoin
    have joined : pre ++ (reasoning' ++ thinkEnd) ++ rest =
        reasoning' ++ thinkEnd ++ pre ++ rest := by
      simpa only [List.append_assoc] using isJoin
    exact append_cancel_right joined
  -- the text before the opener has the closer that ends the block
  obtain ⟨⟨reasoning'', gap⟩, within⟩ := cut_isSome.mpr (closer_of_commute nonempty commute)
  have grown : cut thinkEnd (pre ++ body) = some (reasoning'', gap ++ body) := cut_append within
  rw [closer'] at grown
  obtain rfl := (Prod.mk.inj (some.inj grown)).1
  have isBefore := (cut_eq_some.mp within).1
  have solid : ¬Blank reasoning' := fun blank => unclosed (by
    rw [isText, isBefore, List.append_assoc, List.append_assoc, lstrip_append_of_blank blank,
      lstrip_append (by decide)]
    exact prefix_append _ _)
  -- it arrives without its last character, and the rest in one chunk
  have split : reasoning' ++ thinkEnd.dropLast ++ (['>'] ++ (gap ++ (thinkStart ++ body))) = text := by
    rw [isText, isBefore]
    conv_rhs => rw [← whole]
    simp only [List.append_assoc]
  have isFront : reasoning' ++ thinkEnd.dropLast <+: text := ⟨_, split⟩
  have complete : cut thinkStart (thinkEnd.dropLast ++ (['>'] ++ (gap ++ (thinkStart ++ body)))) =
      some (thinkEnd ++ gap, body) :=
    cut_behind (by rw [← List.append_assoc, split, opener, isBefore])
  have headed : Diverged (reasoning' ++ thinkEnd.dropLast) := by
    have nonempty' : lstrip reasoning' ≠ [] := fun none => solid (lstrip_eq_nil.mp none)
    refine ⟨?_, fun closes => unclosed (closes.trans (lstrip_mono isFront)), fun shorter => ?_⟩
    · rw [lstrip_append solid]
      exact fun none => nonempty' (append_eq_nil_iff.mp none).1
    · rw [lstrip_append solid] at shorter
      obtain ⟨more, same⟩ := shorter
      have sizes := congrArg length same
      have pos := length_pos_of_ne_nil nonempty'
      have closerSize : thinkEnd.length = 11 ∧ thinkEnd.dropLast.length = 10 := by decide
      simp only [length_append] at sizes
      obtain ⟨c, isSingle⟩ : ∃ c, lstrip reasoning' = [c] := length_eq_one_iff.mp (by omega)
      have noMore : more = [] := eq_nil_of_length_eq_zero (by omega)
      rw [isSingle, noMore, List.append_nil, singleton_append] at same
      have shifted : thinkEnd.tail = thinkEnd.dropLast := by
        conv_lhs => rw [← same]
        rfl
      revert shifted
      decide
  have delivered := deliver_apart headed (safe_dropLast reasoning' (by decide) (by decide))
    (absent_before opener isFront (by
      rw [isBefore]
      simp only [length_append, length_dropLast]
      have pos : 0 < thinkEnd.length := by decide
      omega)) complete
  rw [deliver_closed rfl rfl rfl (.inl rfl) (by
    rw [List.append_assoc]
    exact cut_of_prefix thinkEnd (gap ++ body)), all _ (by simpa using split), oneShot] at delivered
  have none : reasoning' = [] := congrArg ReasoningParseResult.reasoningText delivered
  rw [none] at solid
  exact solid nofun

theorem tools_split (text : List Char) : ∃ count rest, text = tools count ++ rest ∧
    ¬toolStart <+: rest := by
  induction size : text.length using Nat.strong_induction_on generalizing text with
  | h size ih =>
    by_cases starts : toolStart <+: text
    · obtain ⟨rest, rfl⟩ := starts
      have pos : 0 < toolStart.length := by decide
      obtain ⟨count, rest', isRest, other⟩ := ih rest.length (by
        rw [← size, length_append]
        omega) rest rfl
      refine ⟨1 + count, rest', ?_, other⟩
      rw [tools_add, List.append_assoc, ← isRest]
      rfl
    · exact ⟨0, text, rfl, starts⟩

/-- **A tool block without a closer after some text**: the text is tool markers. -/
theorem before_of_open {reasoning block : List Char} (unclosed : ¬thinkEnd <+: lstrip text)
    (opener : cut thinkStart text = some (pre, body)) (open_ : ¬thinkEnd <:+: body)
    (tool : miniMaxM3Format.toolCut body = some (reasoning, block)) (nonempty : pre ≠ [])
    (oneShot : (init false).detectAndParse text = ⟨reasoning, pre ++ block⟩)
    (all : ∀ chunks : List (List Char), chunks.flatten = text →
      stream false chunks = (init false).detectAndParse text) :
    (∃ count, pre = tools count) ∧ toolStart <+: body := by
  have isText := (cut_eq_some.mp opener).1
  obtain ⟨_, after, isTool, found, rfl⟩ := ReasoningFormat.toolCut_eq_some.mp tool
  cases isTool
  have isBody : body = reasoning ++ (toolStart ++ after) := (cut_eq_some.mp found).1
  -- what a block delivers in one chunk when it delivers all of the text
  have whole : ∀ front rest, front ++ rest = pre →
      ⟨[], front⟩ ++ deliver BaseReasoningParser.parseStreamingIncrement BaseReasoningParser.flush
        (init false).base.opened [rest ++ body] =
          (⟨reasoning, pre ++ (toolStart ++ after)⟩ : ReasoningParseResult) →
      ∃ block, cut toolStart (rest ++ body) = some (reasoning, block) ∧
        pre ++ (toolStart ++ after) = front ++ (toolStart ++ block) := by
    intro front rest split delivered
    obtain ⟨lost, kept⟩ := @size_block (rest ++ body) (init false).base.opened rfl rfl rfl rfl
      (.inl rfl)
    have total := congrArg size delivered
    have pos : 0 < thinkEnd.length := by decide
    have uncut : ¬thinkEnd <:+: rest ++ body := fun closer => by
      have few := lost closer
      have isBefore := congrArg length split
      have sizes := congrArg length isBody
      simp only [size, reasoningText_append, normalText_append, length_append,
        length_nil] at total few isBefore sizes
      omega
    rw [deliver_block (rest ++ body) rfl rfl rfl rfl (.inl rfl) (blockExact_of_unclosed uncut)
      flatten_singleton] at delivered
    have closer : cut miniMaxM3Format.thinkEndToken (rest ++ body) = none := cut_eq_none.mpr uncut
    have present : toolStart <:+: rest ++ body :=
      (cut_isSome.mp ⟨_, found⟩).trans (suffix_append _ _).isInfix
    obtain ⟨⟨reasoning', block⟩, found'⟩ := cut_isSome.mpr present
    have tool' : miniMaxM3Format.toolCut (rest ++ body) = some (reasoning', toolStart ++ block) :=
      ReasoningFormat.toolCut_eq_some.mpr ⟨toolStart, block, rfl, found', rfl⟩
    unfold ReasoningFormat.split at delivered
    rw [closer] at delivered
    rw [tool'] at delivered
    obtain ⟨same, content⟩ := ReasoningParseResult.mk.inj delivered
    obtain rfl : reasoning' = reasoning := same
    exact ⟨block, found', content.symm⟩
  have single := all [text] flatten_singleton
  rw [stream_diverged (diverged_of_part unclosed prefix_rfl (cut_isSome.mp ⟨_, opener⟩)
    (by decide) (by decide) (by decide)),
    @deliver_opened (init false).base [] text pre body rfl opener, oneShot] at single
  obtain ⟨block, first, joined⟩ := whole [] pre rfl single
  obtain ⟨rest, isBefore⟩ := tool_of_front nonempty ⟨block, joined.symm⟩
  have none : reasoning = [] := by
    rw [← isBefore, List.append_assoc, cut_of_prefix] at first
    exact (Prod.mk.inj (some.inj first)).1.symm
  subst none
  rw [List.nil_append] at isBody
  refine ⟨?_, ⟨after, isBody.symm⟩⟩
  obtain ⟨count, left, split, other⟩ := tools_split pre
  by_cases done : left = []
  · exact ⟨count, by rw [split, done, List.append_nil]⟩
  · exfalso
    have isFront : tools count ++ [] <+: text := by
      rw [isText, split, List.append_nil, List.append_assoc]
      exact prefix_append _ _
    have starts : toolStart <:+: tools count ++ [] := by
      cases count with
      | zero =>
        rw [split] at isBefore
        exact absurd ⟨rest, isBefore⟩ other
      | succ count =>
        rw [tools_succ]
        exact ⟨tools count, [], by simp⟩
    have complete : cut thinkStart ([] ++ (left ++ (thinkStart ++ body))) = some (left, body) :=
      @cut_behind _ _ _ (tools count) _ _ _
        (by rw [List.nil_append, ← List.append_assoc, ← split, ← isText, opener])
    have alone : safe markers (tools count ++ []) = tools count :=
      @safe_eq _ [] toolStart (by decide) nil_prefix (by decide)
        fun marker isOther gap nonempty isSuffix begins =>
          tools_alone isOther nonempty isSuffix begins
    have delivered := deliver_apart (diverged_of_part unclosed isFront starts (by decide) (by decide)
      (by decide)) alone (absent_before opener isFront (by
        have pos : 0 < thinkStart.length := by decide
        rw [split]
        simp only [length_append, length_nil]
        omega)) complete
    rw [all _ (by rw [isText, split]; simp), oneShot] at delivered
    obtain ⟨block, first, -⟩ := whole (tools count) left split.symm delivered.symm
    have starts' : toolStart <+: left ++ (toolStart ++ after) := by
      rw [← isBody, (cut_eq_some.mp first).1]
      exact prefix_append _ _
    exact other (tool_of_front done starts')

theorem exact_of_adaptive (all : ∀ chunks : List (List Char), chunks.flatten = text →
    stream false chunks = (init false).detectAndParse text) : Exact false text := by
  unfold Exact
  rw [if_neg Bool.false_ne_true]
  split
  · next closer => exact bare_of_adaptive closer (all [text] flatten_singleton)
  · next unclosed =>
    intro pre body opener
    by_cases none : pre = []
    · subst none
      exact .inl ⟨rfl, block_of_adaptive unclosed opener all⟩
    · refine .inr ?_
      have parsed := detectAndParse_adaptive unclosed
      rw [opener] at parsed
      dsimp only at parsed
      cases closer : cut miniMaxM3Format.thinkEndToken body with
      | some parts =>
        obtain ⟨reasoning, rest⟩ := parts
        rw [if_pos (.inl (cut_isSome.mp ⟨_, closer⟩))] at parsed
        unfold ReasoningFormat.split at parsed
        rw [closer] at parsed
        exact (before_of_closed unclosed opener closer none parsed all).elim
      | none =>
        have open_ : ¬thinkEnd <:+: body := cut_eq_none.mp closer
        cases tool : miniMaxM3Format.toolCut body with
        | some parts =>
          obtain ⟨reasoning, block⟩ := parts
          obtain ⟨_, _, isTool, found, -⟩ := ReasoningFormat.toolCut_eq_some.mp tool
          cases isTool
          rw [if_pos (.inr (cut_isSome.mp ⟨_, found⟩))] at parsed
          unfold ReasoningFormat.split at parsed
          rw [closer] at parsed
          rw [tool] at parsed
          obtain ⟨isTools, starts⟩ := before_of_open unclosed opener open_ tool none parsed all
          exact ⟨isTools, starts, open_⟩
        | none =>
          -- the one-shot parse drops what comes before the opener
          have untold : ¬toolStart <:+: body :=
            ReasoningFormat.toolCut_eq_none.mp tool toolStart rfl
          rw [if_neg (not_or.mpr ⟨open_, untold⟩), content_before unclosed opener all,
            deliver_block body rfl rfl rfl rfl (.inl rfl) (blockExact_of_unclosed open_)
              flatten_singleton] at parsed
          have total := congrArg size parsed
          have pos := length_pos_of_ne_nil none
          simp only [size, reasoningText_append, normalText_append, length_append,
            length_nil] at total
          omega

/-- **MiniMax-M3's reasoning parser.** A text is delivered exactly as the one-shot parse says in every
chunking if and only if it is one of those described by `Exact`. -/
theorem stream_exact_iff (force : Bool) (text : List Char) :
    (∀ chunks : List (List Char), chunks.flatten = text →
      stream force chunks = (init force).detectAndParse text) ↔ Exact force text := by
  refine ⟨fun all => ?_, fun exactly chunks whole => stream_of_exact exactly whole⟩
  cases force with
  | true => exact exact_of_forced all
  | false => exact exact_of_adaptive all

/-- Whitespace before the closer, prose that shares a chunk with the opener, and an opener that is data:
in one chunk each is delivered otherwise. -/
theorem stream_not_exact :
    stream true ["a </mm:think>b".toList] ≠ (init true).detectAndParse "a </mm:think>b".toList ∧
      stream false ["a<mm:think>b</mm:think>c".toList] ≠
        (init false).detectAndParse "a<mm:think>b</mm:think>c".toList ∧
      stream true ["a<mm:think>b</mm:think>c".toList] ≠
        (init true).detectAndParse "a<mm:think>b</mm:think>c".toList ∧
      stream false ["a".toList, "<mm:think>b".toList] ≠
        (init false).detectAndParse "a<mm:think>b".toList := by
  decide

end Chunkings

end FreeToken.MiniMaxM3ReasoningParser
