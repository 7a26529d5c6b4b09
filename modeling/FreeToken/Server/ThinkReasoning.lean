/-
**A think block in a stream of chunks.**

The streaming parser decides on what its buffer happens to hold. `split` says what it should find: the
text before the first closer is reasoning, or before the first tool marker if no closer comes.

* `agrees_of_positional`: where the one-shot parse and the stream agree.
-/

import FreeToken.Server.ReasoningParser

namespace FreeToken

open Markers ReasoningParseResult Option
open List hiding append_assoc nil_append

namespace ReasoningFormat

def endings (format : ReasoningFormat) : List (List Char) :=
  format.thinkEndToken :: format.toolStartToken.toList

def split (format : ReasoningFormat) (text : List Char) : ReasoningParseResult :=
  match cut format.thinkEndToken text with
  | some (reasoning, rest) => ⟨reasoning, rest⟩
  | none =>
      match format.toolCut text with
      | some (pre, block) => ⟨pre, block⟩
      | none => ⟨text, []⟩

/-- A tool block that comes before the closer is short enough to be held until the closer has
come. -/
def HeldInFull (format : ReasoningFormat) (text : List Char) : Prop :=
  ∀ reasoning rest pre block, cut format.thinkEndToken text = some (reasoning, rest) →
    format.toolCut text = some (pre, block) → pre.length < reasoning.length →
      reasoning.length + format.thinkEndToken.length ≤ pre.length + toolHoldMax + 1

/-- The markers of a family can be told apart, and start and end with no whitespace. -/
structure Valid (format : ReasoningFormat) : Prop where
  apart : Separate format.endings
  nodup : format.endings.Nodup
  solid : ∀ marker ∈ format.endings, lstrip marker = marker ∧ rstrip marker = marker
  nonempty : ∀ marker ∈ format.thinkStartToken :: format.endings, marker ≠ []

theorem valid_deepSeekV32 : deepSeekV32Format.Valid := by constructor <;> decide

theorem valid_think : thinkFormat.Valid := by constructor <;> decide

theorem valid_gemmaThought : gemmaThoughtFormat.Valid := by constructor <;> decide

theorem valid_miniMaxM3 : miniMaxM3Format.Valid := by constructor <;> decide

section Split

variable {format : ReasoningFormat} {text more front rest pre after : List Char}

theorem toolCut_eq_some : format.toolCut text = some (pre, after) ↔
    ∃ tool rest, format.toolStartToken = some tool ∧ cut tool text = some (pre, rest) ∧
      after = tool ++ rest := by
  unfold toolCut
  cases format.toolStartToken with
  | none => simp
  | some tool =>
    simp only [bind_some, map_eq_some_iff, Prod.exists, Prod.mk.injEq, some.injEq]
    grind

theorem toolCut_split (found : format.toolCut text = some (pre, after)) : text = pre ++ after := by
  obtain ⟨tool, rest, -, found', rfl⟩ := toolCut_eq_some.mp found
  exact (cut_eq_some.mp found').1

theorem toolCut_eq_none : format.toolCut text = none ↔
    ∀ tool, format.toolStartToken = some tool → ¬tool <:+: text := by
  unfold toolCut
  cases format.toolStartToken with
  | none => simp
  | some tool => simp [cut_eq_none]

theorem toolCut_append (found : format.toolCut text = some (pre, after)) (more : List Char) :
    format.toolCut (text ++ more) = some (pre, after ++ more) := by
  obtain ⟨tool, rest, isTool, found', rfl⟩ := toolCut_eq_some.mp found
  exact toolCut_eq_some.mpr
    ⟨tool, rest ++ more, isTool, cut_append found', List.append_assoc _ _ _⟩

theorem mem_endings {marker : List Char} :
    marker ∈ format.endings ↔ marker = format.thinkEndToken ∨ format.toolStartToken = some marker := by
  unfold endings
  rw [mem_cons, mem_toList]

theorem Valid.not_blank (valid : format.Valid) {marker : List Char}
    (mem : marker ∈ format.endings) : ¬Blank marker := fun blank =>
  valid.nonempty marker (mem_cons_of_mem _ mem)
    ((valid.solid marker mem).1.symm.trans (lstrip_eq_nil.mpr blank))

theorem toolCut_skip (late : ∀ marker ∈ format.endings, ∀ prev,
    prev ++ marker <+: front ++ rest → front.length ≤ prev.length) :
    format.toolCut (front ++ rest) = (format.toolCut rest).map fun (pre, after) =>
      (front ++ pre, after) := by
  unfold toolCut
  cases isTool : format.toolStartToken with
  | none => rfl
  | some tool =>
    simp only [bind_some]
    rw [cut_skip (late tool (mem_endings.mpr (.inr isTool))), Option.map_map, Option.map_map]
    rfl

theorem split_skip (late : ∀ marker ∈ format.endings, ∀ prev,
    prev ++ marker <+: front ++ rest → front.length ≤ prev.length) :
    format.split (front ++ rest) = ⟨front, []⟩ ++ format.split rest := by
  unfold split
  rw [cut_skip (late format.thinkEndToken (mem_endings.mpr (.inl rfl))), toolCut_skip late]
  cases cut format.thinkEndToken rest with
  | some parts => rfl
  | none =>
    cases format.toolCut rest with
    | some parts => rfl
    | none =>
      rfl

theorem HeldInFull.skip (full : format.HeldInFull (front ++ rest))
    (late : ∀ marker ∈ format.endings, ∀ prev,
      prev ++ marker <+: front ++ rest → front.length ≤ prev.length) :
    format.HeldInFull rest := by
  intro reasoning after pre block closer tool sooner
  have low := full (front ++ reasoning) after (front ++ pre) block
    (by rw [cut_skip (late format.thinkEndToken (mem_endings.mpr (.inl rfl))), closer]; rfl)
    (by rw [toolCut_skip late, tool]; rfl)
    (by simp only [length_append]; omega)
  simp only [length_append] at low
  omega

theorem Valid.tool_lt_closer (valid : format.Valid) (unclosed : ¬format.thinkEndToken <:+: text)
    (tool : format.toolCut text = some (pre, after)) {prev : List Char}
    (occurs : prev ++ format.thinkEndToken <+: text ++ more) :
    pre.length < prev.length := by
  obtain ⟨token, rest, isTool, found, rfl⟩ := toolCut_eq_some.mp tool
  by_contra sooner
  have here : pre ++ token <+: text ++ more := by
    rw [(cut_eq_some.mp found).1]
    exact ⟨rest ++ more, by simp only [List.append_assoc]⟩
  have long : text.length < (prev ++ format.thinkEndToken).length := by
    by_contra inside
    have within := prefix_of_prefix_length_le occurs (prefix_append _ _)
      (not_lt.mp inside)
    exact unclosed ((suffix_append _ _).isInfix.trans within.isInfix)
  have size := congrArg length (cut_eq_some.mp found).1
  simp only [length_append] at long size
  have same := valid.apart token (mem_endings.mpr (.inr isTool)) _ (mem_endings.mpr (.inl rfl))
    (infix_of_cover here occurs (by omega) (by omega))
  -- the two markers differ
  have nodup := valid.nodup
  unfold endings at nodup
  rw [isTool, same] at nodup
  simp at nodup

theorem Valid.late_of_tool (valid : format.Valid) (unclosed : ¬format.thinkEndToken <:+: text)
    (tool : format.toolCut text = some (pre, after)) {marker prev : List Char}
    (mem : marker ∈ format.endings) (occurs : prev ++ marker <+: text ++ more) :
    pre.length ≤ prev.length := by
  obtain ⟨token, rest, isTool, found, rfl⟩ := toolCut_eq_some.mp tool
  rcases mem_endings.mp mem with rfl | same
  · exact (valid.tool_lt_closer unclosed tool occurs).le
  · rw [isTool] at same
    obtain rfl := some.inj same
    have grown : cut token (text ++ more) = some (pre, rest ++ more) := cut_append found
    exact (cut_eq_some.mp grown).2 prev occurs

end Split

end ReasoningFormat

namespace BaseReasoningParser

variable {self : BaseReasoningParser} {chunks : List (List Char)} {currentText : List Char}

theorem stripThinkStart_of_absent (absent : self.strippedThinkStart = true ∨
    ¬self.format.thinkStartToken <:+: currentText) :
    self.stripThinkStart currentText = (self, currentText) := by
  unfold stripThinkStart
  cases stripped : self.strippedThinkStart with
  | true => simp
  | false =>
    rw [stripped] at absent
    have none := cut_eq_none.mpr (absent.resolve_left Bool.false_ne_true)
    simp only [Bool.false_eq_true, if_false, none]

theorem parseCurrent_of_content (outside : self.inReasoning = false) :
    self.parseCurrent currentText = (⟨[], safe self.trackedTokens currentText⟩,
      { self with buffer := held self.trackedTokens currentText }) := by
  unfold parseCurrent
  simp only [outside, Bool.false_eq_true, if_false]

theorem deliver_silent {chunk : List Char} (outside : self.inReasoning = false)
    (absent : self.strippedThinkStart = true ∨
      ¬self.format.thinkStartToken <:+: self.buffer ++ chunk) :
    deliver parseStreamingIncrement flush self (chunk :: chunks) =
      ⟨[], safe self.trackedTokens (self.buffer ++ chunk)⟩ ++ deliver parseStreamingIncrement flush
          { self with buffer := held self.trackedTokens (self.buffer ++ chunk) } chunks := by
  have step : self.parseStreamingIncrement chunk =
      (⟨[], safe self.trackedTokens (self.buffer ++ chunk)⟩,
        { self with buffer := held self.trackedTokens (self.buffer ++ chunk) }) := by
    unfold parseStreamingIncrement
    rw [stripThinkStart_of_absent absent]
    exact parseCurrent_of_content outside
  rw [deliver_cons, step]

/-- Past the think block everything is content. -/
theorem deliver_content (outside : self.inReasoning = false)
    (absent : self.strippedThinkStart = true ∨
      ¬self.format.thinkStartToken <:+: self.buffer ++ chunks.flatten) :
    deliver parseStreamingIncrement flush self chunks = ⟨[], self.buffer ++ chunks.flatten⟩ := by
  induction chunks generalizing self with
  | nil =>
    show flush self = _
    unfold flush
    rw [outside]
    simp
  | cons chunk chunks ih =>
    rw [flatten_cons, ← List.append_assoc] at absent ⊢
    have now : self.strippedThinkStart = true ∨
        ¬self.format.thinkStartToken <:+: self.buffer ++ chunk :=
      absent.imp_right fun absent here => absent (here.trans (prefix_append _ _).isInfix)
    have whole := safe_append_held self.trackedTokens (self.buffer ++ chunk)
    rw [← whole, List.append_assoc] at absent
    have rest := @ih { self with buffer := held self.trackedTokens (self.buffer ++ chunk) } outside
      (absent.imp_right fun absent here => absent (here.trans (suffix_append _ _).isInfix))
    rw [deliver_silent outside now, rest, mk_append, List.nil_append, ← List.append_assoc, whole]

def Splits (format : ReasoningFormat) (text : List Char) (delivered : ReasoningParseResult) : Prop :=
  ∃ blank, Blank blank ∧ (¬format.thinkEndToken <:+: text → blank = []) ∧
    format.split text = ⟨delivered.reasoningText ++ blank, delivered.normalText⟩

theorem splits_of_closer {pre after : List Char}
    (closer : cut self.format.thinkEndToken currentText = some (pre, after)) :
    Splits self.format currentText ⟨rstrip pre, after⟩ := by
  obtain ⟨blank, isBlank, split⟩ := rstrip_split pre
  refine ⟨blank, isBlank, fun absent => ?_, ?_⟩
  · exact absurd (cut_isSome.mp ⟨_, closer⟩) absent
  · unfold ReasoningFormat.split
    rw [closer]
    rw [← split]

theorem Splits.skip {front rest : List Char} {delivered : ReasoningParseResult}
    (splits : Splits self.format rest delivered)
    (late : ∀ marker ∈ self.format.endings, ∀ prev,
      prev ++ marker <+: front ++ rest → front.length ≤ prev.length) :
    Splits self.format (front ++ rest) (⟨front, []⟩ ++ delivered) := by
  obtain ⟨blank, isBlank, exactly, split⟩ := splits
  refine ⟨blank, isBlank, fun absent => exactly fun here => absent ?_, ?_⟩
  · exact here.trans (suffix_append _ _).isInfix
  · rw [ReasoningFormat.split_skip late, split]
    show (⟨_, _⟩ : ReasoningParseResult) = ⟨_, _⟩
    simp

theorem tracked_of_ending {marker : List Char} (mem : marker ∈ self.format.endings) :
    marker ∈ self.trackedTokens := by
  rcases ReasoningFormat.mem_endings.mp mem with rfl | isTool
  · exact mem_cons_self
  · refine mem_cons_of_mem _ (mem_append_right _ ?_)
    rw [mem_toList]
    exact isTool

/-- Inside it **the stream delivers what `split` finds**, up to whitespace before the closer, if a
tool block before the closer is short enough to be held until the closer comes. -/
theorem deliver_reasoning (valid : self.format.Valid) (inside : self.inReasoning = true)
    (streams : self.streamReasoning = true)
    (absent : self.strippedThinkStart = true ∨
      ¬self.format.thinkStartToken <:+: self.buffer ++ chunks.flatten)
    (unclosed : ¬self.format.thinkEndToken <:+: self.buffer)
    (starts : ∀ tool, self.format.toolStartToken = some tool →
      tool <:+: self.buffer → tool <+: self.buffer)
    (full : self.format.HeldInFull (self.buffer ++ chunks.flatten)) :
    Splits self.format (self.buffer ++ chunks.flatten)
      (deliver parseStreamingIncrement flush self chunks) := by
  induction chunks generalizing self with
  | nil =>
    rw [flatten_nil, List.append_nil]
    have closer := cut_eq_none.mpr unclosed
    show Splits self.format self.buffer self.flush
    refine ⟨[], nofun, fun _ => rfl, ?_⟩
    unfold flush ReasoningFormat.split
    rw [closer, inside]
    cases isTool : self.format.toolStartToken with
    | none =>
      rw [ReasoningFormat.toolCut_eq_none.mpr (fun _ same => by rw [isTool] at same; cases same)]
      simp
    | some tool =>
      have isEnding := ReasoningFormat.mem_endings.mpr (.inr isTool)
      by_cases here : tool <:+: self.buffer
      · obtain ⟨rest, isBuffer⟩ := starts tool isTool here
        have found : self.format.toolCut self.buffer = some ([], self.buffer) :=
          ReasoningFormat.toolCut_eq_some.mpr
            ⟨tool, rest, isTool, by rw [← isBuffer]; exact cut_of_prefix tool rest, isBuffer.symm⟩
        have stripped : tool.isPrefixOf (lstrip self.buffer) := by
          rw [← isBuffer, lstrip_append (valid.not_blank isEnding), (valid.solid tool isEnding).1]
          exact isPrefixOf_iff_prefix.mpr (prefix_append _ _)
        rw [found]
        simp [stripped]
      · have found : self.format.toolCut self.buffer = none :=
          ReasoningFormat.toolCut_eq_none.mpr fun other isOther => by
            rw [isTool] at isOther
            cases isOther
            exact here
        have unstripped : ¬tool.isPrefixOf (lstrip self.buffer) := fun isPrefix => by
          have within := (List.isPrefixOf_iff_prefix.mp isPrefix).isInfix
          exact here (within.trans (dropWhile_suffix _).isInfix)
        rw [found]
        simp [unstripped]
  | cons chunk chunks ih =>
    rw [flatten_cons, ← List.append_assoc] at absent full ⊢
    have now : self.strippedThinkStart = true ∨
        ¬self.format.thinkStartToken <:+: self.buffer ++ chunk :=
      absent.imp_right fun absent here => absent (here.trans (prefix_append _ _).isInfix)
    have step : self.parseStreamingIncrement chunk = self.parseCurrent (self.buffer ++ chunk) := by
      unfold parseStreamingIncrement
      rw [stripThinkStart_of_absent now]
    rw [deliver_cons, step]
    unfold parseCurrent
    simp only [inside, if_true]
    generalize self.buffer ++ chunk = current at *
    have later : ∀ {text}, text <:+ current ++ chunks.flatten → self.strippedThinkStart = true ∨
        ¬self.format.thinkStartToken <:+: text := fun isSuffix =>
      absent.imp_right fun absent here => absent (here.trans isSuffix.isInfix)
    cases closer : cut self.format.thinkEndToken current with
    | some parts =>
      obtain ⟨pre, after⟩ := parts
      have rest := @deliver_content { self with buffer := [], inReasoning := false } chunks rfl
        (later (suffix_append _ _))
      rw [rest, mk_append, List.append_nil]
      exact splits_of_closer (cut_append closer)
    | none =>
      have open_ := cut_eq_none.mp closer
      cases tool : self.format.toolCut current with
      | some parts =>
        obtain ⟨pre, block⟩ := parts
        have size := ReasoningFormat.toolCut_split tool
        have late : ∀ marker ∈ self.format.endings, ∀ prev,
            prev ++ marker <+: pre ++ (block ++ chunks.flatten) → pre.length ≤ prev.length := by
          rw [← List.append_assoc, ← size]
          exact fun marker mem prev occurs => valid.late_of_tool open_ tool mem occurs
        dsimp only
        split
        · next long =>
          -- the block is too long to be held; no closer can come
          have rest := @deliver_content { self with buffer := [], inReasoning := false } chunks rfl
            (later (suffix_append _ _))
          rw [rest, mk_append, List.append_nil]
          refine ⟨[], nofun, fun _ => rfl, ?_⟩
          have tool' := ReasoningFormat.toolCut_append tool chunks.flatten
          unfold ReasoningFormat.split
          cases closed : cut self.format.thinkEndToken (current ++ chunks.flatten) with
          | none =>
            rw [tool', List.append_nil]
            rfl
          | some parts =>
            obtain ⟨reasoning, after⟩ := parts
            obtain ⟨isText, first⟩ := cut_eq_some.mp closed
            have occurs : reasoning ++ self.format.thinkEndToken <+: current ++ chunks.flatten :=
              ⟨after, by rw [isText, List.append_assoc]⟩
            have beyond : current.length < (reasoning ++ self.format.thinkEndToken).length := by
              by_contra within
              have here := prefix_of_prefix_length_le occurs (prefix_append _ _)
                (not_lt.mp within)
              exact open_ ((suffix_append _ _).isInfix.trans here.isInfix)
            have short := full _ _ _ _ closed tool' (valid.tool_lt_closer open_ tool occurs)
            rw [size, length_append, length_append] at beyond
            omega
        · have rest := @ih { self with buffer := block, inReasoning := true } valid rfl streams
            (later ⟨pre, by rw [size, List.append_assoc]⟩) (fun here => open_ ?_) ?_ ?_
          · rw [size, List.append_assoc]
            exact rest.skip late
          · rw [size]
            exact here.trans (suffix_append _ _).isInfix
          · intro token isTool _
            obtain ⟨token', rest, isTool', -, rfl⟩ := ReasoningFormat.toolCut_eq_some.mp tool
            rw [isTool] at isTool'
            obtain rfl := some.inj isTool'
            exact prefix_append _ _
          · rw [size, List.append_assoc] at full
            exact full.skip late
      | none =>
        simp only [streams, if_true]
        have whole := safe_append_held self.trackedTokens current
        have late : ∀ marker ∈ self.format.endings, ∀ prev,
            prev ++ marker <+: safe self.trackedTokens current ++
              (held self.trackedTokens current ++ chunks.flatten) →
              (safe self.trackedTokens current).length ≤ prev.length := by
          rw [← List.append_assoc, whole]
          intro marker mem prev occurs
          refine safe_le_cut (tracked_of_ending mem) occurs ?_
          rcases ReasoningFormat.mem_endings.mp mem with rfl | isTool
          · exact open_
          · exact ReasoningFormat.toolCut_eq_none.mp tool marker isTool
        have inHeld : ∀ {marker}, marker <:+: held self.trackedTokens current →
            marker <:+: current := fun here => here.trans (drop_suffix _ _).isInfix
        have rest := @ih { self with
          buffer := held self.trackedTokens current
          inReasoning := true
          streamReasoning := true } valid rfl rfl
          (later ⟨safe self.trackedTokens current, by rw [← List.append_assoc, whole]⟩)
          (fun here => open_ (inHeld here))
          (fun tool' isTool here =>
            absurd (inHeld here) (ReasoningFormat.toolCut_eq_none.mp tool tool' isTool)) ?_
        · conv => arg 2; rw [← whole, List.append_assoc]
          exact rest.skip late
        · rw [← whole, List.append_assoc] at full
          exact full.skip late

def place (self : BaseReasoningParser) (text : List Char) : ReasoningParseResult :=
  if self.inReasoning then ⟨text, []⟩ else ⟨[], text⟩

theorem place_append (front back : List Char) :
    self.place (front ++ back) = self.place front ++ self.place back := by
  unfold place
  split <;> rfl

def opened (self : BaseReasoningParser) : BaseReasoningParser :=
  { self with
    inReasoning := true
    strippedThinkStart := true
    buffer := [] }

theorem parseCurrent_of_silent (streams : self.inReasoning = true → self.streamReasoning = true)
    (quiet : self.inReasoning = true → ∀ marker ∈ self.format.endings, ¬marker <:+: currentText) :
    self.parseCurrent currentText = (self.place (safe self.trackedTokens currentText),
      { self with buffer := held self.trackedTokens currentText }) := by
  cases inside : self.inReasoning with
  | false =>
    rw [parseCurrent_of_content inside]
    unfold place
    rw [inside]
    rfl
  | true =>
    have closer := cut_eq_none.mpr (quiet inside _ (ReasoningFormat.mem_endings.mpr (.inl rfl)))
    have tool := ReasoningFormat.toolCut_eq_none.mpr fun tool isTool =>
      quiet inside tool (ReasoningFormat.mem_endings.mpr (.inr isTool))
    unfold parseCurrent place
    simp only [inside, if_true, closer, tool, streams inside]

theorem deliver_opened {chunk pending after : List Char} (unstripped : self.strippedThinkStart = false)
    (here : cut self.format.thinkStartToken (self.buffer ++ chunk) = some (pending, after)) :
    deliver parseStreamingIncrement flush self (chunk :: chunks) =
      deliver parseStreamingIncrement flush self.opened ((pending ++ after) :: chunks) := by
  have step : self.parseStreamingIncrement chunk =
      self.opened.parseStreamingIncrement (pending ++ after) := by
    unfold parseStreamingIncrement
    rw [@stripThinkStart_of_absent self.opened _ (.inl rfl)]
    unfold stripThinkStart
    simp only [unstripped, Bool.false_eq_true, if_false, here]
    rfl
  rw [deliver_cons, deliver_cons, step]

/-- **Until the opener arrives** everything is delivered as it comes; what is still in the buffer
then counts as part of the block. `left` is what holds of the text that is left before the opener. -/
theorem deliver_opener {pre body : List Char} {left : List Char → Prop}
    (unstripped : self.strippedThinkStart = false)
    (found : cut self.format.thinkStartToken (self.buffer ++ chunks.flatten) = some (pre, body))
    (absent : ¬self.format.thinkStartToken <:+: self.buffer)
    (streams : self.inReasoning = true → self.streamReasoning = true)
    (quiet : self.inReasoning = true → ∀ marker ∈ self.format.endings,
      ¬marker <:+: pre ++ self.format.thinkStartToken)
    (start : left pre)
    (shrinks : ∀ rest front, left rest → front <+: rest ++ self.format.thinkStartToken →
      front.length < (rest ++ self.format.thinkStartToken).length →
        left (rest.drop (safe self.trackedTokens front).length)) :
    ∃ emitted pending chunks', pre = emitted ++ pending ∧ left pending ∧
      List.flatten chunks' = pending ++ body ∧
      deliver parseStreamingIncrement flush self chunks =
        self.place emitted ++ deliver parseStreamingIncrement flush self.opened chunks' := by
  induction chunks generalizing self pre with
  | nil =>
    rw [flatten_nil, List.append_nil] at found
    exact absurd (cut_isSome.mp ⟨_, found⟩) absent
  | cons chunk chunks ih =>
    rw [flatten_cons, ← List.append_assoc] at found
    cases here : cut self.format.thinkStartToken (self.buffer ++ chunk) with
    | some parts =>
      obtain ⟨pending, after⟩ := parts
      rw [cut_append here] at found
      obtain ⟨rfl, rfl⟩ := Prod.mk.inj (some.inj found)
      refine ⟨[], pending, (pending ++ after) :: chunks, rfl, start, ?_, ?_⟩
      · rw [flatten_cons, List.append_assoc]
      · have nothing : self.place [] = {} := by
          unfold place
          split <;> rfl
        rw [nothing, nil_append]
        exact deliver_opened unstripped here
    | none =>
      have missing := cut_eq_none.mp here
      have occurs : pre ++ self.format.thinkStartToken <+: self.buffer ++ chunk ++ chunks.flatten :=
        ⟨body, by rw [(cut_eq_some.mp found).1, List.append_assoc]⟩
      have isFront : self.buffer ++ chunk <+: pre ++ self.format.thinkStartToken := by
        rcases prefix_or_prefix_of_prefix (prefix_append _ chunks.flatten) occurs with
          front | back
        · exact front
        · exact absurd ((suffix_append _ _).isInfix.trans back.isInfix) missing
      have step : self.parseStreamingIncrement chunk =
          (self.place (safe self.trackedTokens (self.buffer ++ chunk)),
            { self with buffer := held self.trackedTokens (self.buffer ++ chunk) }) := by
        unfold parseStreamingIncrement
        rw [stripThinkStart_of_absent (.inr missing)]
        exact parseCurrent_of_silent streams fun inside marker mem within =>
          quiet inside marker mem (within.trans isFront.isInfix)
      have whole := safe_append_held self.trackedTokens (self.buffer ++ chunk)
      have tracked : self.format.thinkStartToken ∈ self.trackedTokens := by
        unfold trackedTokens
        rw [unstripped]
        exact mem_cons_of_mem _ (mem_append_left _ mem_cons_self)
      have proper : (self.buffer ++ chunk).length <
          (pre ++ self.format.thinkStartToken).length := by
        by_contra whole
        have same := isFront.eq_of_length_le (not_lt.mp whole)
        exact missing (by rw [same]; exact (suffix_append _ _).isInfix)
      have start' := shrinks pre (self.buffer ++ chunk) start isFront proper
      have late : ∀ prev, prev ++ self.format.thinkStartToken <+:
          safe self.trackedTokens (self.buffer ++ chunk) ++
            (held self.trackedTokens (self.buffer ++ chunk) ++ chunks.flatten) →
              (safe self.trackedTokens (self.buffer ++ chunk)).length ≤ prev.length := by
        rw [← List.append_assoc, whole]
        exact fun prev starts => safe_le_cut tracked starts missing
      generalize safe self.trackedTokens (self.buffer ++ chunk) = emitted at *
      generalize held self.trackedTokens (self.buffer ++ chunk) = rest at *
      rw [← whole, List.append_assoc, cut_skip late] at found
      obtain ⟨⟨before', body'⟩, found', same⟩ := map_eq_some_iff.mp found
      obtain ⟨rfl, rfl⟩ := Prod.mk.inj same
      rw [drop_left] at start'
      obtain ⟨emitted', pending, chunks', rfl, isLeft, isRest, delivers⟩ :=
        @ih { self with buffer := rest } before' unstripped found'
          (fun within => missing (by rw [← whole]; exact within.trans (suffix_append _ _).isInfix))
          streams (fun inside marker mem within => quiet inside marker mem (by
            rw [List.append_assoc]
            exact within.trans (suffix_append _ _).isInfix)) start' shrinks
      refine ⟨emitted ++ emitted', pending, chunks', (List.append_assoc _ _ _).symm, isLeft, isRest,
        ?_⟩
      rw [deliver_cons, step]
      rw [delivers, ← append_assoc, place_append]
      rfl

/-! ### Every text -/

theorem parseCurrent_accounted (self : BaseReasoningParser) (currentText : List Char) :
    let res := (self.parseCurrent currentText).1
    let next := (self.parseCurrent currentText).2
    next.format = self.format ∧ next.strippedThinkStart = self.strippedThinkStart ∧
      List.Sublist (res.reasoningText ++ next.buffer) currentText ∧
      List.Sublist (res.normalText ++ next.buffer) currentText ∧
      ∃ closers, ∀ c, isSpace c = false → res.reasoningText.count c + res.normalText.count c +
          closers * self.format.thinkEndToken.count c + next.buffer.count c =
            currentText.count c := by
  have whole := safe_append_held self.trackedTokens currentText
  have kept : ∀ c, (safe self.trackedTokens currentText).count c +
      (held self.trackedTokens currentText).count c = currentText.count c := fun c => by
    rw [← count_append, whole]
  unfold parseCurrent
  split
  · next pre after closer =>
    have found : cut self.format.thinkEndToken currentText = some (pre, after) := by
      split at closer
      · exact closer
      · cases closer
    obtain ⟨rfl, -⟩ := cut_eq_some.mp found
    have front : Sublist (rstrip pre) pre := (List.rdropWhile_prefix ..).sublist
    refine ⟨rfl, rfl, ?_, ?_, 1, fun c solid => ?_⟩
    · rw [List.append_nil]
      exact front.trans (sublist_append_left _ _)
    · rw [List.append_nil]
      exact (sublist_append_right _ _).trans (sublist_append_right _ _)
    · simp only [count_rstrip solid, count_append, count_nil]
      omega
  · split
    · next pre block tool =>
      have found : self.format.toolCut currentText = some (pre, block) := by
        split at tool
        · exact tool
        · cases tool
      obtain rfl := ReasoningFormat.toolCut_split found
      split
      · refine ⟨rfl, rfl, ?_, ?_, 0, fun c solid => ?_⟩
        · rw [List.append_nil]
          exact sublist_append_left _ _
        · rw [List.append_nil]
          exact sublist_append_right _ _
        · simp only [count_append, count_nil]
          omega
      · refine ⟨rfl, rfl, Sublist.refl _, sublist_append_right _ _, 0, fun c solid => ?_⟩
        simp only [count_append, count_nil]
        omega
    · split
      · split
        · refine ⟨rfl, rfl, ?_, (drop_suffix _ _).sublist, 0, fun c solid => ?_⟩
          · rw [whole]
          · have same := kept c
            simp only [count_nil]
            omega
        · refine ⟨rfl, rfl, Sublist.refl _, Sublist.refl _, 0, fun c solid => ?_⟩
          simp only [count_nil]
          omega
      · refine ⟨rfl, rfl, (drop_suffix _ _).sublist, ?_, 0, fun c solid => ?_⟩
        · rw [whole]
        · have same := kept c
          simp only [count_nil]
          omega

def openersLeft (self : BaseReasoningParser) : Nat := if self.strippedThinkStart then 0 else 1

theorem stripThinkStart_accounted (self : BaseReasoningParser) (currentText : List Char) :
    (self.stripThinkStart currentText).1.format = self.format ∧
      List.Sublist (self.stripThinkStart currentText).2 currentText ∧
      ∃ openers, openers + (self.stripThinkStart currentText).1.openersLeft ≤ self.openersLeft ∧
        ∀ c, (self.stripThinkStart currentText).2.count c +
          openers * self.format.thinkStartToken.count c = currentText.count c := by
  unfold stripThinkStart
  split
  · exact ⟨rfl, Sublist.refl _, 0, (Nat.zero_add _).le, fun c => by rw [Nat.zero_mul, Nat.add_zero]⟩
  · next pre after opener =>
    split at opener
    · cases opener
    · next unstripped =>
      obtain ⟨rfl, -⟩ := cut_eq_some.mp opener
      refine ⟨rfl, (Sublist.refl pre).append (sublist_append_right _ _), 1, ?_, fun c => ?_⟩
      · unfold openersLeft
        rw [if_neg unstripped]
        simp
      · simp only [count_append]
        omega

/-- The reasoning and the content are subsequences of the text, and together with at most `left`
openers and some closers they hold every character of it that is no whitespace as often as it does. -/
def Accounted (format : ReasoningFormat) (left : Nat) (text : List Char)
    (delivered : ReasoningParseResult) : Prop :=
  List.Sublist delivered.reasoningText text ∧ List.Sublist delivered.normalText text ∧
    ∃ openers closers, openers ≤ left ∧ ∀ c, isSpace c = false →
      delivered.reasoningText.count c + delivered.normalText.count c +
        openers * format.thinkStartToken.count c +
        closers * format.thinkEndToken.count c = text.count c

/-- On every text, **nothing but markers and whitespace is lost, and nothing twice**. -/
theorem accounted (self : BaseReasoningParser) (chunks : List (List Char)) :
    Accounted self.format self.openersLeft (self.buffer ++ chunks.flatten)
      (deliver parseStreamingIncrement flush self chunks) := by
  induction chunks generalizing self with
  | nil =>
    have flushed : deliver parseStreamingIncrement flush self [] = self.flush := rfl
    rw [flushed]
    unfold flush Accounted
    simp only [flatten_nil, List.append_nil]
    split
    · exact ⟨nil_sublist _, Sublist.refl _, 0, 0, Nat.zero_le _, by simp⟩
    · split
      · exact ⟨Sublist.refl _, nil_sublist _, 0, 0, Nat.zero_le _, by simp⟩
      · exact ⟨nil_sublist _, Sublist.refl _, 0, 0, Nat.zero_le _, by simp⟩
  | cons chunk chunks ih =>
    have parsed : self.parseStreamingIncrement chunk =
        (self.stripThinkStart (self.buffer ++ chunk)).1.parseCurrent
          (self.stripThinkStart (self.buffer ++ chunk)).2 := rfl
    rw [deliver_cons, parsed]
    obtain ⟨sameFormat, within, openers, few, counted⟩ :=
      self.stripThinkStart_accounted (self.buffer ++ chunk)
    generalize (self.stripThinkStart (self.buffer ++ chunk)).1 = next at *
    generalize (self.stripThinkStart (self.buffer ++ chunk)).2 = current at *
    have step := next.parseCurrent_accounted current
    have rest := ih (next.parseCurrent current).2
    obtain ⟨sameFormat', stripped, reasoning, content, closers, counted'⟩ := step
    obtain ⟨reasoning', content', openers', closers', few', counted''⟩ := rest
    have same : (next.parseCurrent current).2.openersLeft = next.openersLeft := by
      unfold openersLeft
      rw [stripped]
    rw [flatten_cons, ← List.append_assoc]
    refine ⟨?_, ?_, openers + openers', closers + closers', ?_, fun c solid => ?_⟩
    · refine (Sublist.append_left reasoning' _).trans ?_
      rw [← List.append_assoc]
      exact (reasoning.trans within).append_right _
    · refine (Sublist.append_left content' _).trans ?_
      rw [← List.append_assoc]
      exact (content.trans within).append_right _
    · omega
    · have first := counted c
      have second := counted' c solid
      have third := counted'' c solid
      rw [sameFormat] at second
      rw [sameFormat', sameFormat] at third
      simp only [reasoningText_append, normalText_append, count_append, Nat.add_mul] at *
      omega

/-! ### Where the one-shot parse and the stream agree -/

section Agreement

variable {format : ReasoningFormat} {text pre body : List Char} {force : Bool}

def Agree (first second : ReasoningParseResult) : Prop :=
  strip first.reasoningText = strip second.reasoningText ∧
    strip first.normalText = strip second.normalText

instance (first second : ReasoningParseResult) : Decidable (Agree first second) :=
  inferInstanceAs (Decidable (_ ∧ _))

/-- The opener, if there is one, is the only one; without a forced block only whitespace comes before
it, and with one no marker comes before it, nor is one formed where it was removed. A tool block
before the closer is short enough to be held. -/
def Positional (format : ReasoningFormat) (force : Bool) (text : List Char) : Prop :=
  match cut format.thinkStartToken text with
  | none => force = true → format.HeldInFull text
  | some (pre, body) =>
      ¬format.thinkStartToken <:+: body ∧ format.HeldInFull (pre ++ body) ∧
        (force = false → Blank pre) ∧
        (force = true → ∀ marker ∈ format.endings, ¬marker <:+: pre ++ format.thinkStartToken ∧
            ∀ prev, prev ++ marker <+: pre ++ body → pre.length ≤ prev.length)

theorem removeAll_of_absent {marker : List Char} (absent : ¬marker <:+: text) :
    removeAll marker text = text := by
  unfold removeAll
  rw [cut_eq_none.mpr absent]

theorem removeAll_of_once {marker : List Char} (nonempty : marker ≠ [])
    (found : cut marker text = some (pre, body)) (once : ¬marker <:+: body) :
    removeAll marker text = pre ++ body := by
  unfold removeAll
  rw [found]
  dsimp only
  rw [if_pos, removeAll_of_absent once]
  have pos := length_pos_of_ne_nil nonempty
  rw [(cut_eq_some.mp found).1, length_append, length_append]
  omega

theorem detectAndParse_agree (valid : self.format.Valid)
    (inside : self.inReasoning = true ∨ self.format.thinkStartToken <:+: text) :
    Agree (self.detectAndParse text)
      (self.format.split (removeAll self.format.thinkStartToken text)) := by
  unfold detectAndParse
  rw [if_neg (by
    rcases inside with inside | present
    · simp [inside]
    · simp [present])]
  generalize removeAll self.format.thinkStartToken text = whole
  dsimp only
  obtain ⟨blank, blank', isBlank, isBlank', split⟩ := strip_split whole
  have late : ∀ marker ∈ self.format.endings, ∀ prev,
      prev ++ marker <+: blank ++ (strip whole ++ blank') → blank.length ≤ prev.length :=
    fun marker mem prev occurs =>
      le_of_blank isBlank (valid.solid marker mem).1 (valid.not_blank mem) occurs
  have ends : ∀ marker ∈ self.format.endings, marker <:+: strip whole ++ blank' →
      marker <:+: strip whole := fun marker mem within =>
    infix_of_blank isBlank' (valid.solid marker mem).2 (valid.not_blank mem) within
  have again := strip_strip whole
  generalize strip whole = processed at *
  rw [split, ReasoningFormat.split_skip late]
  unfold ReasoningFormat.split
  cases closer : cut self.format.thinkEndToken processed with
  | some parts =>
    rw [cut_append closer]
    rw [mk_append]
    exact ⟨(strip_blank_append isBlank).symm, (strip_strip _).trans (strip_append_blank isBlank').symm⟩
  | none =>
    have closer' : cut self.format.thinkEndToken (processed ++ blank') = none :=
      cut_eq_none.mpr fun within => cut_eq_none.mp closer
        (ends _ (ReasoningFormat.mem_endings.mpr (.inl rfl)) within)
    rw [closer']
    cases tool : self.format.toolCut processed with
    | some parts =>
      rw [ReasoningFormat.toolCut_append tool]
      rw [mk_append]
      exact ⟨(strip_strip _).trans (strip_blank_append isBlank).symm,
        (strip_append_blank isBlank').symm⟩
    | none =>
      have tool' : self.format.toolCut (processed ++ blank') = none :=
        ReasoningFormat.toolCut_eq_none.mpr fun token isTool within =>
          ReasoningFormat.toolCut_eq_none.mp tool token isTool
            (ends _ (ReasoningFormat.mem_endings.mpr (.inr isTool)) within)
      rw [tool']
      rw [mk_append]
      refine ⟨?_, rfl⟩
      rw [strip_blank_append isBlank, strip_append_blank isBlank']

theorem Splits.agree {delivered : ReasoningParseResult} (splits : Splits format text delivered) :
    Agree delivered (format.split text) := by
  obtain ⟨blank, isBlank, -, split⟩ := splits
  rw [split]
  exact ⟨(strip_append_blank isBlank).symm, rfl⟩

theorem Agree.trans {first second third : ReasoningParseResult} (left : Agree first second)
    (right : Agree second third) : Agree first third :=
  ⟨left.1.trans right.1, left.2.trans right.2⟩

theorem Agree.symm {first second : ReasoningParseResult} (agree : Agree first second) :
    Agree second first := ⟨agree.1.symm, agree.2.symm⟩

def init (format : ReasoningFormat) (force : Bool) : BaseReasoningParser where
  format := format
  forceReasoning := force

/-- **The stream agrees with the one-shot parse** on a text whose opener stands where it should. -/
theorem agree_of_positional (valid : format.Valid) (positional : Positional format force text)
    (whole : chunks.flatten = text) :
    Agree ((init format force).stream chunks) ((init format force).detectAndParse text) := by
  have emptyBuffer : ∀ {marker : List Char}, marker ≠ [] → ¬marker <:+: (init format force).buffer :=
    fun nonempty within => nonempty (eq_nil_of_infix_nil within)
  unfold Positional at positional
  cases opener : cut format.thinkStartToken text with
  | none =>
    rw [opener] at positional
    have absent := cut_eq_none.mp opener
    have absent' : ¬(init format force).format.thinkStartToken <:+:
        (init format force).buffer ++ chunks.flatten := by
      rw [whole]
      exact absent
    cases force with
    | false =>
      have delivered := @deliver_content (init format false) chunks rfl (.inr absent')
      have parsed : (init format false).detectAndParse text = ⟨[], text⟩ := by
        unfold detectAndParse
        rw [if_pos]
        simp [init, absent]
      unfold stream
      rw [delivered, parsed, whole]
      exact ⟨rfl, rfl⟩
    | true =>
      have splits := @deliver_reasoning (init format true) chunks valid rfl rfl (.inr absent')
        (emptyBuffer (valid.nonempty _ (mem_cons_of_mem _ mem_cons_self)))
        (fun tool isTool within => absurd within (emptyBuffer (valid.nonempty _
          (mem_cons_of_mem _ (ReasoningFormat.mem_endings.mpr (.inr isTool))))))
        (by rw [whole]; exact positional rfl)
      have parsed := @detectAndParse_agree (init format true) text valid (.inl rfl)
      rw [show (init format true).format = format from rfl, removeAll_of_absent absent] at parsed
      rw [whole] at splits
      exact splits.agree.trans parsed.symm
  | some parts =>
    obtain ⟨pre, body⟩ := parts
    rw [opener] at positional
    obtain ⟨once, full, blank, alone⟩ := positional
    have nonempty := valid.nonempty _ mem_cons_self
    obtain ⟨emitted, pending, chunks', isBefore, -, isRest, delivered⟩ :=
      @deliver_opener (init format force) chunks pre body (fun _ => True) rfl
        (by rw [whole]; exact opener) (emptyBuffer nonempty) (fun _ => rfl)
        (fun inside marker mem => (alone inside marker mem).1) trivial fun _ _ _ _ _ => trivial
    have late : ∀ marker ∈ format.endings, ∀ prev,
        prev ++ marker <+: emitted ++ (pending ++ body) → emitted.length ≤ prev.length := by
      intro marker mem prev occurs
      rw [← List.append_assoc, ← isBefore] at occurs
      have isLate : pre.length ≤ prev.length := by
        cases isForce : force with
        | false =>
          exact le_of_blank (blank isForce) (valid.solid marker mem).1 (valid.not_blank mem)
            occurs
        | true => exact (alone isForce marker mem).2 prev occurs
      rw [isBefore, length_append] at isLate
      omega
    rw [isBefore, List.append_assoc] at full
    have splits := @deliver_reasoning (init format force).opened chunks' valid rfl rfl (.inl rfl)
      (emptyBuffer (valid.nonempty _ (mem_cons_of_mem _ mem_cons_self)))
      (fun tool isTool within => absurd within (emptyBuffer (valid.nonempty _
        (mem_cons_of_mem _ (ReasoningFormat.mem_endings.mpr (.inr isTool))))))
      (by rw [isRest]; exact full.skip late)
    rw [isRest] at splits
    have parsed := @detectAndParse_agree (init format force) text valid
      (.inr (cut_isSome.mp ⟨_, opener⟩))
    rw [show (init format force).format = format from rfl, removeAll_of_once nonempty opener once,
      isBefore, List.append_assoc] at parsed
    have total := (splits.skip late).agree.trans parsed.symm
    unfold stream
    rw [delivered]
    cases isForce : force with
    | true =>
      rw [isForce] at total
      exact total
    | false =>
      -- what came before the opener is whitespace, and counts on neither side
      have blankEmitted : Blank emitted := fun c mem =>
        blank isForce c (by rw [isBefore]; exact mem_append_left _ mem)
      rw [isForce] at total
      refine Agree.trans ⟨?_, ?_⟩ total
      · exact (strip_blank_append blankEmitted).symm
      · exact strip_blank_append blankEmitted

end Agreement

/-! ### The families -/

inductive Family where
  | deepseekv32
  | qwen3
  | glm
  | minimax
  | gemma4
  deriving DecidableEq, Repr

def Family.format : Family → ReasoningFormat
  | deepseekv32 => deepSeekV32Format
  | qwen3 | glm | minimax => thinkFormat
  | gemma4 => gemmaThoughtFormat

theorem Family.valid (family : Family) : family.format.Valid := by
  cases family with
  | deepseekv32 => exact ReasoningFormat.valid_deepSeekV32
  | qwen3 | glm | minimax => exact ReasoningFormat.valid_think
  | gemma4 => exact ReasoningFormat.valid_gemmaThought

/-- **The think-tag parsers.** On every text nothing but markers and whitespace is lost and nothing
comes twice; where the opener stands as it should, the stream is the one-shot parse up to outer
whitespace, in every chunking. -/
theorem stream_agrees (family : Family) (force : Bool) (chunks : List (List Char)) :
    Accounted family.format 1 chunks.flatten ((init family.format force).stream chunks) ∧
      (Positional family.format force chunks.flatten →
        Agree ((init family.format force).stream chunks)
          ((init family.format force).detectAndParse chunks.flatten)) :=
  ⟨accounted (init family.format force) chunks,
    fun positional => agree_of_positional family.valid positional rfl⟩

/-- A block without a tool marker, in three chunks. -/
theorem stream_agrees_plain : Agree
    ((init Family.qwen3.format true).stream ["r</th".toList, "ink>".toList, "c".toList])
    ((init Family.qwen3.format true).detectAndParse "r</think>c".toList) := by
  refine (stream_agrees .qwen3 true ["r</th".toList, "ink>".toList, "c".toList]).2 ?_
  unfold Positional
  have absent : cut Family.qwen3.format.thinkStartToken
      (flatten ["r</th".toList, "ink>".toList, "c".toList]) = none := by decide
  rw [absent]
  intro _ _ _ _ _ _ tool
  cases tool

/-- Text that arrives before the opener is content in the stream and reasoning in the one-shot parse,
and an opener after the closer opens a second block in the stream only. -/
theorem stream_disagrees :
    ¬Agree ((init Family.qwen3.format false).stream ["a".toList, "<think>b</think>c".toList])
        ((init Family.qwen3.format false).detectAndParse "a<think>b</think>c".toList) ∧
      ¬Agree ((init Family.qwen3.format true).stream ["a</think>b".toList, "<think>c".toList])
        ((init Family.qwen3.format true).detectAndParse "a</think>b<think>c".toList) := by
  have once : removeAll thinkStartToken "a<think>b</think>c".toList = "ab</think>c".toList :=
    @removeAll_of_once _ "a".toList "b</think>c".toList thinkStartToken (by decide) (by decide)
      (by decide)
  have once' : removeAll thinkStartToken "a</think>b<think>c".toList = "a</think>bc".toList :=
    @removeAll_of_once _ "a</think>b".toList "c".toList thinkStartToken (by decide) (by decide)
      (by decide)
  have parsed : (init Family.qwen3.format false).detectAndParse "a<think>b</think>c".toList =
      ⟨"ab".toList, "c".toList⟩ := by
    unfold detectAndParse
    rw [show (init Family.qwen3.format false).format.thinkStartToken = thinkStartToken from rfl, once]
    decide
  have parsed' : (init Family.qwen3.format true).detectAndParse "a</think>b<think>c".toList =
      ⟨"a".toList, "bc".toList⟩ := by
    unfold detectAndParse
    rw [show (init Family.qwen3.format true).format.thinkStartToken = thinkStartToken from rfl, once']
    decide
  rw [parsed, parsed']
  decide

end BaseReasoningParser

end FreeToken
