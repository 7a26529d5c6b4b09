/-
**The reasoning parsers.**

Each splits a completion into its reasoning and its content, at once (`detectAndParse`) or chunk by
chunk (`parseStreamingIncrement`, then `flush`).

The parser that `ReasoningParser` wraps is chosen by its name and `stream_reasoning` stays true; the
name table itself is left out.
-/

import FreeToken.Lib.Markers
import FreeToken.Server.Text

namespace FreeToken

open Markers List

structure ReasoningParseResult where
  reasoningText : List Char := []
  normalText : List Char := []
  deriving DecidableEq, Repr

instance : Append ReasoningParseResult :=
  ⟨fun first second =>
    ⟨first.reasoningText ++ second.reasoningText, first.normalText ++ second.normalText⟩⟩

def deliver {σ : Type} (parse : σ → List Char → ReasoningParseResult × σ)
    (flush : σ → ReasoningParseResult) (self : σ) : List (List Char) → ReasoningParseResult
  | [] => flush self
  | chunk :: chunks =>
      let (res, self) := parse self chunk
      res ++ deliver parse flush self chunks

instance : LE ReasoningParseResult :=
  ⟨fun first second =>
    first.reasoningText <+: second.reasoningText ∧ first.normalText <+: second.normalText⟩

namespace ReasoningParseResult

variable {first second third : ReasoningParseResult}

@[simp] theorem reasoningText_append :
    (first ++ second).reasoningText = first.reasoningText ++ second.reasoningText := rfl

@[simp] theorem normalText_append :
    (first ++ second).normalText = first.normalText ++ second.normalText := rfl

theorem mk_append (reasoning normal reasoning' normal' : List Char) :
    (⟨reasoning, normal⟩ : ReasoningParseResult) ++ ⟨reasoning', normal'⟩ =
      ⟨reasoning ++ reasoning', normal ++ normal'⟩ := rfl

theorem append_assoc : first ++ second ++ third = first ++ (second ++ third) := by
  show (⟨_, _⟩ : ReasoningParseResult) = ⟨_, _⟩
  simp only [reasoningText_append, normalText_append, List.append_assoc]

@[simp] theorem nil_append : ({} : ReasoningParseResult) ++ first = first := rfl

@[simp] theorem append_nil : first ++ ({} : ReasoningParseResult) = first := by
  show (⟨_, _⟩ : ReasoningParseResult) = first
  simp only [List.append_nil]

theorem nil_le : {} ≤ first := ⟨List.nil_prefix, nil_prefix⟩

theorem le_trans (early : first ≤ second) (late : second ≤ third) : first ≤ third :=
  ⟨early.1.trans late.1, early.2.trans late.2⟩

theorem le_append : first ≤ first ++ second := ⟨prefix_append _ _, prefix_append _ _⟩

theorem append_le_append (le : second ≤ third) : first ++ second ≤ first ++ third :=
  ⟨prefix_append_right_inj _ |>.mpr le.1, prefix_append_right_inj _ |>.mpr le.2⟩

end ReasoningParseResult

theorem deliver_cons {σ : Type} (parse : σ → List Char → ReasoningParseResult × σ)
    (flush : σ → ReasoningParseResult) (self : σ) (chunk : List Char) (chunks : List (List Char)) :
    deliver parse flush self (chunk :: chunks) =
      (parse self chunk).1 ++ deliver parse flush (parse self chunk).2 chunks := rfl

theorem deliver_induction {σ : Type} {parse : σ → List Char → ReasoningParseResult × σ}
    {flush : σ → ReasoningParseResult} {text : List Char} {goal : ReasoningParseResult}
    {chunks : List (List Char)} {seen : List Char} {out : ReasoningParseResult} {self : σ}
    (kept : List Char → ReasoningParseResult → σ → Prop)
    (step : ∀ seen out self chunk, kept seen out self → seen ++ chunk <+: text →
      kept (seen ++ chunk) (out ++ (parse self chunk).1) (parse self chunk).2)
    (stop : ∀ out self, kept text out self → out ++ flush self = goal)
    (start : kept seen out self) (whole : seen ++ chunks.flatten = text) :
    out ++ deliver parse flush self chunks = goal := by
  induction chunks generalizing seen out self with
  | nil =>
    obtain rfl : seen = text := by simpa using whole
    exact stop out self start
  | cons chunk chunks ih =>
    rw [flatten_cons, ← append_assoc] at whole
    have next := ih (step seen out self chunk start ⟨_, whole⟩) whole
    rw [ReasoningParseResult.append_assoc] at next
    exact next

/-- `text.replace(marker, "")`. -/
def removeAll (marker text : List Char) : List Char :=
  match cut marker text with
  | none => text
  | some (pre, after) =>
      if after.length < text.length then pre ++ removeAll marker after else text
termination_by text.length

def stripSpecialTokens (text : List Char) (tokens : List (List Char)) : List Char :=
  tokens.foldl (fun text token => if token = [] then text else removeAll token text) text

/-- `ReasoningParser`: a parser with its attributes, as a stream uses it. -/
structure ReasoningParser (ρ : Type) where
  parseStreamingIncrement : ρ → List Char → ReasoningParseResult × ρ
  flush : ρ → ReasoningParseResult
  self : ρ

namespace ReasoningParser

variable {ρ : Type}

def parseStreamChunk (parser : ReasoningParser ρ) (chunkText : List Char) :
    ReasoningParseResult × ReasoningParser ρ :=
  let (res, self) := parser.parseStreamingIncrement parser.self chunkText
  (res, { parser with self := self })

def flushed (parser : ReasoningParser ρ) : ReasoningParseResult := parser.flush parser.self

end ReasoningParser

/-! ### `BaseReasoningParser` -/

structure ReasoningFormat where
  thinkStartToken : List Char
  thinkEndToken : List Char
  toolStartToken : Option (List Char) := none

def thinkStartToken : List Char := "<think>".toList
def thinkEndToken : List Char := "</think>".toList
def dsmlToken : List Char := "｜DSML｜".toList

/-- `DeepSeekV32ReasoningParser`. -/
def deepSeekV32Format : ReasoningFormat where
  thinkStartToken := thinkStartToken
  thinkEndToken := thinkEndToken
  toolStartToken := some ('<' :: dsmlToken)

/-- `ThinkReasoningParser`: Qwen3, GLM and MiniMax-M2. -/
def thinkFormat : ReasoningFormat where
  thinkStartToken := thinkStartToken
  thinkEndToken := thinkEndToken

/-- `GemmaThoughtReasoningParser`. -/
def gemmaThoughtFormat : ReasoningFormat where
  thinkStartToken := "<|channel>thought\n".toList
  thinkEndToken := "<channel|>".toList

def toolHoldMax : Nat := 512

/-- A think block between two markers, with the formats of its families. -/
structure BaseReasoningParser where
  format : ReasoningFormat
  forceReasoning : Bool
  streamReasoning : Bool := true
  inReasoning : Bool := forceReasoning
  buffer : List Char := []
  strippedThinkStart : Bool := false

/-- `tool_start_token in text`, with the text before and after it. -/
def ReasoningFormat.toolCut (format : ReasoningFormat) (text : List Char) :
    Option (List Char × List Char) :=
  format.toolStartToken.bind fun tool => (cut tool text).map fun (pre, after) =>
    (pre, tool ++ after)

variable (self : BaseReasoningParser)

namespace BaseReasoningParser

def detectAndParse (text : List Char) : ReasoningParseResult :=
  if !self.inReasoning && !decide (self.format.thinkStartToken <:+: text) then ⟨[], text⟩
  else
    let processedText := strip (removeAll self.format.thinkStartToken text)
    match cut self.format.thinkEndToken processedText with
    | none =>
        match self.format.toolCut processedText with
        | some (pre, tool) => ⟨strip pre, tool⟩
        | none => ⟨processedText, []⟩
    | some (reasoningText, normalText) => ⟨reasoningText, strip normalText⟩

def trackedTokens : List (List Char) :=
  self.format.thinkEndToken ::
    ((if self.strippedThinkStart then [] else [self.format.thinkStartToken]) ++
      self.format.toolStartToken.toList)

def stripThinkStart (currentText : List Char) : BaseReasoningParser × List Char :=
  match if self.strippedThinkStart then none else cut self.format.thinkStartToken currentText with
  | none => (self, currentText)
  | some (pre, after) =>
      ({ self with
        strippedThinkStart := true
        inReasoning := true }, pre ++ after)

/-- What is left of the increment: the closer wins over a tool marker, and a tool block is held. -/
def parseCurrent (currentText : List Char) : ReasoningParseResult × BaseReasoningParser :=
  match if self.inReasoning then cut self.format.thinkEndToken currentText else none with
  | some (pre, after) =>
      (⟨rstrip pre, after⟩, { self with
        buffer := []
        inReasoning := false })
  | none =>
      match if self.inReasoning then self.format.toolCut currentText else none with
      | some (pre, block) =>
          if toolHoldMax < block.length then
            (⟨pre, block⟩, { self with
              buffer := []
              inReasoning := false })
          else (⟨pre, []⟩, { self with buffer := block })
      | none =>
          if self.inReasoning then
            if self.streamReasoning then
              (⟨safe self.trackedTokens currentText, []⟩,
                { self with buffer := held self.trackedTokens currentText })
            else (⟨[], []⟩, { self with buffer := currentText })
          else
            (⟨[], safe self.trackedTokens currentText⟩,
              { self with buffer := held self.trackedTokens currentText })

def parseStreamingIncrement (newText : List Char) : ReasoningParseResult × BaseReasoningParser :=
  let (self, currentText) := self.stripThinkStart (self.buffer ++ newText)
  self.parseCurrent currentText

def flush : ReasoningParseResult :=
  if self.format.toolStartToken.any fun tool => tool.isPrefixOf (lstrip self.buffer) then
    ⟨[], self.buffer⟩
  else if self.inReasoning then ⟨self.buffer, []⟩
  else ⟨[], self.buffer⟩

def stream (chunks : List (List Char)) : ReasoningParseResult :=
  deliver parseStreamingIncrement flush self chunks

end BaseReasoningParser

/-! ### `GptOssHarmonyReasoningParser` -/

def harmonyChannel : List Char := "<|channel|>".toList
def harmonyMessage : List Char := "<|message|>".toList
def harmonyEnd : List Char := "<|end|>".toList
def harmonyReturn : List Char := "<|return|>".toList
def harmonyCall : List Char := "<|call|>".toList
def harmonyStart : List Char := "<|start|>".toList

def harmonyBoundaryTokens : List (List Char) :=
  [harmonyEnd, harmonyReturn, harmonyCall, harmonyStart, harmonyChannel]

def harmonyAllTokens : List (List Char) := [harmonyChannel, harmonyMessage] ++ harmonyBoundaryTokens

def closingBoundaryTokens : List (List Char) := [harmonyEnd, harmonyReturn, harmonyCall]

/-- The channels of Harmony, by scanning the whole buffer again. -/
structure GptOssHarmonyReasoningParser where
  buffer : List Char := []
  emittedReasoning : Nat := 0
  emittedContent : Nat := 0

namespace GptOssHarmonyReasoningParser

def isTool (header : List Char) : Bool :=
  firstWord header == "commentary".toList && decide ("to=functions".toList <:+: header)

/-- What one channel segment delivers; `matchedToken` is the boundary token at its end. -/
def segment (holdPartial : Bool) (header body : List Char) (matchedToken : Option (List Char)) :
    ReasoningParseResult :=
  if isTool header then
    ⟨[], harmonyChannel ++ header ++ harmonyMessage ++ body ++
      (matchedToken.filter (· ∈ closingBoundaryTokens)).getD []⟩
  else
    let body := if matchedToken.isNone && holdPartial then safe harmonyAllTokens body else body
    if firstWord header = "analysis".toList then ⟨body, []⟩ else ⟨[], body⟩

theorem rest_lt {text skipped fromHeader header fromBody body token after : List Char}
    (channel : cut harmonyChannel text = some (skipped, fromHeader))
    (msg : cut harmonyMessage fromHeader = some (header, fromBody))
    (boundary : firstCut harmonyBoundaryTokens fromBody = some (body, token, after)) :
    (token ++ after).length < text.length := by
  obtain ⟨rfl, -⟩ := cut_eq_some.mp channel
  obtain ⟨rfl, -⟩ := cut_eq_some.mp msg
  obtain ⟨-, rfl, -⟩ := firstCut_spec boundary
  have pos : 0 < harmonyChannel.length := by decide
  simp only [length_append]
  omega

/-- `_scan`, from one segment to the next. -/
def scan (holdPartial : Bool) (text : List Char) : ReasoningParseResult :=
  match _channel : cut harmonyChannel text with
  | none => {}
  | some (_, fromHeader) =>
      match _message : cut harmonyMessage fromHeader with
      | none => {}
      | some (header, fromBody) =>
          match _boundary : firstCut harmonyBoundaryTokens fromBody with
          | none => segment holdPartial header fromBody none
          | some (body, token, after) =>
              segment holdPartial header body (some token) ++ scan holdPartial (token ++ after)
termination_by text.length
decreasing_by exact rest_lt _channel _message _boundary

def detectAndParse (text : List Char) : ReasoningParseResult :=
  if harmonyChannel <:+: text then
    let scanned := scan false text
    ⟨strip scanned.reasoningText, strip scanned.normalText⟩
  else ⟨[], text⟩

def emit (self : GptOssHarmonyReasoningParser) (scanned : ReasoningParseResult) :
    ReasoningParseResult × GptOssHarmonyReasoningParser :=
  (⟨scanned.reasoningText.drop self.emittedReasoning, scanned.normalText.drop self.emittedContent⟩,
    { self with
      emittedReasoning := scanned.reasoningText.length
      emittedContent := scanned.normalText.length })

def parseStreamingIncrement (self : GptOssHarmonyReasoningParser) (newText : List Char) :
    ReasoningParseResult × GptOssHarmonyReasoningParser :=
  let self := { self with buffer := self.buffer ++ newText }
  self.emit (scan true self.buffer)

def flush (self : GptOssHarmonyReasoningParser) : ReasoningParseResult :=
  (self.emit (scan false self.buffer)).1

def stream (chunks : List (List Char)) : ReasoningParseResult :=
  deliver parseStreamingIncrement flush {} chunks

end GptOssHarmonyReasoningParser

/-! ### `MiniMaxM3ReasoningParser` -/

def miniMaxM3Format : ReasoningFormat where
  thinkStartToken := "<mm:think>".toList
  thinkEndToken := "</mm:think>".toList
  toolStartToken := some "]<]minimax[>[<tool_call>".toList

/-- The think block with a head that may be a bare closer. -/
structure MiniMaxM3ReasoningParser where
  base : BaseReasoningParser
  leadingCloserPending : Bool
  headBuffer : List Char := []

namespace MiniMaxM3ReasoningParser

def init (forceReasoning : Bool) : MiniMaxM3ReasoningParser where
  base :=
    { format := miniMaxM3Format
      forceReasoning := forceReasoning }
  leadingCloserPending := !forceReasoning

/-- The positional one-shot parse. -/
def detectAndParse (self : MiniMaxM3ReasoningParser) (text : List Char) : ReasoningParseResult :=
  let format := self.base.format
  if self.base.forceReasoning then
    match cut format.thinkEndToken text with
    | some (reasoning, rest) => ⟨reasoning, rest⟩
    | none =>
        match format.toolCut text with
        | some (pre, block) => ⟨pre, block⟩
        | none => ⟨text, []⟩
  else if format.thinkEndToken.isPrefixOf (lstrip text) then
    ⟨[], (lstrip text).drop format.thinkEndToken.length⟩
  else
    match cut format.thinkStartToken text with
    | none => ⟨[], text⟩
    | some (pre, body) =>
        match cut format.thinkEndToken body with
        | some (reasoning, rest) => ⟨reasoning, pre ++ rest⟩
        | none =>
            match format.toolCut body with
            | some (front, block) => ⟨front, pre ++ block⟩
            | none => ⟨body, []⟩

def parseBase (self : MiniMaxM3ReasoningParser) (newText : List Char) :
    ReasoningParseResult × MiniMaxM3ReasoningParser :=
  let (res, base) := self.base.parseStreamingIncrement newText
  (res, { self with base := base })

def parseStreamingIncrement (self : MiniMaxM3ReasoningParser) (newText : List Char) :
    ReasoningParseResult × MiniMaxM3ReasoningParser :=
  if self.leadingCloserPending then
    let headBuffer := self.headBuffer ++ newText
    let head := lstrip headBuffer
    if self.base.format.thinkEndToken.isPrefixOf head then
      -- A bare leading closer is dropped once; everything after it is content.
      let self := { self with
        leadingCloserPending := false
        headBuffer := []
        base := { self.base with inReasoning := false } }
      let rest := head.drop self.base.format.thinkEndToken.length
      if rest = [] then ({}, self) else self.parseBase rest
    else if head = [] || head.isPrefixOf self.base.format.thinkEndToken then
      ({}, { self with headBuffer := headBuffer })
    else
      -- No leading closer: the head is replayed, whitespace included.
      { self with
        leadingCloserPending := false
        headBuffer := [] }.parseBase headBuffer
  else self.parseBase newText

def flush (self : MiniMaxM3ReasoningParser) : ReasoningParseResult :=
  if self.leadingCloserPending && self.headBuffer != [] then
    let (first, base) := self.base.parseStreamingIncrement self.headBuffer
    first ++ base.flush
  else self.base.flush

def stream (forceReasoning : Bool) (chunks : List (List Char)) : ReasoningParseResult :=
  deliver parseStreamingIncrement flush (init forceReasoning) chunks

end MiniMaxM3ReasoningParser

end FreeToken
