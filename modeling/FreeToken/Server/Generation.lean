/-
**The generation core: from the engine's replies to semantic events.**

The row that `generate_events` leaves in the request ring is left out, and so is the keepalive.
-/

import FreeToken.Lib.Generator
import FreeToken.Server.FunctionCallParser
import FreeToken.Server.Message
import FreeToken.Server.ReasoningParser

namespace FreeToken

open Generator (emit emitIf lift)

/-- The reason of the engine, or `"tool_calls"`. -/
inductive GenFinishReason where
  | engine (reason : FinishReason)
  | toolCalls
  deriving DecidableEq, Repr

structure GenDone where
  finishReason : GenFinishReason
  promptTokens : Nat
  completionTokens : Nat
  matchedStop : Option (List Char) := none
  cachedTokens : Nat := 0
  deriving DecidableEq, Repr

/-- The events that the wire protocols format. -/
inductive GenEvent (α : Type := Char) where
  | reasoningDelta (text : List α)
  | contentDelta (text : List α)
  | toolCallStart (toolIndex : Nat) (name : Option (List α)) (argsPrefixStable : Bool)
  | toolCallArgsDelta (toolIndex : Nat) (fragment : List α)
  | toolCallsDelta (calls : List (ToolCallItem α))
  | genDone (done : GenDone)
  deriving DecidableEq, Repr

structure OpenCall where
  detectorIndex : Int
  name : Option (List Char)
  params : List Char
  ordinal : Nat

variable {F ρ σ : Type} [PyFloat F]

/-- The assembly of a streamed tool call out of the fragments that the detector emits. -/
structure Assembly (F σ : Type) where
  toolParser : FunctionCallParser F σ
  openCall : Option OpenCall := none
  callsEmitted : Nat := 0
  suppressWs : Bool := false

namespace Assembly

/-- The final arguments of a call: its fragments, or what the detector has parsed where the stream
was cut short. -/
def finalParameters (self : Assembly F σ) (call : OpenCall) : List Char :=
  let params :=
    if validJson F call.params then call.params
    else ((self.toolParser.unstreamedArguments call.detectorIndex).filter (· ≠ [])).getD call.params
  if params = [] then "\x7b\x7d".toList else params

def closeOpenCall (self : Assembly F σ) : Generator GenEvent (Assembly F σ) :=
  match self.openCall with
  | none => pure self
  | some call => do
      emit (.toolCallsDelta [
        { toolIndex := call.ordinal
          name := call.name
          parameters := self.finalParameters call }])
      return { self with
        openCall := none
        callsEmitted := self.callsEmitted + 1
        suppressWs := true }

/-- A segment of text: it closes the open call, and the blanks between the close and the next real
text are swallowed. -/
def routeText (specials : List (List Char)) (self : Assembly F σ) (payload : List Char) :
    Generator GenEvent (Assembly F σ) := do
  let self ← self.closeOpenCall
  let stripped := stripSpecialTokens payload specials
  if stripped = [] ∨ (Blank stripped ∧ self.suppressWs) then return self
  else
    emit (.contentDelta stripped)
    return { self with suppressWs := self.suppressWs && decide (Blank stripped) }

def startsNew (self : Assembly F σ) (frag : ToolCallItem) : Bool :=
  frag.name.isSome && self.openCall.all fun call => frag.toolIndex ≠ call.detectorIndex

/-- `ToolCallStart`, with the ordinal of the output. -/
def openNew (self : Assembly F σ) (frag : ToolCallItem) : Generator GenEvent (Assembly F σ) := do
  emit (.toolCallStart self.callsEmitted frag.name
    self.toolParser.detector.argsFragmentsPrefixStable)
  return { self with
    openCall := some
      { detectorIndex := frag.toolIndex
        name := frag.name
        params := []
        ordinal := self.callsEmitted } }

def addParameters (self : Assembly F σ) (fragment : List Char) :
    Generator GenEvent (Assembly F σ) :=
  match self.openCall with
  | none => pure self
  | some call =>
      if fragment = [] then pure self
      else do
        emit (.toolCallArgsDelta call.ordinal fragment)
        return { self with openCall := some { call with params := call.params ++ fragment } }

def makeWay (self : Assembly F σ) (frag : ToolCallItem) : Generator GenEvent (Assembly F σ) :=
  if self.startsNew frag then self.closeOpenCall else pure self

def ensureOpen (self : Assembly F σ) (frag : ToolCallItem) : Generator GenEvent (Assembly F σ) :=
  if self.openCall.isNone then self.openNew frag else pure self

def routeFrag (self : Assembly F σ) (frag : ToolCallItem) : Generator GenEvent (Assembly F σ) := do
  let self ← self.makeWay frag
  let self ← self.ensureOpen frag
  self.addParameters frag.parameters

def routeFrags (self : Assembly F σ) : List ToolCallItem → Generator GenEvent (Assembly F σ)
  | [] => pure self
  | frag :: frags => do
      let self ← self.routeFrag frag
      self.routeFrags frags

def routeSegments (specials : List (List Char)) (self : Assembly F σ) :
    List Segment → Generator GenEvent (Assembly F σ)
  | [] => pure self
  | .text payload :: segs => do
      let self ← self.routeText specials payload
      self.routeSegments specials segs
  | .calls payload :: segs => do
      let self ← self.routeFrags payload
      self.routeSegments specials segs

def routeToolText (specials : List (List Char)) (self : Assembly F σ) (piece : List Char) :
    Generator GenEvent (Assembly F σ) :=
  if piece = [] then pure self
  else do
    let (segs, toolParser) ← lift (self.toolParser.parseStreamEvents piece)
    Assembly.routeSegments specials { self with toolParser := toolParser } segs

def addFinal (self : Assembly F σ) : List ToolCallItem → Generator GenEvent (Assembly F σ)
  | [] => pure self
  | frag :: frags => do
      let self ← self.addParameters frag.parameters
      self.addFinal frags

def emitRecovered (self : Assembly F σ) : List ToolCallItem → Generator GenEvent (Assembly F σ)
  | [] => pure self
  | item :: items => do
      emit (.toolCallStart self.callsEmitted item.name true)
      emit (.toolCallsDelta [{ item with toolIndex := self.callsEmitted }])
      Assembly.emitRecovered { self with callsEmitted := self.callsEmitted + 1 } items

/-- The end-of-stream drain. -/
def drain (specials : List (List Char)) (self : Assembly F σ) :
    Generator GenEvent (Assembly F σ) := do
  let (items, toolParser) := self.toolParser.finalizeStream
  let self ← Assembly.addFinal { self with toolParser := toolParser } items
  let self ← self.closeOpenCall
  let (items, toolParser) := self.toolParser.recoverTruncatedCall
  let self ← Assembly.emitRecovered { self with toolParser := toolParser } items
  let stripped := stripSpecialTokens self.toolParser.finishStream specials
  if stripped = [] ∨ (Blank stripped ∧ self.suppressWs) then return self
  else
    emit (.contentDelta stripped)
    return self

end Assembly

/-- Where the content goes: through the tool parser, into the buffer that is parsed at the end, or
straight out. -/
inductive ContentPath (F σ : Type) where
  | tools (assembly : Assembly F σ)
  | buffered (pending : List Char)
  | plain

/-- The request and its server, as far as `generate_events` reads them; without a tool parser its
construction raises. -/
structure Generation (F ρ σ : Type) where
  parseTools : Bool
  makeToolParser : Option (FunctionCallParser F σ)
  reasoningParser : Option (ReasoningParser ρ)
  specials : List (List Char)

structure GenerationState (F ρ σ : Type) where
  promptTokens : Nat := 0
  completionTokens : Nat := 0
  cachedTokens : Nat := 0
  reasoningParser : Option (ReasoningParser ρ)
  content : ContentPath F σ

variable (self : Generation F ρ σ)

namespace Generation

def contentPath : ContentPath F σ :=
  if self.parseTools then
    match self.makeToolParser with
    | some candidate =>
        if candidate.detector.supportsStreaming then .tools { toolParser := candidate }
        else .buffered []
    | none => .buffered []
  else .plain

def init : GenerationState F ρ σ where
  reasoningParser := self.reasoningParser
  content := self.contentPath

def emitReasoning (text : List Char) : Generator GenEvent Unit :=
  emitIf (stripSpecialTokens text self.specials ≠ [])
    (.reasoningDelta (stripSpecialTokens text self.specials))

def takeContent (content : ContentPath F σ) (piece : List Char) :
    Generator GenEvent (ContentPath F σ) :=
  if piece = [] then pure content
  else
    match content with
    | .tools assembly => do
        let assembly ← assembly.routeToolText self.specials piece
        return .tools assembly
    | .buffered pending => pure (.buffered (pending ++ piece))
    | .plain => do
        emit (.contentDelta (stripSpecialTokens piece self.specials))
        return .plain

def splitOutput (reasoningParser : Option (ReasoningParser ρ)) (output : List Char) :
    ReasoningParseResult × Option (ReasoningParser ρ) :=
  match reasoningParser with
  | none => (⟨[], output⟩, none)
  | some parser =>
      if output = [] then (⟨[], []⟩, some parser)
      else
        let (res, parser) := parser.parseStreamChunk output
        (res, some parser)

/-- One reply of the engine. -/
def takeReply (state : GenerationState F ρ σ) (ack : UserReply) :
    Generator GenEvent (GenerationState F ρ σ) := do
  let (res, reasoningParser) := splitOutput state.reasoningParser ack.incrementalOutput.toList
  self.emitReasoning res.reasoningText
  let content ← self.takeContent state.content res.normalText
  return { state with
    promptTokens := state.promptTokens + ack.promptTokensDelta
    completionTokens := state.completionTokens + ack.completionTokensDelta
    cachedTokens := state.cachedTokens + ack.cachedTokens
    reasoningParser := reasoningParser
    content := content }

def replyLoop (self : Generation F ρ σ) (state : GenerationState F ρ σ) : List UserReply →
    Generator GenEvent (GenerationState F ρ σ × Option FinishReason × Option (List Char))
  | [] => pure (state, none, none)
  | ack :: acks =>
      if ack.error.any (· ≠ "") then lift none
      else do
        let state ← self.takeReply state ack
        if ack.finished then return (state, ack.finishReason, ack.matchedStop)
        else self.replyLoop state acks

def toolsTagList : List (List Char) :=
  ["<|plugin|>", "<|tool_call>", "<|tool_call_begin|>", "<|channel|>", "<function=", "<tool_call>",
    "<minimax:tool_call>", "]<]minimax[>[<tool_call>", "<|python_tag|>", "[TOOL_CALLS]",
    "<｜DSML｜function_calls>", "<｜DSML｜tool_calls>", "<｜DSML｜invoke",
    "<atem:function_calls>"].map String.toList

/-- `_parse_tool_response`, where tools are parsed: the calls of the whole text, or nothing where it
has none; `none` where it raises. -/
def parseToolResponse (text : List Char) : Option (Option StreamingParseResult) :=
  if toolsTagList.any fun tag => decide (tag <:+: text) then do
    let parser ← self.makeToolParser
    let res ← parser.parseNonStream text
    return if res.calls = [] then none else some res
  else some none

/-- The finish reason, where calls that were emitted override what the engine reports, but for a
truncation. -/
def overrideReason (reason : FinishReason) (called : Bool) : GenFinishReason :=
  if called ∧ reason ≠ .length then .toolCalls else .engine reason

/-- What follows the last reply, up to the final event. -/
def finishContent (content : ContentPath F σ) (reason : FinishReason) :
    Generator GenEvent GenFinishReason :=
  match content with
  | .tools assembly => do
      let assembly ← assembly.drain self.specials
      return overrideReason reason (assembly.callsEmitted ≠ 0)
  | .buffered pending => do
      let parsed ← lift (self.parseToolResponse pending)
      match parsed with
      | some res =>
          let normalText := stripSpecialTokens res.normalText self.specials
          emitIf (normalText ≠ []) (.contentDelta normalText)
          emit (.toolCallsDelta res.calls)
          return overrideReason reason true
      | none =>
          emitIf (pending ≠ []) (.contentDelta (stripSpecialTokens pending self.specials))
          return overrideReason reason false
  | .plain => return overrideReason reason false

def flushReasoning (state : GenerationState F ρ σ) : Generator GenEvent (ContentPath F σ) :=
  match state.reasoningParser with
  | none => pure state.content
  | some parser => do
      self.emitReasoning parser.flushed.reasoningText
      self.takeContent state.content parser.flushed.normalText

/-- `generate_events` of one request. A parser that raises ends it early. -/
def events (acks : List UserReply) : Generator GenEvent Unit := do
  let (state, engineFinishReason, engineMatchedStop) ← self.replyLoop self.init acks
  let content ← self.flushReasoning state
  let finishReason ← self.finishContent content (engineFinishReason.getD .stop)
  emit (.genDone
    { finishReason := finishReason
      promptTokens := state.promptTokens
      completionTokens := state.completionTokens
      matchedStop := engineMatchedStop
      cachedTokens := state.cachedTokens })

end Generation

end FreeToken
