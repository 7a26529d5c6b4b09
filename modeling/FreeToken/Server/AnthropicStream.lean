/-
**The stream of the Anthropic messages.**

* `anthropic_speaks`: the stream is a stream of blocks, which keeps fragments that are not stable
  to itself.

The identifiers are drawn from `hex`, one for each block.
-/

import FreeToken.Server.StreamBlocks

namespace FreeToken

open List

open Generator (emit)

open Attempt (collect single)

/-! ### Frames -/

inductive AnthropicContentBlock where
  | text (text : Str)
  | thinking (thinking : Str)
  | toolUse (id : Str) (name : Option (Str))
  deriving DecidableEq, Repr

inductive AnthropicDelta where
  | text (text : Str)
  | thinking (thinking : Str)
  | inputJson (partialJson : Str)
  | signature (signature : Str)
  deriving DecidableEq, Repr

structure AnthropicUsage where
  inputTokens : Nat
  outputTokens : Nat
  cacheReadInputTokens : Option Nat := none
  deriving DecidableEq, Repr

inductive AnthropicStreamEvent where
  | messageStart (id model : Str) (usage : AnthropicUsage)
  | contentBlockStart (index : Nat) (contentBlock : AnthropicContentBlock)
  | contentBlockDelta (index : Nat) (delta : AnthropicDelta)
  | contentBlockStop (index : Nat)
  | ping
  | messageDelta (stopReason : Str) (stopSequence : Option (Str)) (usage : AnthropicUsage)
  | messageStop
  | error (type msg : Str)
  deriving DecidableEq, Repr

structure AnthropicStreamConfig where
  model : Str
  uid : Nat
  cacheReport : Bool := false
  hex : Nat → String
  /-- The exception for a frame that cannot be encoded. -/
  refusal : AnthropicStreamEvent → String

/-- The texts that `_event` has to encode. -/
def AnthropicStreamEvent.texts : AnthropicStreamEvent → List Str
  | messageStart id model _ => [id, model]
  | contentBlockStart _ (.text text) => [text]
  | contentBlockStart _ (.thinking thinking) => [thinking]
  | contentBlockStart _ (.toolUse id name) => [id, name.getD []]
  | contentBlockDelta _ (.text text) => [text]
  | contentBlockDelta _ (.thinking thinking) => [thinking]
  | contentBlockDelta _ (.inputJson partialJson) => [partialJson]
  | contentBlockDelta _ (.signature signature) => [signature]
  | messageDelta stopReason stopSequence _ => [stopReason, stopSequence.getD []]
  | error type msg => [type, msg]
  | contentBlockStop _ | ping | messageStop => []

def AnthropicStreamEvent.encodes (frame : AnthropicStreamEvent) : Bool :=
  decide (∀ text ∈ frame.texts, Utf8 text)

def toolUseId (hex : Nat → String) (name : Option Str) (index : Nat) : Str :=
  let name := (name.filter (· ≠ [])).getD (str "tool")
  str "toolu_" ++ (name.map fun c => if c = .scalar '_' then .scalar '-' else c).take 24 ++
    str "_" ++ str (Nat.repr index) ++ str "_" ++ (str (hex index)).take 8

theorem utf8_toolName {name : Option Str} (named : Utf8 (name.getD [])) :
    Utf8 ((((name.filter (· ≠ [])).getD (str "tool")).map fun c =>
      if c = .scalar '_' then .scalar '-' else c).take 24) := by
  refine Utf8.subset (fun c mem => ?_) (take_subset _ _)
  obtain ⟨old, isOld, rfl⟩ := mem_map.mp mem
  split
  · rfl
  · cases name with
    | none => exact utf8_str "tool" old isOld
    | some name =>
      by_cases none : name = []
      · rw [none] at isOld
        exact utf8_str "tool" old isOld
      · rw [Option.filter_some_pos (by simpa using none)] at isOld
        exact named old isOld

theorem utf8_toolUseId (hex : Nat → String) {name : Option Str} (named : Utf8 (name.getD []))
    (index : Nat) : Utf8 (toolUseId hex name index) := by
  unfold toolUseId
  simp only [utf8_append, utf8_str, true_and, and_true]
  exact ⟨utf8_toolName named, (utf8_str _).subset (take_subset _ _)⟩

def anthropicUsage (done : GenDone) (cacheReport : Bool) : AnthropicUsage :=
  let cached := if cacheReport then done.cachedTokens else 0
  { inputTokens := done.promptTokens - cached
    outputTokens := done.completionTokens
    cacheReadInputTokens := if cached = 0 then none else some cached }

/-- `STOP_REASON_MAP`. -/
def stopReason : GenFinishReason → Str
  | .engine .stop => str "end_turn"
  | .engine .length => str "max_tokens"
  | .toolCalls => str "tool_use"

/-- The stop that was matched comes from a decoded reply, so it has no surrogates. -/
def anthropicStop (done : GenDone) : Str × Option Str :=
  match done.matchedStop with
  | some matched => (str "stop_sequence", some (matched.map .scalar))
  | none => (stopReason done.finishReason, none)

def engineUnavailable : Str := str "engine_unavailable"

def isEngineFailure (code : Option Str) : Bool := code = some engineUnavailable

/-! ### The stream -/

/-- The variables of `anthropic_event_stream`. -/
structure AnthropicStream where
  blockIndex : Nat := 0
  blockOpen : Option BlockKind := none
  toolArgsSent : Str := []
  toolOrdinal : Option Int := none
  toolStable : Bool := true
  deriving DecidableEq, Repr

/-- What runs inside of the `try`. -/
abbrev AnthropicGenerator := Generator (Attempt AnthropicStreamEvent AnthropicStream)

namespace AnthropicStream

variable (cfg : AnthropicStreamConfig) (self : AnthropicStream)

/-- The frames of `_stop_block`. -/
def stopFrames : List AnthropicStreamEvent :=
  (if self.blockOpen = some .thinking then
    [.contentBlockDelta self.blockIndex (.signature [])] else []) ++
    [.contentBlockStop self.blockIndex]

def stopped : AnthropicStream := { self with blockOpen := none, blockIndex := self.blockIndex + 1 }

def stopBlock : AnthropicGenerator AnthropicStream := do
  emit (self.stopFrames.map (·, self))
  return self.stopped

def stopOpen : AnthropicGenerator AnthropicStream :=
  if self.blockOpen.isSome then self.stopBlock else pure self

/-- `_open_text` and `_open_thinking`, behind the block that was open. -/
def openBlock (kind : BlockKind) (contentBlock : AnthropicContentBlock) :
    AnthropicGenerator AnthropicStream := do
  let self ← self.stopOpen
  let self := { self with blockOpen := some kind }
  single (.contentBlockStart self.blockIndex contentBlock) self
  return self

/-- A `ReasoningDelta` or a `ContentDelta`. -/
def takeText (kind : BlockKind) (contentBlock : AnthropicContentBlock) (delta : AnthropicDelta)
    (text : Str) : AnthropicGenerator AnthropicStream :=
  if text = [] then pure self
  else do
    let self ← if self.blockOpen = some kind then pure self else self.openBlock kind contentBlock
    single (.contentBlockDelta self.blockIndex delta) self
    return self

/-- `_open_tool`. When its last frame cannot be encoded, the block that was open has been stopped,
and the frames that say so are lost. -/
def openTool (name : Option Str) (ordinal : Int) (stable : Bool) :
    AnthropicGenerator AnthropicStream := collect do
  let self ← self.stopOpen
  single (.contentBlockStart self.blockIndex
    (.toolUse (toolUseId cfg.hex name self.blockIndex) name)) self
  return { self with
    blockOpen := some .tool
    toolArgsSent := []
    toolOrdinal := some ordinal
    toolStable := stable }

def toolArgsDelta (fragment : Str) : AnthropicGenerator AnthropicStream := do
  let self := { self with toolArgsSent := self.toolArgsSent ++ fragment }
  single (.contentBlockDelta self.blockIndex (.inputJson fragment)) self
  return self

def topUp (final : Str) : AnthropicGenerator AnthropicStream :=
  if self.toolArgsSent.isPrefixOf final then
    let remainder := final.drop self.toolArgsSent.length
    if remainder ≠ [] then self.toolArgsDelta remainder else pure self
  else pure self

/-- One call of a `ToolCallsDelta`. -/
def takeCall (call : ToolCallItem CodePoint) : AnthropicGenerator AnthropicStream :=
  if self.blockOpen = some .tool ∧ self.toolOrdinal = some call.toolIndex then do
    let self ← self.topUp call.parameters
    self.stopBlock
  else do
    let self ← self.openTool cfg call.name call.toolIndex true
    let self ← self.toolArgsDelta call.parameters
    self.stopBlock

def takeCalls (self : AnthropicStream) :
    List (ToolCallItem CodePoint) → AnthropicGenerator AnthropicStream :=
  Generator.each (takeCall cfg) self

def takeEvent : GenEvent CodePoint → AnthropicGenerator AnthropicStream
  | .reasoningDelta text => self.takeText .thinking (.thinking []) (.thinking text) text
  | .contentDelta text => self.takeText .text (.text []) (.text text) text
  | .toolCallStart toolIndex name stable => self.openTool cfg name toolIndex stable
  | .toolCallArgsDelta _ fragment =>
      if self.blockOpen ≠ some .tool then pure self
      else if !self.toolStable then pure self
      else self.toolArgsDelta fragment
  | .toolCallsDelta calls => self.takeCalls cfg calls
  | .genDone done => do
      let self ← self.stopOpen
      let (reason, sequence) := anthropicStop done
      single (.messageDelta reason sequence (anthropicUsage done cfg.cacheReport)) self
      single .messageStop self
      return self

def takeItem : StreamItem → AnthropicGenerator AnthropicStream
  | .keepalive => do
      single .ping self
      return self
  | .event ev => self.takeEvent cfg ev

/-- The `except` clauses. -/
def finish : StreamEnd → AnthropicGenerator AnthropicStream
  | .exhausted => pure self
  | .generationError msg code => do
      let self ← self.stopOpen
      single (.error (if isEngineFailure code then str "api_error"
        else str "invalid_request_error") msg) self
      return self
  | .exception msg => do
      let self ← self.stopOpen
      single (.error (str "internal_error") msg) self
      return self

def adapter : StreamAdapter AnthropicStreamEvent AnthropicStream where
  opening := [.messageStart (str "msg_" ++ str (Nat.repr cfg.uid)) cfg.model ⟨0, 0, none⟩]
  initial := { }
  takeItem self := self.takeItem cfg
  finish := finish
  encodes := AnthropicStreamEvent.encodes
  refusal := cfg.refusal

end AnthropicStream

/-- The frames of one stream. -/
def anthropicEventStream (cfg : AnthropicStreamConfig) (items : List StreamItem)
    (ending : StreamEnd) : List AnthropicStreamEvent :=
  (AnthropicStream.adapter cfg).stream items ending

/-! ### What a client reads -/

namespace AnthropicContentBlock

def kind : AnthropicContentBlock → BlockKind
  | text _ => .text
  | thinking _ => .thinking
  | toolUse .. => .tool

def name : AnthropicContentBlock → Str
  | toolUse _ name => name.getD []
  | _ => []

end AnthropicContentBlock

/-- A signature adds nothing to its block. -/
def AnthropicStreamEvent.op : AnthropicStreamEvent → ClientOp
  | messageStart .. => .start
  | contentBlockStart index contentBlock => .openBlock index contentBlock.kind contentBlock.name
  | contentBlockDelta index (.text text) => .delta index .text text
  | contentBlockDelta index (.thinking thinking) => .delta index .thinking thinking
  | contentBlockDelta index (.inputJson partialJson) => .delta index .tool partialJson
  | contentBlockDelta index (.signature _) => .note index
  | contentBlockStop index => .closeBlock index
  | ping | messageDelta .. => .idle
  | messageStop | error .. => .finish

/-! ### The stream is one of blocks -/

def anthropicDialect : Dialect where
  openingNotes _ := 0
  closingNotes kind := if kind = .thinking then 1 else 0
  opening := 0
  parting := 1
  sendsUnstable := false

namespace AnthropicStream

/-- The sender of blocks that a stream is: what is known of a call counts while it is open. -/
def blocks (self : AnthropicStream) : BlockStream :=
  if self.blockOpen = some .tool then
    { index := self.blockIndex
      current := some .tool
      sent := self.toolArgsSent
      ordinal := self.toolOrdinal
      sends := self.toolStable }
  else { index := self.blockIndex, current := self.blockOpen }

abbrev SendsBlocks (comp : AnthropicGenerator AnthropicStream)
    (outcome : List ClientOp × BlockStream) : Prop :=
  Sends AnthropicStreamEvent.op blocks comp outcome

variable {cfg : AnthropicStreamConfig} {self : AnthropicStream}

theorem blocks_current : self.blocks.current = self.blockOpen := by
  unfold blocks
  split
  · rename_i isOpen
    exact isOpen.symm
  · rfl

theorem blocks_index : self.blocks.index = self.blockIndex := by
  unfold blocks
  split <;> rfl

theorem stopOpen_sends : SendsBlocks self.stopOpen (self.blocks.close anthropicDialect) := by
  obtain ⟨index, current, sent, ordinal, stable⟩ := self
  cases current with
  | none => exact ⟨rfl, _, rfl, rfl⟩
  | some kind => cases kind <;> exact ⟨rfl, _, rfl, rfl⟩

theorem stopBlock_sends (isOpen : self.blockOpen.isSome) :
    SendsBlocks self.stopBlock (self.blocks.close anthropicDialect) := by
  have sends := @stopOpen_sends self
  unfold stopOpen at sends
  rw [if_pos isOpen] at sends
  exact sends

theorem stopped_view {later : AnthropicStream}
    (isView : later.blocks = (self.blocks.close anthropicDialect).2) :
    later.blockOpen = none ∧ later.blocks = { index := later.blockIndex } := by
  have isNone : later.blockOpen = none := by
    rw [← blocks_current, isView, BlockStream.close_current]
  refine ⟨isNone, ?_⟩
  unfold blocks
  rw [isNone]
  rfl

theorem openBlock_sends (contentBlock : AnthropicContentBlock) (noName : contentBlock.name = [])
    (noTool : contentBlock.kind ≠ .tool) :
    SendsBlocks (self.openBlock contentBlock.kind contentBlock)
      (self.blocks.openBlock anthropicDialect contentBlock.kind []) := by
  refine Sends.bind (fun sender => ([.openBlock sender.index contentBlock.kind []],
    { sender with current := some contentBlock.kind })) stopOpen_sends fun later isView => ?_
  rw [(stopped_view isView).2]
  have opens : (AnthropicStreamEvent.contentBlockStart later.blockIndex contentBlock).op =
      .openBlock later.blockIndex contentBlock.kind [] :=
    congrArg (ClientOp.openBlock later.blockIndex contentBlock.kind) noName
  refine ⟨congrArg ([·]) opens, _, rfl, ?_⟩
  exact if_neg fun isTool => noTool (Option.some.inj isTool)

theorem takeText_sends (contentBlock : AnthropicContentBlock) (noName : contentBlock.name = [])
    (noTool : contentBlock.kind ≠ .tool) (delta : AnthropicDelta) (text : Str)
    (isDelta : ∀ index, (AnthropicStreamEvent.contentBlockDelta index delta).op =
      .delta index contentBlock.kind text) :
    SendsBlocks (self.takeText contentBlock.kind contentBlock delta text)
      (self.blocks.piece anthropicDialect contentBlock.kind text) := by
  unfold takeText BlockStream.piece
  rw [blocks_current]
  by_cases none : text = []
  · rw [if_pos none, if_pos none]
    exact .pure
  · rw [if_neg none, if_neg none]
    have sent : ∀ later : AnthropicStream, SendsBlocks (do
        single (.contentBlockDelta later.blockIndex delta) later
        return later) ([.delta later.blocks.index contentBlock.kind text], later.blocks) := by
      intro later
      rw [blocks_index, ← isDelta]
      exact .single .pure
    by_cases isOpen : self.blockOpen = some contentBlock.kind
    · rw [if_pos isOpen, if_pos isOpen]
      exact sent self
    · rw [if_neg isOpen, if_neg isOpen]
      exact Sends.bind (fun sender => ([.delta sender.index contentBlock.kind text], sender))
        (openBlock_sends contentBlock noName noTool) fun later _ => sent later

theorem openTool_sends (name : Option Str) (ordinal : Int) (stable : Bool) :
    SendsBlocks (self.openTool cfg name ordinal stable)
      (self.blocks.openTool anthropicDialect name ordinal stable) := by
  refine Sends.collect (Sends.bind (fun sender => ([.openBlock sender.index .tool (name.getD [])],
    { sender with
      current := some .tool
      sent := []
      ordinal := some ordinal
      sends := stable || false })) stopOpen_sends fun later isView => ?_)
  rw [Bool.or_false, (stopped_view isView).2]
  exact ⟨rfl, _, rfl, rfl⟩

theorem toolArgsDelta_sends (isOpen : self.blockOpen = some .tool) (fragment : Str) :
    SendsBlocks (self.toolArgsDelta fragment) (self.blocks.addArguments fragment) := by
  obtain ⟨index, current, sent, ordinal, stable⟩ := self
  cases isOpen
  exact .single .pure

theorem topUp_sends (isOpen : self.blockOpen = some .tool) (final : Str) :
    SendsBlocks (self.topUp final) (self.blocks.topUp final) := by
  have isSent : self.blocks.sent = self.toolArgsSent := by
    unfold blocks
    rw [if_pos isOpen]
  unfold topUp BlockStream.topUp
  rw [isSent]
  by_cases isPrefix : self.toolArgsSent.isPrefixOf final
  · rw [if_pos isPrefix]
    by_cases some_ : final.drop self.toolArgsSent.length ≠ []
    · rw [if_pos some_, if_pos ⟨isPrefix, some_⟩]
      exact toolArgsDelta_sends isOpen _
    · rw [if_neg some_, if_neg fun both => some_ both.2]
      exact .pure
  · rw [if_neg isPrefix, if_neg fun both => isPrefix both.1]
    exact .pure

theorem topUp_open (final : Str) : (self.blocks.topUp final).2.current = self.blockOpen := by
  unfold BlockStream.topUp
  split <;> exact blocks_current

theorem closes_iff (call : ToolCallItem CodePoint) :
    (self.blocks.current = some .tool ∧ self.blocks.ordinal = some call.toolIndex) ↔
      self.blockOpen = some .tool ∧ self.toolOrdinal = some call.toolIndex := by
  rw [blocks_current]
  refine and_congr_right fun isOpen => ?_
  unfold blocks
  rw [if_pos isOpen]

theorem takeCall_sends (call : ToolCallItem CodePoint) :
    SendsBlocks (self.takeCall cfg call) (self.blocks.takeCall anthropicDialect call) := by
  unfold takeCall BlockStream.takeCall
  by_cases closes : self.blockOpen = some .tool ∧ self.toolOrdinal = some call.toolIndex
  · rw [if_pos closes, if_pos ((closes_iff call).mpr closes)]
    refine Sends.bind (BlockStream.close anthropicDialect) (topUp_sends closes.1 call.parameters)
      fun later isView => stopBlock_sends ?_
    have isOpen := (congrArg BlockStream.current isView).trans (topUp_open call.parameters)
    rw [blocks_current] at isOpen
    exact Option.isSome_iff_exists.mpr ⟨.tool, isOpen.trans closes.1⟩
  · rw [if_neg closes, if_neg ((closes_iff call).not.mpr closes)]
    have sent : ∀ later : AnthropicStream, later.blockOpen = some .tool →
        SendsBlocks (later.toolArgsDelta call.parameters >>= stopBlock)
          ((later.blocks.addArguments call.parameters).1 ++
            ((later.blocks.addArguments call.parameters).2.close anthropicDialect).1,
            ((later.blocks.addArguments call.parameters).2.close anthropicDialect).2) := by
      intro later isOpen
      refine Sends.bind (BlockStream.close anthropicDialect)
        (toolArgsDelta_sends isOpen call.parameters) fun last isView => stopBlock_sends ?_
      have stillOpen := congrArg BlockStream.current isView
      rw [blocks_current] at stillOpen
      exact Option.isSome_iff_exists.mpr ⟨.tool, stillOpen.trans (blocks_current.trans isOpen)⟩
    have whole := Sends.bind (fun sender => ((sender.addArguments call.parameters).1 ++
        ((sender.addArguments call.parameters).2.close anthropicDialect).1,
        ((sender.addArguments call.parameters).2.close anthropicDialect).2))
      (@openTool_sends cfg self call.name call.toolIndex true)
      fun later isView => sent later
        (blocks_current.symm.trans (congrArg BlockStream.current isView))
    rw [← append_assoc] at whole
    exact whole

theorem takeCalls_sends (calls : List (ToolCallItem CodePoint)) :
    SendsBlocks (self.takeCalls cfg calls) (self.blocks.takeCalls anthropicDialect calls) := by
  induction calls generalizing self with
  | nil => exact .pure
  | cons call calls ih =>
    exact Sends.bind (fun sender => sender.takeCalls anthropicDialect calls)
      (takeCall_sends call) fun later _ => ih

theorem takeEvent_sends (ev : GenEvent CodePoint) :
    SendsBlocks (self.takeEvent cfg ev) (self.blocks.takeEvent anthropicDialect ev) := by
  cases ev with
  | reasoningDelta text => exact takeText_sends (.thinking []) rfl (by decide) _ text fun _ => rfl
  | contentDelta text => exact takeText_sends (.text []) rfl (by decide) _ text fun _ => rfl
  | toolCallStart toolIndex name stable => exact openTool_sends name toolIndex stable
  | toolCallArgsDelta toolIndex fragment =>
    unfold takeEvent BlockStream.takeEvent BlockStream.takeFragment
    dsimp only
    by_cases isOpen : self.blockOpen = some .tool
    · have isStable : self.blocks.sends = self.toolStable := by
        unfold blocks
        rw [if_pos isOpen]
      rw [if_neg (not_not.mpr isOpen), blocks_current, isStable]
      cases stable : self.toolStable with
      | true =>
        rw [if_neg (by decide), if_pos ⟨isOpen, rfl⟩]
        exact toolArgsDelta_sends isOpen fragment
      | false =>
        rw [if_pos (by decide), if_neg fun both => Bool.false_ne_true both.2]
        exact .pure
    · rw [if_pos isOpen, blocks_current, if_neg fun both => isOpen both.1]
      exact .pure
  | toolCallsDelta calls => exact takeCalls_sends calls
  | genDone done =>
    have whole : SendsBlocks (self.takeEvent cfg (.genDone done))
        ((self.blocks.close anthropicDialect).1 ++ [.idle, .finish],
          (self.blocks.close anthropicDialect).2) :=
      Sends.bind (fun sender => ([.idle, .finish], sender)) stopOpen_sends
        fun later _ => ⟨rfl, _, rfl, rfl⟩
    have split : (self.blocks.close anthropicDialect).1 ++ [ClientOp.idle, .finish] =
        (self.blocks.close anthropicDialect).1 ++
          replicate anthropicDialect.parting .idle ++ [.finish] :=
      (append_assoc _ [ClientOp.idle] [.finish]).symm
    rw [split] at whole
    exact whole

theorem takeItem_sends (item : StreamItem) :
    SendsBlocks (self.takeItem cfg item) (self.blocks.take anthropicDialect item) := by
  cases item with
  | keepalive => exact .single .pure
  | event ev => exact takeEvent_sends ev

theorem finish_sends (ending : StreamEnd) :
    ((self.finish ending).events.flatten.map fun frame => frame.1.op) =
      self.blocks.finish anthropicDialect ending := by
  have closed : ∀ frame : AnthropicStreamEvent, frame.op = .finish →
      ((self.stopOpen >>= fun later => single frame later >>= fun _ =>
        pure later).events.flatten.map fun frame => frame.1.op) =
        (self.blocks.close anthropicDialect).1 ++ [.finish] := by
    intro frame isFinish
    have whole : SendsBlocks (self.stopOpen >>= fun later => single frame later >>= fun _ =>
        pure later) ((self.blocks.close anthropicDialect).1 ++ [.finish],
          (self.blocks.close anthropicDialect).2) :=
      Sends.bind (fun sender => ([.finish], sender)) stopOpen_sends
        fun later _ => ⟨congrArg ([·]) isFinish, later, rfl, rfl⟩
    exact whole.frames
  cases ending with
  | exhausted => rfl
  | generationError msg code => exact closed _ rfl
  | exception msg => exact closed _ rfl

/-! ### What can be encoded -/

abbrev Safe (comp : AnthropicGenerator AnthropicStream) : Prop :=
  Attempt.Safe AnthropicStreamEvent.encodes (fun _ => True) comp

theorem encodes_iff {frame : AnthropicStreamEvent} :
    frame.encodes = true ↔ ∀ text ∈ frame.texts, Utf8 text := decide_eq_true_iff

theorem stopBlock_safe : Safe self.stopBlock := by
  refine .bind (.emit fun frame mem => ?_) fun _ _ => .pure trivial
  obtain ⟨stop, isStop, rfl⟩ := mem_map.mp mem
  rcases mem_append.mp isStop with first | last
  · split at first
    · rw [mem_singleton.mp first]
      rfl
    · cases first
  · rw [mem_singleton.mp last]
    rfl

theorem stopOpen_safe : Safe self.stopOpen := by
  unfold stopOpen
  split
  · exact stopBlock_safe
  · exact .pure trivial

theorem takeText_safe {kind : BlockKind} {contentBlock : AnthropicContentBlock}
    {delta : AnthropicDelta} (text : Str)
    (opens : ∀ index, (AnthropicStreamEvent.contentBlockStart index contentBlock).encodes = true)
    (encodes : ∀ index, (AnthropicStreamEvent.contentBlockDelta index delta).encodes = true) :
    Safe (self.takeText kind contentBlock delta text) := by
  have sent : ∀ later : AnthropicStream, Safe (do
      single (.contentBlockDelta later.blockIndex delta) later
      return later) := fun later => .bind (.single (encodes _)) fun _ _ => .pure trivial
  have opened : Safe (self.openBlock kind contentBlock) :=
    .bind stopOpen_safe fun later _ => .bind (.single (opens _)) fun _ _ => .pure trivial
  unfold takeText
  split
  · exact .pure trivial
  · split
    · exact sent self
    · exact .bind opened fun later _ => sent later

theorem openTool_safe {name : Option Str} (named : Utf8 (name.getD [])) (ordinal : Int)
    (stable : Bool) : Safe (self.openTool cfg name ordinal stable) :=
  .collect (.bind stopOpen_safe fun _ _ => .bind (.single (encodes_iff.mpr
    (utf8_pair.mpr ⟨utf8_toolUseId cfg.hex named _, named⟩))) fun _ _ => .pure trivial)

theorem toolArgsDelta_safe {fragment : Str} (encoded : Utf8 fragment) :
    Safe (self.toolArgsDelta fragment) :=
  .bind (.single (encodes_iff.mpr fun _ isText => mem_singleton.mp isText ▸ encoded))
    fun _ _ => .pure trivial

theorem takeCall_safe {call : ToolCallItem CodePoint} (named : Utf8 (call.name.getD []))
    (encoded : Utf8 call.parameters) : Safe (self.takeCall cfg call) := by
  unfold takeCall
  split
  · refine .bind (Q := fun _ => True) ?_ fun _ _ => stopBlock_safe
    unfold topUp
    split
    · dsimp only
      split
      · exact toolArgsDelta_safe (encoded.subset (drop_subset _ _))
      · exact .pure trivial
    · exact .pure trivial
  · exact .bind (openTool_safe named _ _) fun _ _ =>
      .bind (toolArgsDelta_safe encoded) fun _ _ => stopBlock_safe

theorem takeItem_safe (item : StreamItem) (encodes : item.Encodes (self.blocks.current = some .tool)) :
    Safe (self.takeItem cfg item) := by
  cases item with
  | keepalive => exact .bind (.single rfl) fun _ _ => .pure trivial
  | event ev =>
    cases ev with
    | reasoningDelta text =>
      exact takeText_safe text (fun _ => rfl) fun _ =>
        encodes_iff.mpr fun _ isText => mem_singleton.mp isText ▸ encodes
    | contentDelta text =>
      exact takeText_safe text (fun _ => rfl) fun _ =>
        encodes_iff.mpr fun _ isText => mem_singleton.mp isText ▸ encodes
    | toolCallStart toolIndex name stable => exact openTool_safe encodes _ _
    | toolCallArgsDelta toolIndex fragment =>
      show Safe (if self.blockOpen ≠ some .tool then pure self
        else if !self.toolStable then pure self else self.toolArgsDelta fragment)
      split
      · exact .pure trivial
      · rename_i isTool
        split
        · exact .pure trivial
        · exact toolArgsDelta_safe (encodes (blocks_current.trans (not_not.mp isTool)))
    | toolCallsDelta calls =>
      exact .each (fun self call mem _ =>
        takeCall_safe (encodes call mem).1 (encodes call mem).2) trivial
    | genDone done =>
      refine .bind stopOpen_safe fun later _ => .bind (.single ?_) fun _ _ =>
        .bind (.single rfl) fun _ _ => .pure trivial
      refine encodes_iff.mpr (utf8_pair.mpr ?_)
      cases done.matchedStop with
      | none =>
        refine ⟨?_, utf8_nil⟩
        rcases done.finishReason with (_ | _) | _ <;> exact utf8_str _
      | some matched => exact ⟨utf8_str _, utf8_scalars matched⟩

theorem finish_safe (ending : StreamEnd) (encodes : ending.Encodes) : Safe (self.finish ending) := by
  cases ending with
  | exhausted => exact .pure trivial
  | generationError msg code =>
    refine .bind stopOpen_safe fun later _ => .bind (.single ?_) fun _ _ => .pure trivial
    refine encodes_iff.mpr (utf8_pair.mpr ⟨?_, encodes.1⟩)
    split <;> exact utf8_str _
  | exception msg =>
    refine .bind stopOpen_safe fun later _ => .bind (.single ?_) fun _ _ => .pure trivial
    exact encodes_iff.mpr (utf8_pair.mpr ⟨utf8_str _, encodes⟩)

theorem speaks (cfg : AnthropicStreamConfig) : (adapter cfg).Speaks anthropicDialect
    AnthropicStreamEvent.op blocks fun _ => True where
  opening := rfl
  initial := ⟨rfl, trivial⟩
  takeItem _ item := takeItem_sends item
  finish _ ending := finish_sends ending
  clean _ item _ encodes := takeItem_safe item encodes
  finishClean _ ending _ encodes := finish_safe ending encodes

end AnthropicStream

end FreeToken
