/-
**The stream of the Responses protocol.**

The identifiers are drawn from `itemHex` and `callHex`, one for each item. Indices of parts, which
are all zero, and the fields of a response that never change are left out.
-/

import FreeToken.Server.AnthropicStream

namespace FreeToken

open List

open Attempt (collect single)

/-! ### Frames -/

inductive ResponseStatus where
  | inProgress | completed | incomplete | failed
  deriving DecidableEq, Repr

/-- An item of the output; an item that was just added has no text. -/
inductive ResponseItem where
  | reasoning (id : Str) (text : Option (Str)) (status : ResponseStatus)
  | message (id : Str) (text : Option (Str)) (status : ResponseStatus)
  | functionCall (id callId name arguments : Str) (status : ResponseStatus)
  deriving DecidableEq, Repr

structure ResponseUsage where
  inputTokens : Nat
  outputTokens : Nat
  totalTokens : Nat
  cachedTokens : Nat
  deriving DecidableEq, Repr

structure ResponseError where
  code : Str
  message : Str
  deriving DecidableEq, Repr

structure Response where
  id : Str
  created : Nat
  model : Str
  output : List ResponseItem
  status : ResponseStatus
  usage : Option ResponseUsage := none
  error : Option ResponseError := none
  incompleteReason : Option (Str) := none
  deriving DecidableEq, Repr

inductive ResponsesEvent where
  | created (response : Response)
  | inProgress (response : Response)
  | outputItemAdded (outputIndex : Nat) (item : ResponseItem)
  | contentPartAdded (itemId : Str) (outputIndex : Nat) (text : Str)
  | reasoningTextDelta (itemId : Str) (outputIndex : Nat) (delta : Str)
  | outputTextDelta (itemId : Str) (outputIndex : Nat) (delta : Str)
  | functionCallArgumentsDelta (itemId : Str) (outputIndex : Nat) (delta : Str)
  | reasoningTextDone (itemId : Str) (outputIndex : Nat) (text : Str)
  | outputTextDone (itemId : Str) (outputIndex : Nat) (text : Str)
  | contentPartDone (itemId : Str) (outputIndex : Nat) (text : Str)
  | functionCallArgumentsDone (itemId : Str) (outputIndex : Nat) (name arguments : Str)
  | outputItemDone (outputIndex : Nat) (item : ResponseItem)
  | completed (response : Response)
  | incomplete (response : Response)
  | failed (response : Response)
  deriving DecidableEq, Repr

structure ResponsesFrame where
  sequenceNumber : Nat
  event : ResponsesEvent
  deriving DecidableEq, Repr

structure ResponsesStreamConfig where
  responseId : String
  created : Nat
  model : Str
  cacheReport : Bool := false
  itemHex : Nat → String
  callHex : Nat → String
  /-- The exception for a frame that cannot be encoded. -/
  refusal : ResponsesFrame → String

def ResponseItem.texts : ResponseItem → List Str
  | reasoning id text _ => [id, text.getD []]
  | message id text _ => [id, text.getD []]
  | functionCall id callId name arguments _ => [id, callId, name, arguments]

def Response.texts (response : Response) : List Str :=
  [response.id, response.model, response.incompleteReason.getD []] ++
    response.error.toList.flatMap (fun error => [error.code, error.message]) ++
    response.output.flatMap ResponseItem.texts

/-- The texts that `_sse` has to encode. -/
def ResponsesEvent.texts : ResponsesEvent → List Str
  | created response | inProgress response | completed response | incomplete response
  | failed response => response.texts
  | outputItemAdded _ item | outputItemDone _ item => item.texts
  | contentPartAdded itemId _ text | reasoningTextDelta itemId _ text
  | outputTextDelta itemId _ text | functionCallArgumentsDelta itemId _ text
  | reasoningTextDone itemId _ text | outputTextDone itemId _ text
  | contentPartDone itemId _ text => [itemId, text]
  | functionCallArgumentsDone itemId _ name arguments => [itemId, name, arguments]

def ResponsesFrame.encodes (frame : ResponsesFrame) : Bool :=
  decide (∀ text ∈ frame.event.texts, Utf8 text)

/-! ### The stream -/

/-- `current`. -/
inductive CurrentItem where
  | reasoning (id text : Str)
  | message (id text : Str)
  | functionCall (id callId name args : Str) (ordinal : Int)
  deriving DecidableEq, Repr

def CurrentItem.texts : CurrentItem → List Str
  | reasoning id text | message id text => [id, text]
  | functionCall id callId name args _ => [id, callId, name, args]

/-- The variables of `responses_stream_generator`, with the next number of `seq`. -/
structure ResponsesStream where
  seq : Nat := 0
  outputItems : List ResponseItem := []
  outputIndex : Nat := 0
  current : Option CurrentItem := none
  finishReason : GenFinishReason := .engine .stop
  usagePt : Nat := 0
  usageCt : Nat := 0
  usageCached : Nat := 0
  deriving DecidableEq, Repr

/-- What runs inside of the `try`. -/
abbrev ResponsesGenerator := Generator (Attempt ResponsesFrame ResponsesStream)

namespace ResponsesStream

variable (config : ResponsesStreamConfig) (self : ResponsesStream)

def usage : ResponseUsage :=
  ⟨self.usagePt, self.usageCt, self.usagePt + self.usageCt, self.usageCached⟩

/-- `snapshot`, of the items so far. -/
def snapshot (status : ResponseStatus) (usage : Option ResponseUsage := none)
    (incompleteReason : Option (Str) := none) : Response where
  id := str config.responseId
  created := config.created
  model := config.model
  output := self.outputItems
  status := status
  usage := usage
  incompleteReason := incompleteReason

/-- `_sse(...)`, with the next number, which is taken before the frame is encoded. -/
def put (event : ResponsesEvent) : ResponsesGenerator ResponsesStream := do
  let next := { self with seq := self.seq + 1 }
  single ⟨self.seq, event⟩ next
  return next

/-- The end of `close_current`. -/
def closeItem (doneItem : ResponseItem) : ResponsesGenerator ResponsesStream := do
  let self ← self.put (.outputItemDone self.outputIndex doneItem)
  return { self with
    outputItems := self.outputItems ++ [doneItem]
    outputIndex := self.outputIndex + 1
    current := none }

/-- `close_current`. Only the last message of a run that was cut off is incomplete. -/
def closeCurrent : ResponsesGenerator ResponsesStream := collect <| match self.current with
  | none => pure self
  | some (.reasoning itemId text) => do
      let self ← self.put (.reasoningTextDone itemId self.outputIndex text)
      self.closeItem (.reasoning itemId (some text) .completed)
  | some (.message itemId text) => do
      let self ← self.put (.outputTextDone itemId self.outputIndex text)
      let self ← self.put (.contentPartDone itemId self.outputIndex text)
      self.closeItem (.message itemId (some text)
        (if self.finishReason = .engine .length then .incomplete else .completed))
  | some (.functionCall itemId callId name args _) => do
      let self ← self.put (.functionCallArgumentsDone itemId self.outputIndex name args)
      self.closeItem (.functionCall itemId callId name args .completed)

def openFunctionCall (name : Str) (ordinal : Int) : ResponsesGenerator ResponsesStream := collect do
  let self ← self.closeCurrent
  let itemId := str "fc_" ++ str (config.itemHex self.outputIndex)
  let callId := str "call_" ++ (str (config.callHex self.outputIndex)).take 24
  let self := { self with current := some (.functionCall itemId callId name [] ordinal) }
  self.put (.outputItemAdded self.outputIndex (.functionCall itemId callId name [] .inProgress))

/-- `current["args"] += fragment`, and the frame of `args_delta_frame`. -/
def addArgs (fragment : Str) : ResponsesGenerator ResponsesStream :=
  match self.current with
  | some (.functionCall itemId callId name args ordinal) =>
      ResponsesStream.put
        { self with current := some (.functionCall itemId callId name (args ++ fragment) ordinal) }
        (.functionCallArgumentsDelta itemId self.outputIndex fragment)
  | _ => pure self

/-- A `ReasoningDelta`. -/
def takeReasoning (text : Str) : ResponsesGenerator ResponsesStream :=
  if text = [] then pure self
  else
    match self.current with
    | some (.reasoning itemId old) =>
        ResponsesStream.put { self with current := some (.reasoning itemId (old ++ text)) }
          (.reasoningTextDelta itemId self.outputIndex text)
    | _ => do
        let self ← self.closeCurrent
        let itemId := str "rs_" ++ str (config.itemHex self.outputIndex)
        let self := { self with current := some (.reasoning itemId []) }
        let self ← self.put (.outputItemAdded self.outputIndex (.reasoning itemId none .inProgress))
        ResponsesStream.put { self with current := some (.reasoning itemId text) }
          (.reasoningTextDelta itemId self.outputIndex text)

/-- A `ContentDelta`. -/
def takeContent (text : Str) : ResponsesGenerator ResponsesStream :=
  if text = [] then pure self
  else
    match self.current with
    | some (.message itemId old) =>
        ResponsesStream.put { self with current := some (.message itemId (old ++ text)) }
          (.outputTextDelta itemId self.outputIndex text)
    | _ => do
        let self ← self.closeCurrent
        let itemId := str "msg_" ++ str (config.itemHex self.outputIndex)
        let self := { self with current := some (.message itemId []) }
        let self ← self.put (.outputItemAdded self.outputIndex (.message itemId none .inProgress))
        let self ← self.put (.contentPartAdded itemId self.outputIndex [])
        ResponsesStream.put { self with current := some (.message itemId text) }
          (.outputTextDelta itemId self.outputIndex text)

/-- The final arguments of the open call: what was not sent of them is sent, and they are what the
item is closed with. -/
def topUp (itemId callId name args : Str) (ordinal : Int) (final : Str) :
    ResponsesGenerator ResponsesStream := do
  let self ←
    if args.isPrefixOf final ∧ final.drop args.length ≠ [] then
      self.put (.functionCallArgumentsDelta itemId self.outputIndex (final.drop args.length))
    else pure self
  return { self with current := some (.functionCall itemId callId name final ordinal) }

def standalone (call : ToolCallItem CodePoint) : ResponsesGenerator ResponsesStream := do
  let self ← self.openFunctionCall config (call.name.getD []) call.toolIndex
  let self ← self.addArgs call.parameters
  self.closeCurrent

/-- One call of a `ToolCallsDelta`. -/
def takeCall (call : ToolCallItem CodePoint) : ResponsesGenerator ResponsesStream :=
  match self.current with
  | some (.functionCall itemId callId name args ordinal) =>
      if ordinal = call.toolIndex then do
        let self ← self.topUp itemId callId name args ordinal call.parameters
        self.closeCurrent
      else self.standalone config call
  | _ => self.standalone config call

def takeCalls (self : ResponsesStream) :
    List (ToolCallItem CodePoint) → ResponsesGenerator ResponsesStream :=
  Generator.each (takeCall config) self

/-- The `GenDone`. -/
def takeDone (done : GenDone) : ResponsesGenerator ResponsesStream := do
  let self := { self with
    finishReason := done.finishReason
    usagePt := done.promptTokens
    usageCt := done.completionTokens
    usageCached := if config.cacheReport then done.cachedTokens else 0 }
  let self ← self.closeCurrent
  if self.finishReason = .engine .length then
    self.put (.incomplete (self.snapshot config .incomplete self.usage
      (some (str "max_output_tokens"))))
  else self.put (.completed (self.snapshot config .completed self.usage))

def takeEvent : GenEvent CodePoint → ResponsesGenerator ResponsesStream
  | .reasoningDelta text => self.takeReasoning config text
  | .contentDelta text => self.takeContent config text
  | .toolCallStart toolIndex name _ => self.openFunctionCall config (name.getD []) toolIndex
  | .toolCallArgsDelta _ fragment => self.addArgs fragment
  | .toolCallsDelta calls => self.takeCalls config calls
  | .genDone done => self.takeDone config done

def takeItem : StreamItem → ResponsesGenerator ResponsesStream
  | .keepalive => self.put (.inProgress (self.snapshot config .inProgress))
  | .event ev => self.takeEvent config ev

/-- `response.failed`. -/
def fail (error : ResponseError) : ResponsesGenerator ResponsesStream := do
  let self ← self.closeCurrent
  self.put (.failed { self.snapshot config .failed self.usage with error := some error })

/-- The `except` clauses. -/
def finish : StreamEnd → ResponsesGenerator ResponsesStream
  | .exhausted => pure self
  | .generationError message code =>
      self.fail config ⟨(code.filter (· ≠ [])).getD (str "server_error"), message⟩
  | .exception message => self.fail config ⟨str "server_error", message⟩

def adapter : StreamAdapter ResponsesFrame ResponsesStream where
  opening := [⟨0, .created (snapshot config { } .inProgress)⟩,
    ⟨1, .inProgress (snapshot config { } .inProgress)⟩]
  initial := { seq := 2 }
  takeItem self := self.takeItem config
  finish self := self.finish config
  encodes := ResponsesFrame.encodes
  refusal := config.refusal

end ResponsesStream

/-- The numbered frames of one stream. -/
def responsesStreamGenerator (config : ResponsesStreamConfig) (items : List StreamItem)
    (ending : StreamEnd) : List ResponsesFrame :=
  (ResponsesStream.adapter config).stream items ending

/-! ### What a client reads -/

namespace ResponseItem

def kind : ResponseItem → BlockKind
  | reasoning .. => .thinking
  | message .. => .text
  | functionCall .. => .tool

def name : ResponseItem → Str
  | functionCall _ _ name _ _ => name
  | _ => []

end ResponseItem

/-- The texts of a block come in its deltas. -/
def ResponsesEvent.op : ResponsesEvent → ClientOp
  | created _ => .start
  | inProgress _ => .idle
  | outputItemAdded outputIndex item => .openBlock outputIndex item.kind item.name
  | contentPartAdded _ outputIndex _ => .note outputIndex
  | reasoningTextDelta _ outputIndex delta => .delta outputIndex .thinking delta
  | outputTextDelta _ outputIndex delta => .delta outputIndex .text delta
  | functionCallArgumentsDelta _ outputIndex delta => .delta outputIndex .tool delta
  | reasoningTextDone _ outputIndex _ => .note outputIndex
  | outputTextDone _ outputIndex _ => .note outputIndex
  | contentPartDone _ outputIndex _ => .note outputIndex
  | functionCallArgumentsDone _ outputIndex _ _ => .note outputIndex
  | outputItemDone outputIndex _ => .closeBlock outputIndex
  | completed _ | incomplete _ | failed _ => .finish

def ResponsesFrame.op (frame : ResponsesFrame) : ClientOp := frame.event.op

/-! ### The stream is one of blocks -/

/-- A message is opened with a part of its own, and every item is closed with its whole text. -/
def responsesDialect : Dialect where
  openingNotes kind := if kind = .text then 1 else 0
  closingNotes kind := if kind = .text then 2 else 1
  opening := 1
  parting := 0
  sendsUnstable := true

namespace ResponsesStream

def blocks (self : ResponsesStream) : BlockStream :=
  match self.current with
  | none => { index := self.outputIndex }
  | some (.reasoning ..) => { index := self.outputIndex, current := some .thinking }
  | some (.message ..) => { index := self.outputIndex, current := some .text }
  | some (.functionCall _ _ _ args ordinal) =>
      { index := self.outputIndex
        current := some .tool
        sent := args
        ordinal := some ordinal }

abbrev SendsBlocks (comp : ResponsesGenerator ResponsesStream)
    (outcome : List ClientOp × BlockStream) : Prop :=
  Sends ResponsesFrame.op blocks comp outcome

variable {config : ResponsesStreamConfig} {self : ResponsesStream}

theorem closeCurrent_sends :
    SendsBlocks self.closeCurrent (self.blocks.close responsesDialect) := by
  obtain ⟨seq, items, index, current, reason, pt, ct, cached⟩ := self
  cases current with
  | none => exact ⟨rfl, _, rfl, rfl⟩
  | some current => cases current <;> exact ⟨rfl, _, rfl, rfl⟩

theorem closed_view {later : ResponsesStream}
    (isView : later.blocks = (self.blocks.close responsesDialect).2) :
    later.current = none ∧ later.blocks = { index := later.outputIndex } := by
  have isNone : later.blocks.current = none := by rw [isView, BlockStream.close_current]
  obtain ⟨seq, items, index, current, reason, pt, ct, cached⟩ := later
  cases current with
  | none => exact ⟨rfl, rfl⟩
  | some current => cases current <;> cases isNone

theorem openFunctionCall_sends (name : Option (Str)) (ordinal : Int) (stable : Bool) :
    SendsBlocks (self.openFunctionCall config (name.getD []) ordinal)
      (self.blocks.openTool responsesDialect name ordinal stable) := by
  refine Sends.collect (Sends.bind (fun sender => ([.openBlock sender.index .tool (name.getD [])],
    { sender with
      current := some .tool
      sent := []
      ordinal := some ordinal
      sends := stable || true })) closeCurrent_sends fun later isView => ?_)
  rw [Bool.or_true, (closed_view isView).2]
  exact ⟨rfl, _, rfl, rfl⟩

theorem addArgs_sends (fragment : Str) :
    SendsBlocks (self.addArgs fragment) (self.blocks.takeFragment fragment) := by
  obtain ⟨seq, items, index, current, reason, pt, ct, cached⟩ := self
  cases current with
  | none => exact ⟨rfl, _, rfl, rfl⟩
  | some current => cases current <;> exact ⟨rfl, _, rfl, rfl⟩

theorem takeReasoning_sends (text : Str) : SendsBlocks (self.takeReasoning config text)
      (self.blocks.piece responsesDialect .thinking text) := by
  unfold takeReasoning BlockStream.piece
  by_cases none : text = []
  · rw [if_pos none, if_pos none]
    exact .pure
  · rw [if_neg none, if_neg none]
    obtain ⟨seq, items, index, current, reason, pt, ct, cached⟩ := self
    cases current with
    | none => exact ⟨rfl, _, rfl, rfl⟩
    | some current => cases current <;> exact ⟨rfl, _, rfl, rfl⟩

theorem takeContent_sends (text : Str) : SendsBlocks (self.takeContent config text)
      (self.blocks.piece responsesDialect .text text) := by
  unfold takeContent BlockStream.piece
  by_cases none : text = []
  · rw [if_pos none, if_pos none]
    exact .pure
  · rw [if_neg none, if_neg none]
    obtain ⟨seq, items, index, current, reason, pt, ct, cached⟩ := self
    cases current with
    | none => exact ⟨rfl, _, rfl, rfl⟩
    | some current => cases current <;> exact ⟨rfl, _, rfl, rfl⟩

theorem standalone_sends (call : ToolCallItem CodePoint) : SendsBlocks (self.standalone config call)
      (let (ops, sender) := self.blocks.openTool responsesDialect call.name call.toolIndex true
        let (arguments, sender) := sender.addArguments call.parameters
        let (closing, sender) := sender.close responsesDialect
        (ops ++ arguments ++ closing, sender)) := by
  have sent : ∀ later : ResponsesStream, later.blocks.current = some .tool →
      later.blocks.sends = true →
      SendsBlocks (later.addArgs call.parameters >>= closeCurrent)
        ((later.blocks.addArguments call.parameters).1 ++
          ((later.blocks.addArguments call.parameters).2.close responsesDialect).1,
          ((later.blocks.addArguments call.parameters).2.close responsesDialect).2) := by
    intro later isOpen sends
    have fragment : later.blocks.takeFragment call.parameters =
        later.blocks.addArguments call.parameters := if_pos ⟨isOpen, sends⟩
    rw [← fragment]
    exact Sends.bind (BlockStream.close responsesDialect) (addArgs_sends call.parameters)
      fun last _ => closeCurrent_sends
  have whole := Sends.bind (fun sender => ((sender.addArguments call.parameters).1 ++
      ((sender.addArguments call.parameters).2.close responsesDialect).1,
      ((sender.addArguments call.parameters).2.close responsesDialect).2))
    (@openFunctionCall_sends config self call.name call.toolIndex true)
    fun later isView => sent later (congrArg BlockStream.current isView)
      (congrArg BlockStream.sends isView)
  rw [← append_assoc] at whole
  exact whole

theorem topUp_sends {seq index pt ct cached : Nat} {items : List ResponseItem}
    {reason : GenFinishReason} (itemId callId name args final : Str) (ordinal : Int) :
    let self : ResponsesStream := ⟨seq, items, index,
      some (.functionCall itemId callId name args ordinal), reason, pt, ct, cached⟩
    SendsBlocks (self.topUp itemId callId name args ordinal final >>= closeCurrent)
      ((self.blocks.topUp final).1 ++ ((self.blocks.topUp final).2.close responsesDialect).1,
        ((self.blocks.topUp final).2.close responsesDialect).2) := by
  intro self
  have isSent : self.blocks.sent = args := rfl
  unfold topUp BlockStream.topUp
  by_cases rest : args.isPrefixOf final ∧ final.drop args.length ≠ []
  · rw [if_pos rest, isSent, if_pos rest]
    exact ⟨rfl, _, rfl, rfl⟩
  · rw [if_neg rest, isSent, if_neg rest]
    exact ⟨rfl, _, rfl, rfl⟩

theorem takeCall_sends (call : ToolCallItem CodePoint) :
    SendsBlocks (self.takeCall config call) (self.blocks.takeCall responsesDialect call) := by
  have apart := @standalone_sends config self call
  unfold BlockStream.takeCall
  obtain ⟨seq, items, index, current, reason, pt, ct, cached⟩ := self
  cases current with
  | none => exact apart
  | some current =>
    cases current with
    | reasoning itemId text => exact apart
    | message itemId text => exact apart
    | functionCall itemId callId name args ordinal =>
      unfold takeCall
      dsimp only
      by_cases same : ordinal = call.toolIndex
      · rw [if_pos same, if_pos ⟨rfl, congrArg some same⟩]
        exact topUp_sends itemId callId name args call.parameters ordinal
      · rw [if_neg same, if_neg fun both => same (Option.some.inj both.2)]
        exact apart

theorem takeCalls_sends (calls : List (ToolCallItem CodePoint)) :
    SendsBlocks (self.takeCalls config calls) (self.blocks.takeCalls responsesDialect calls) := by
  induction calls generalizing self with
  | nil => exact .pure
  | cons call calls ih =>
    exact Sends.bind (fun sender => sender.takeCalls responsesDialect calls)
      (takeCall_sends call) fun later _ => ih

theorem takeDone_sends (done : GenDone) : SendsBlocks (self.takeDone config done)
      ((self.blocks.close responsesDialect).1 ++ [.finish],
        (self.blocks.close responsesDialect).2) := by
  let finishing : ResponsesStream := { self with
    finishReason := done.finishReason
    usagePt := done.promptTokens
    usageCt := done.completionTokens
    usageCached := if config.cacheReport then done.cachedTokens else 0 }
  refine Sends.bind (fun sender => ([ClientOp.finish], sender))
    (@closeCurrent_sends finishing) fun later _ => ?_
  by_cases cutOff : later.finishReason = .engine .length
  · rw [if_pos cutOff]
    exact ⟨rfl, _, rfl, rfl⟩
  · rw [if_neg cutOff]
    exact ⟨rfl, _, rfl, rfl⟩

theorem takeEvent_sends (ev : GenEvent CodePoint) :
    SendsBlocks (self.takeEvent config ev) (self.blocks.takeEvent responsesDialect ev) := by
  cases ev with
  | reasoningDelta text => exact takeReasoning_sends text
  | contentDelta text => exact takeContent_sends text
  | toolCallStart toolIndex name stable => exact openFunctionCall_sends name toolIndex stable
  | toolCallArgsDelta toolIndex fragment => exact addArgs_sends fragment
  | toolCallsDelta calls => exact takeCalls_sends calls
  | genDone done =>
    unfold BlockStream.takeEvent
    dsimp only
    rw [show responsesDialect.parting = 0 from rfl, replicate_zero, append_nil]
    exact takeDone_sends done

theorem takeItem_sends (item : StreamItem) :
    SendsBlocks (self.takeItem config item) (self.blocks.take responsesDialect item) := by
  cases item with
  | keepalive => exact ⟨rfl, _, rfl, rfl⟩
  | event ev => exact takeEvent_sends ev

theorem fail_sends (error : ResponseError) :
    SendsBlocks (self.fail config error) ((self.blocks.close responsesDialect).1 ++ [.finish],
      (self.blocks.close responsesDialect).2) :=
  Sends.bind (fun sender => ([.finish], sender)) closeCurrent_sends
    fun _ _ => ⟨rfl, _, rfl, rfl⟩

theorem finish_sends (ending : StreamEnd) :
    ((self.finish config ending).events.flatten.map fun frame => frame.1.op) =
      self.blocks.finish responsesDialect ending := by
  cases ending with
  | exhausted => rfl
  | generationError message code => exact (fail_sends _).frames
  | exception message => exact (fail_sends _).frames

/-! ### What can be encoded -/

/-- The items and the current one can be encoded. -/
structure Clean (stream : ResponsesStream) : Prop where
  items : ∀ item ∈ stream.outputItems, ∀ text ∈ item.texts, Utf8 text
  current : ∀ item ∈ stream.current, ∀ text ∈ item.texts, Utf8 text

abbrev Safe (comp : ResponsesGenerator ResponsesStream) : Prop :=
  Attempt.Safe ResponsesFrame.encodes Clean comp

theorem Clean.set (clean : self.Clean) {current : CurrentItem}
    (encodes : ∀ text ∈ current.texts, Utf8 text) :
    Clean { self with current := some current } :=
  ⟨clean.items, fun _ same => Option.some.inj same ▸ encodes⟩

theorem put_safe (clean : self.Clean) {event : ResponsesEvent}
    (encodes : ∀ text ∈ event.texts, Utf8 text) : Safe (self.put event) :=
  .bind (.single (decide_eq_true encodes)) fun _ _ => .pure ⟨clean.items, clean.current⟩

theorem closeItem_safe (clean : self.Clean) {item : ResponseItem}
    (encodes : ∀ text ∈ item.texts, Utf8 text) : Safe (self.closeItem item) :=
  .bind (put_safe clean encodes) fun _ later => .pure
    ⟨forall_mem_append.mpr ⟨later.items, fun _ isLast => mem_singleton.mp isLast ▸ encodes⟩,
      fun _ none => absurd none (by simp)⟩

theorem closeCurrent_safe (clean : self.Clean) : Safe self.closeCurrent := by
  refine .collect ?_
  have encodes := clean.current
  obtain ⟨seq, items, index, current, reason, pt, ct, cached⟩ := self
  cases current with
  | none => exact .pure clean
  | some current =>
    have encodes := encodes current rfl
    cases current with
    | reasoning itemId text =>
      exact .bind (put_safe clean encodes) fun _ later => closeItem_safe later encodes
    | message itemId text =>
      exact .bind (put_safe clean encodes) fun _ later =>
        .bind (put_safe later encodes) fun _ last => closeItem_safe last encodes
    | functionCall itemId callId name args ordinal =>
      have parts : Utf8 itemId ∧ Utf8 callId ∧ Utf8 name ∧ Utf8 args := by
        simpa [CurrentItem.texts] using encodes
      refine .bind (put_safe clean ?_) fun _ later => closeItem_safe later encodes
      simpa [ResponsesEvent.texts] using ⟨parts.1, parts.2.2⟩

theorem openFunctionCall_safe (clean : self.Clean) {name : Str} (named : Utf8 name)
    (ordinal : Int) : Safe (self.openFunctionCall config name ordinal) := by
  refine .collect (.bind (closeCurrent_safe clean) fun later laterClean => ?_)
  have encodes : ∀ text ∈ [str "fc_" ++ str (config.itemHex later.outputIndex),
      str "call_" ++ (str (config.callHex later.outputIndex)).take 24, name, []], Utf8 text := by
    simp [named, (utf8_str (config.callHex later.outputIndex)).subset (take_subset _ _)]
  exact put_safe (laterClean.set (show ∀ text ∈ (CurrentItem.functionCall _ _ name [] ordinal).texts,
    Utf8 text from encodes)) encodes

theorem addArgs_safe (clean : self.Clean) {fragment : Str} (encoded : Utf8 fragment) :
    Safe (self.addArgs fragment) := by
  have encodes := clean.current
  unfold addArgs
  split
  · rename_i itemId callId name args ordinal isCurrent
    obtain ⟨isId, isCall, isName, isArgs⟩ : Utf8 itemId ∧ Utf8 callId ∧ Utf8 name ∧ Utf8 args := by
      simpa [CurrentItem.texts] using encodes _ isCurrent
    refine put_safe (clean.set ?_) (utf8_pair.mpr ⟨isId, encoded⟩)
    simp [CurrentItem.texts, isId, isCall, isName, isArgs, encoded]
  · exact .pure clean

theorem takeReasoning_safe (clean : self.Clean) {text : Str} (encoded : Utf8 text) :
    Safe (self.takeReasoning config text) := by
  have encodes := clean.current
  unfold takeReasoning
  split
  · exact .pure clean
  · split
    · rename_i itemId old isCurrent
      obtain ⟨isId, isOld⟩ := utf8_pair.mp (encodes _ isCurrent)
      have longer : ∀ part ∈ (CurrentItem.reasoning itemId (old ++ text)).texts, Utf8 part :=
        utf8_pair.mpr ⟨isId, utf8_append.mpr ⟨isOld, encoded⟩⟩
      exact put_safe (clean.set longer) (utf8_pair.mpr ⟨isId, encoded⟩)
    · refine .bind (closeCurrent_safe clean) fun later laterClean => ?_
      have isId : Utf8 (str "rs_" ++ str (config.itemHex later.outputIndex)) := by simp
      have none : ∀ part ∈ (CurrentItem.reasoning _ []).texts, Utf8 part :=
        utf8_pair.mpr ⟨isId, utf8_nil⟩
      have some_ : ∀ part ∈ (CurrentItem.reasoning _ text).texts, Utf8 part :=
        utf8_pair.mpr ⟨isId, encoded⟩
      exact .bind (put_safe (laterClean.set none) none) fun _ lastClean =>
        put_safe (lastClean.set some_) some_

theorem takeContent_safe (clean : self.Clean) {text : Str} (encoded : Utf8 text) :
    Safe (self.takeContent config text) := by
  have encodes := clean.current
  unfold takeContent
  split
  · exact .pure clean
  · split
    · rename_i itemId old isCurrent
      obtain ⟨isId, isOld⟩ := utf8_pair.mp (encodes _ isCurrent)
      have longer : ∀ part ∈ (CurrentItem.message itemId (old ++ text)).texts, Utf8 part :=
        utf8_pair.mpr ⟨isId, utf8_append.mpr ⟨isOld, encoded⟩⟩
      exact put_safe (clean.set longer) (utf8_pair.mpr ⟨isId, encoded⟩)
    · refine .bind (closeCurrent_safe clean) fun later laterClean => ?_
      have isId : Utf8 (str "msg_" ++ str (config.itemHex later.outputIndex)) := by simp
      have none : ∀ part ∈ (CurrentItem.message _ []).texts, Utf8 part :=
        utf8_pair.mpr ⟨isId, utf8_nil⟩
      have some_ : ∀ part ∈ (CurrentItem.message _ text).texts, Utf8 part :=
        utf8_pair.mpr ⟨isId, encoded⟩
      exact .bind (put_safe (laterClean.set none) none) fun _ nextClean =>
        .bind (put_safe nextClean none) fun _ lastClean => put_safe (lastClean.set some_) some_

theorem takeCall_safe (clean : self.Clean) {call : ToolCallItem CodePoint}
    (named : Utf8 (call.name.getD [])) (encoded : Utf8 call.parameters) :
    Safe (self.takeCall config call) := by
  have encodes := clean.current
  have apart : Safe (self.standalone config call) :=
    .bind (openFunctionCall_safe clean named _) fun _ opened =>
      .bind (addArgs_safe opened encoded) fun _ filled => closeCurrent_safe filled
  unfold takeCall
  split
  · rename_i itemId callId name args ordinal isCurrent
    obtain ⟨isId, isCall, isName, isArgs⟩ : Utf8 itemId ∧ Utf8 callId ∧ Utf8 name ∧ Utf8 args := by
      simpa [CurrentItem.texts] using encodes _ isCurrent
    have final : ∀ text ∈
        (CurrentItem.functionCall itemId callId name call.parameters ordinal).texts,
        Utf8 text := by
      simp [CurrentItem.texts, isId, isCall, isName, encoded]
    split
    · refine .bind (Q := Clean) ?_ fun _ filled => closeCurrent_safe filled
      unfold topUp
      split
      · exact .bind (put_safe clean (utf8_pair.mpr
          ⟨isId, encoded.subset (drop_subset _ _)⟩)) fun _ later => .pure (later.set final)
      · exact .pure (clean.set final)
    · exact apart
  · exact apart

theorem snapshot_encodes (clean : self.Clean) (model : Utf8 config.model)
    (status : ResponseStatus) (usage : Option ResponseUsage) (reason : Option Str)
    (encoded : Utf8 (reason.getD [])) {error : Option ResponseError}
    (failed : ∀ failure ∈ error, Utf8 failure.code ∧ Utf8 failure.message) :
    ∀ text ∈ Response.texts { self.snapshot config status usage reason with error := error },
      Utf8 text := by
  refine forall_mem_append.mpr ⟨forall_mem_append.mpr ⟨?_, ?_⟩, ?_⟩
  · simp [snapshot, model, encoded]
  · rintro text isText
    obtain ⟨failure, isFailure, isPart⟩ := mem_flatMap.mp isText
    exact utf8_pair.mpr (failed failure (Option.mem_toList.mp isFailure)) text isPart
  · rintro text isText
    obtain ⟨item, isItem, isPart⟩ := mem_flatMap.mp isText
    exact clean.items item isItem text isPart

theorem takeDone_safe (clean : self.Clean) (model : Utf8 config.model) (done : GenDone) :
    Safe (self.takeDone config done) := by
  refine .bind (closeCurrent_safe ⟨clean.items, clean.current⟩) fun later laterClean => ?_
  split
  · exact put_safe laterClean (snapshot_encodes laterClean model _ _ (some _) (utf8_str _)
      fun _ none => absurd none (by simp))
  · exact put_safe laterClean (snapshot_encodes laterClean model _ _ none utf8_nil
      fun _ none => absurd none (by simp))

theorem takeItem_safe (clean : self.Clean) (model : Utf8 config.model) (item : StreamItem)
    (encodes : item.Encodes (self.blocks.current = some .tool)) :
    Safe (self.takeItem config item) := by
  cases item with
  | keepalive =>
    exact put_safe clean (snapshot_encodes clean model _ _ none utf8_nil
      fun _ none => absurd none (by simp))
  | event ev =>
    cases ev with
    | reasoningDelta text => exact takeReasoning_safe clean encodes
    | contentDelta text => exact takeContent_safe clean encodes
    | toolCallStart toolIndex name stable => exact openFunctionCall_safe clean encodes _
    | toolCallArgsDelta toolIndex fragment =>
      show Safe (self.addArgs fragment)
      by_cases isTool : self.blocks.current = some .tool
      · exact addArgs_safe clean (encodes isTool)
      · unfold addArgs
        split
        · rename_i isCurrent
          refine absurd ?_ isTool
          unfold blocks
          rw [isCurrent]
        · exact .pure clean
    | toolCallsDelta calls =>
      exact .each (fun self call mem clean =>
        takeCall_safe clean (encodes call mem).1 (encodes call mem).2) clean
    | genDone done => exact takeDone_safe clean model done

theorem finish_safe (clean : self.Clean) (model : Utf8 config.model) (ending : StreamEnd)
    (encodes : ending.Encodes) :
    Attempt.Safe ResponsesFrame.encodes (fun _ => True) (self.finish config ending) := by
  have failing : ∀ error : ResponseError, Utf8 error.code ∧ Utf8 error.message →
      Attempt.Safe ResponsesFrame.encodes (fun _ => True) (self.fail config error) := by
    intro error encodes
    refine .bind (closeCurrent_safe clean) fun later laterClean => ?_
    have failed : ∀ text ∈ (ResponsesEvent.failed
        { later.snapshot config .failed later.usage with error := some error }).texts,
        Utf8 text := snapshot_encodes laterClean model .failed later.usage none utf8_nil
      fun _ same => Option.some.inj same ▸ encodes
    exact ⟨(put_safe laterClean failed).frames, fun _ _ => trivial⟩
  cases ending with
  | exhausted => exact .pure trivial
  | generationError message code =>
    refine failing _ ⟨?_, encodes.1⟩
    cases code with
    | none => exact utf8_str _
    | some code =>
      by_cases none : code = []
      · rw [none]
        exact utf8_str _
      · rw [Option.filter_some_pos (by simpa using none)]
        exact encodes.2
  | exception message => exact failing _ ⟨utf8_str _, encodes⟩

/-- The stream is a stream of blocks, which sends all fragments. -/
theorem speaks {config : ResponsesStreamConfig} (model : Utf8 config.model) :
    (adapter config).Speaks responsesDialect ResponsesFrame.op blocks Clean where
  opening := rfl
  initial := ⟨rfl, nofun, fun _ none => by cases none⟩
  takeItem _ item := takeItem_sends item
  finish _ ending := finish_sends ending
  clean _ item clean encodes := takeItem_safe clean model item encodes
  finishClean _ ending clean encodes := finish_safe clean model ending encodes

/-- Behind a fragment that cannot be encoded, the `except` clause cannot close the item. -/
theorem stuck (ordinal : Nat) {fragment : Str} (isTool : self.blocks.current = some .tool)
    (broken : ¬Utf8 fragment) : ∃ frame later,
      (self.takeItem config (.event (.toolCallArgsDelta ordinal fragment))).events =
        [[(frame, later)]] ∧ frame.encodes = false ∧
      ∀ message, (Attempt.yielded ResponsesFrame.encodes
        (later.finish config (.exception message)).events).1 = [] := by
  obtain ⟨seq, items, index, current, reason, pt, ct, cached⟩ := self
  rcases current with _ | _ | _ | ⟨itemId, callId, name, args, callOrdinal⟩
  · cases isTool
  · cases isTool
  · cases isTool
  · refine ⟨_, _, rfl, ?_, fun message => ?_⟩
    · refine decide_eq_false fun encodes => broken ?_
      exact (utf8_pair.mp encodes).2
    · have raises : ResponsesFrame.encodes ⟨seq + 1,
          .functionCallArgumentsDone itemId index name (args ++ fragment)⟩ = false := by
        refine decide_eq_false fun encodes => broken ?_
        have closing := encodes (args ++ fragment) (by simp [ResponsesEvent.texts])
        exact (utf8_append.mp closing).2
      exact congrArg Prod.fst (Attempt.yielded_refused raises _ _)

end ResponsesStream

end FreeToken
