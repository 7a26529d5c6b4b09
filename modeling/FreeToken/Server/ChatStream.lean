/-
**The stream of the chat completions.**

The identifiers are drawn from `hex`, one for each call.
-/

import FreeToken.Server.AnthropicStream

namespace FreeToken

open List Option

open Generator (emit emitIf lift)

/-! ### Frames -/

inductive ChatDelta where
  | role
  | reasoningContent (text : Str)
  | content (text : Str)
  | toolCall (index : Nat) (id : Str) (name : Option (Str)) (arguments : Str)
  | toolArguments (index : Nat) (arguments : Str)
  | empty
  deriving DecidableEq, Repr

structure ChatUsage where
  promptTokens : Nat
  completionTokens : Nat
  totalTokens : Nat
  /-- `prompt_tokens_details`. -/
  cachedTokens : Option Nat
  deriving DecidableEq, Repr

inductive ChatFrame where
  | chunk (id model : Str) (delta : ChatDelta) (finishReason : Option GenFinishReason)
  | usage (id model : Str) (usage : ChatUsage)
  | error (msg type : Str) (code : Option (Str))
  | comment
  /-- `[DONE]`. -/
  | done
  deriving DecidableEq, Repr

def ChatDelta.texts : ChatDelta → List Str
  | role | empty => []
  | reasoningContent text | content text => [text]
  | toolCall _ id name arguments => [id, name.getD [], arguments]
  | toolArguments _ arguments => [arguments]

/-- The texts that `_sse` has to encode. -/
def ChatFrame.texts : ChatFrame → List Str
  | chunk id model delta _ => id :: model :: delta.texts
  | usage id model _ => [id, model]
  | error msg type code => [msg, type, code.getD []]
  | comment | done => []

def ChatFrame.encodes (frame : ChatFrame) : Bool := decide (∀ text ∈ frame.texts, Utf8 text)

structure ChatStreamConfig where
  model : Str
  uid : Nat
  includeUsage : Bool := false
  cacheReport : Bool := false
  hex : Nat → String

def toolCallId (hex : Nat → String) (name : Option Str) (index : Nat) : Str :=
  let name := (name.filter (· ≠ [])).getD (str "tool")
  str "call_" ++ (name.map fun c => if c = .scalar '_' then .scalar '-' else c).take 24 ++
    str "_" ++ str (Nat.repr index) ++ str "_" ++ (str (hex index)).take 8

theorem utf8_toolCallId (hex : Nat → String) {name : Option Str} (named : Utf8 (name.getD []))
    (index : Nat) : Utf8 (toolCallId hex name index) := by
  unfold toolCallId
  simp only [utf8_append, utf8_str, true_and, and_true]
  exact ⟨utf8_toolName named, (utf8_str _).subset (take_subset _ _)⟩

def toolCallDeltas (hex : Nat → String) (startIndex : Nat) : List (ToolCallItem CodePoint) → List ChatDelta
  | [] => []
  | call :: calls =>
      .toolCall startIndex (toolCallId hex call.name startIndex) call.name [] ::
        .toolArguments startIndex call.parameters :: toolCallDeltas hex (startIndex + 1) calls

def generationErrorType (code : Option (Str)) : Str :=
  if isEngineFailure code then str "server_error" else str "invalid_request_error"

/-- `_usage`. -/
def chatUsage (promptTokens completionTokens cachedTokens : Nat) : ChatUsage where
  promptTokens := promptTokens
  completionTokens := completionTokens
  totalTokens := promptTokens + completionTokens
  cachedTokens := if cachedTokens > 0 then some cachedTokens else none

/-! ### The stream -/

structure OpenTool where
  index : Nat
  ordinal : Int
  sent : Str := []
  stable : Bool
  deriving DecidableEq, Repr

/-- The variables of `stream_chat_completion_chunks`. -/
structure ChatStream where
  promptTokens : Nat := 0
  completionTokens : Nat := 0
  cachedTokens : Nat := 0
  toolCallsSent : Nat := 0
  openTool : Option OpenTool := none
  deriving DecidableEq, Repr

namespace ChatStream

variable (cfg : ChatStreamConfig) (self : ChatStream)

def chunk (delta : ChatDelta) (finishReason : Option GenFinishReason := none) : ChatFrame :=
  .chunk (str "chatcmpl-" ++ str (Nat.repr cfg.uid)) cfg.model delta finishReason

/-- A `ToolCallStart`. -/
def takeStart (name : Option (Str)) (ordinal : Int) (stable : Bool) :
    Generator ChatFrame ChatStream := do
  let tool : OpenTool := { index := self.toolCallsSent, ordinal := ordinal, stable := stable }
  emit (chunk cfg (.toolCall tool.index (toolCallId cfg.hex name tool.index) name []))
  return { self with openTool := some tool }

/-- A `ToolCallArgsDelta`. -/
def takeFragment (fragment : Str) : Generator ChatFrame ChatStream :=
  match self.openTool with
  | some tool =>
      if tool.stable ∧ fragment ≠ [] then do
        emit (chunk cfg (.toolArguments tool.index fragment))
        return { self with openTool := some { tool with sent := tool.sent ++ fragment } }
      else pure self
  | none => pure self

def remainder (sent final : Str) : Str :=
  if sent.isPrefixOf final then final.drop sent.length
  else if sent = [] then final
  else []

def closeTool (tool : OpenTool) (final : Str) : Generator ChatFrame ChatStream := do
  emitIf (remainder tool.sent final ≠ [])
    (chunk cfg (.toolArguments tool.index (remainder tool.sent final)))
  return { self with openTool := none, toolCallsSent := self.toolCallsSent + 1 }

def emitDeltas : List ChatDelta → Generator ChatFrame Unit
  | [] => pure ()
  | delta :: deltas => do
      emit (chunk cfg delta)
      emitDeltas deltas

def standalone (call : ToolCallItem CodePoint) : Generator ChatFrame ChatStream := do
  emitDeltas cfg (toolCallDeltas cfg.hex self.toolCallsSent [call])
  return { self with toolCallsSent := self.toolCallsSent + 1 }

/-- One call of a `ToolCallsDelta`. -/
def takeCall (call : ToolCallItem CodePoint) : Generator ChatFrame ChatStream :=
  match self.openTool with
  | some tool =>
      if tool.ordinal = call.toolIndex then self.closeTool cfg tool call.parameters
      else self.standalone cfg call
  | none => self.standalone cfg call

def takeCalls (self : ChatStream) :
    List (ToolCallItem CodePoint) → Generator ChatFrame ChatStream :=
  Generator.each (takeCall cfg) self

/-- The `GenDone`. -/
def takeDone (done : GenDone) : Generator ChatFrame ChatStream := do
  emit (chunk cfg .empty (some done.finishReason))
  return { self with
    promptTokens := done.promptTokens
    completionTokens := done.completionTokens
    cachedTokens := done.cachedTokens }

def takeEvent : GenEvent CodePoint → Generator ChatFrame ChatStream
  | .reasoningDelta text => do
      emit (chunk cfg (.reasoningContent text))
      return self
  | .contentDelta text => do
      emit (chunk cfg (.content text))
      return self
  | .toolCallStart toolIndex name stable => self.takeStart cfg name toolIndex stable
  | .toolCallArgsDelta _ fragment => self.takeFragment cfg fragment
  | .toolCallsDelta calls => self.takeCalls cfg calls
  | .genDone done => self.takeDone cfg done

def takeItem : StreamItem → Generator ChatFrame ChatStream
  | .keepalive => do
      emit .comment
      return self
  | .event ev => self.takeEvent cfg ev

def conclude : Generator ChatFrame Unit := do
  let cached := if cfg.cacheReport then self.cachedTokens else 0
  emitIf cfg.includeUsage (.usage (str "chatcmpl-" ++ str (Nat.repr cfg.uid))
    cfg.model (chatUsage self.promptTokens self.completionTokens cached))
  emit .done

/-- An exception that is not a `GenerationError` is not caught. -/
def finish : StreamEnd → Generator ChatFrame Unit
  | .exhausted => self.conclude cfg
  | .generationError msg code => do
      emit (.error msg (generationErrorType code) code)
      self.conclude cfg
  | .exception _ => lift none

end ChatStream

/-- The chunks, before they are encoded. -/
def chatCompletionChunks (cfg : ChatStreamConfig) (items : List StreamItem)
    (ending : StreamEnd) : Generator ChatFrame Unit := do
  emit (ChatStream.chunk cfg .role)
  let self ← Generator.each (ChatStream.takeItem cfg) { } items
  self.finish cfg ending

/-- Every chunk is encoded when it is yielded, and an exception there is caught nowhere. -/
def streamChatCompletionChunks (cfg : ChatStreamConfig) (items : List StreamItem)
    (ending : StreamEnd) : List ChatFrame :=
  (chatCompletionChunks cfg items ending).events.takeWhile ChatFrame.encodes

/-! ### The client -/

/-- The deltas of a call come under the index that was opened last. -/
structure ChatClient where
  started : Bool := false
  recovered : Recovered := { }
  ended : Bool := false
  deriving DecidableEq, Repr

variable (client : ChatClient)

namespace ChatClient

/-- A call has the next index, and its deltas the index that was opened last. -/
def takeDelta : ChatDelta → Option ChatClient
  | .role => none
  | .reasoningContent text => some { client with
      recovered.reasoning := client.recovered.reasoning ++ text }
  | .content text => some { client with recovered.content := client.recovered.content ++ text }
  | .toolCall index _ name arguments =>
      if index = client.recovered.calls.length then some { client with
        recovered := (client.recovered.openCall (name.getD [])).addArguments arguments }
      else none
  | .toolArguments index arguments =>
      if index + 1 = client.recovered.calls.length then some { client with
        recovered := client.recovered.addArguments arguments }
      else none
  | .empty => some client

def act : ChatFrame → Option ChatClient
  | .chunk _ _ delta _ => client.takeDelta delta
  | .done => some { client with ended := true }
  | _ => some client

def step (frame : ChatFrame) : Option ChatClient :=
  if client.ended then none
  else if client.started then client.act frame
  else
    match frame with
    | .chunk _ _ .role _ => some { client with started := true }
    | _ => none

def read (frames : List ChatFrame) : Option ChatClient := frames.foldlM step { }

def Satisfied (frames : List ChatFrame) (script : StreamTranscript) : Prop :=
  ∃ client, read frames = some client ∧ client.ended = true ∧ client.recovered.Of script

theorem read_concat {seen : List ChatFrame} {client later : ChatClient} {frame : ChatFrame}
    (pre : read seen = some client) (started : client.started = true)
    (running : client.ended = false) (acted : client.act frame = some later) :
    read (seen ++ [frame]) = some later := by
  have stepped : client.step frame = some later := by
    unfold step
    rw [running, started, if_neg Bool.false_ne_true, if_pos rfl, acted]
  unfold read at pre ⊢
  rw [foldlM_append, pre]
  show client.step frame >>= pure = _
  rw [stepped]
  rfl

end ChatClient

/-! ### The client follows the stream -/

variable (call : StartedCall)

namespace ChatStream

def streamed : Str := if call.stable then call.fragments else []

def closedView (call : ClosedCall) : CallView := ⟨call.started.name.getD [], call.parameters⟩

def openView : CallView := ⟨call.name.getD [], streamed call⟩

/-- The client has been told the transcript, and the stream knows which call is open. -/
structure Tells (sender : ChatStream) (client : ChatClient) (script : StreamTranscript) : Prop where
  started : client.started = true
  running : client.ended = false
  reasoning : client.recovered.reasoning = script.reasoning
  content : client.recovered.content = script.content
  calls : client.recovered.calls =
    script.closed.map closedView ++ script.started.toList.map openView
  sent : sender.toolCallsSent = script.closed.length
  openTool : sender.openTool = script.started.map fun call =>
    ⟨script.closed.length, call.ordinal, streamed call, call.stable⟩

/-- What of the transcript has been told can be encoded. -/
def Spoken (cfg : ChatStreamConfig) (script : StreamTranscript) : Prop :=
  Utf8 cfg.model ∧ script.Encodes ∧ ∀ call ∈ script.started, Utf8 (streamed call)

/-- The client has read the chunks, and they can be encoded if and only if the transcript can. -/
structure Reads (cfg : ChatStreamConfig) (seen : List ChatFrame) (client : ChatClient)
    (script : StreamTranscript) : Prop where
  isRead : ChatClient.read seen = some client
  encoded : (∀ frame ∈ seen, frame.encodes = true) ↔ Spoken cfg script

def Knows (cfg : ChatStreamConfig) (script : StreamTranscript) (seen : List ChatFrame)
    (sender : ChatStream) : Prop :=
  ∃ client, Reads cfg seen client script ∧ Tells sender client script

abbrev Reaches (cfg : ChatStreamConfig) (seen : List ChatFrame) (comp : Generator ChatFrame ChatStream)
    (script : StreamTranscript) : Prop :=
  Generator.Meets seen comp (Knows cfg script) fun _ => False

variable {cfg : ChatStreamConfig} {self later : ChatStream} {client : ChatClient}
  {seen : List ChatFrame} {script next : StreamTranscript}

theorem chunk_encodes {delta : ChatDelta} {reason : Option GenFinishReason} :
    (chunk cfg delta reason).encodes = true ↔ Utf8 cfg.model ∧ ∀ text ∈ delta.texts, Utf8 text := by
  have isId : Utf8 (str "chatcmpl-" ++ str (Nat.repr cfg.uid)) := by simp
  refine decide_eq_true_iff.trans (forall_mem_cons.trans ?_)
  rw [forall_mem_cons]
  exact and_iff_right isId

theorem Reads.concat (pre : Reads cfg seen client script) {frame : ChatFrame}
    {told : ChatClient} (started : client.started = true) (running : client.ended = false)
    (acted : client.act frame = some told)
    (spoken : Spoken cfg script ∧ frame.encodes = true ↔ Spoken cfg next) :
    Reads cfg (seen ++ [frame]) told next := by
  refine ⟨ChatClient.read_concat pre.isRead started running acted, ?_⟩
  rw [forall_mem_append, pre.encoded, forall_mem_singleton]
  exact spoken

theorem emit_reaches {frame : ChatFrame} {told : ChatClient}
    (pre : Reads cfg seen client script) (started : client.started = true)
    (running : client.ended = false) (acted : client.act frame = some told)
    (spoken : Spoken cfg script ∧ frame.encodes = true ↔ Spoken cfg next)
    (tells : Tells later told next) :
    Reaches cfg seen (emit frame >>= fun _ => pure later) next :=
  Generator.Meets.bind
    (Generator.Meets.emit (R := fun seen _ => Knows cfg next seen later)
      ⟨told, pre.concat started running acted spoken, tells⟩)
    fun _ _ known => .pure known

/-- A frame without a text of the events. -/
theorem spoken_still {frame : ChatFrame} (reasoning : next.reasoning = script.reasoning)
    (content : next.content = script.content) (closed : next.closed = script.closed)
    (started : next.started = script.started)
    (encodes : Spoken cfg script → frame.encodes = true) :
    Spoken cfg script ∧ frame.encodes = true ↔ Spoken cfg next := by
  rw [and_iff_left_of_imp encodes]
  unfold Spoken
  rw [StreamTranscript.encodes_iff, StreamTranscript.encodes_iff, reasoning, content, closed,
    started]

theorem emitIf_reaches {condition : Bool} {frame : ChatFrame}
    (silent : condition = false → Knows cfg next seen later)
    (sends : condition = true → Reaches cfg seen (emit frame >>= fun _ => pure later) next) :
    Reaches cfg seen (emitIf condition frame >>= fun _ => pure later) next := by
  cases condition with
  | false => exact Generator.Meets.pure (silent rfl)
  | true => exact sends rfl

theorem streamed_interrupt (text : Str) : openView (call.interrupt text) = openView call ∧
      (call.interrupt text).ordinal = call.ordinal ∧
      streamed (call.interrupt text) = streamed call ∧
      (call.interrupt text).stable = call.stable := by
  unfold StartedCall.interrupt
  split <;> exact ⟨rfl, rfl, rfl, rfl⟩

theorem reasoning_reaches (pre : Reads cfg seen client script)
    (tells : Tells self client script) (text : Str) :
    Reaches cfg seen (self.takeEvent cfg (.reasoningDelta text)) { script with
      reasoning := script.reasoning ++ text
      started := script.started.map fun call => call.interrupt text } := by
  refine emit_reaches pre tells.started tells.running rfl ?_
    ⟨tells.started, tells.running, ?_, tells.content, ?_, tells.sent, ?_⟩
  · rw [chunk_encodes]
    unfold Spoken ChatDelta.texts
    rw [StreamTranscript.encodes_iff, StreamTranscript.encodes_iff]
    cases script.started with
    | none => simp; tauto
    | some call =>
      obtain ⟨view, -, sent, -⟩ := streamed_interrupt call text
      have name := congrArg CallView.name view
      simp [sent, show (call.interrupt text).name.getD [] = call.name.getD [] from name]
      tauto
  · exact congrArg (· ++ text) tells.reasoning
  · refine tells.calls.trans ?_
    cases script.started with
    | none => rfl
    | some call => exact congrArg (_ ++ [·]) (streamed_interrupt call text).1.symm
  · refine tells.openTool.trans ?_
    cases script.started with
    | none => rfl
    | some call =>
      obtain ⟨-, ordinal, sent, stable⟩ := streamed_interrupt call text
      dsimp only [map_some]
      rw [ordinal, sent, stable]

theorem content_reaches (pre : Reads cfg seen client script)
    (tells : Tells self client script) (text : Str) :
    Reaches cfg seen (self.takeEvent cfg (.contentDelta text))
      { script with content := script.content ++ text } := by
  refine emit_reaches pre tells.started tells.running rfl ?_
    ⟨tells.started, tells.running, tells.reasoning, ?_, tells.calls, tells.sent, tells.openTool⟩
  · rw [chunk_encodes]
    unfold Spoken ChatDelta.texts
    rw [StreamTranscript.encodes_iff, StreamTranscript.encodes_iff]
    simp
    tauto
  · exact congrArg (· ++ text) tells.content

theorem calls_closed (tells : Tells self client script) (isStarted : script.started = none) :
    client.recovered.calls = script.closed.map closedView := by
  have calls := tells.calls
  rw [isStarted, toList_none, map_nil, append_nil] at calls
  exact calls

theorem calls_open (tells : Tells self client script) {call : StartedCall}
    (isStarted : script.started = some call) :
    client.recovered.calls = script.closed.map closedView ++ [openView call] ∧
      script.closed.length + 1 = client.recovered.calls.length ∧
      self.openTool = some ⟨script.closed.length, call.ordinal, streamed call, call.stable⟩ := by
  have calls := tells.calls
  have openTool := tells.openTool
  rw [isStarted] at calls openTool
  refine ⟨calls, ?_, openTool⟩
  rw [calls, length_append, length_map]
  rfl

theorem toolCall_act (tells : Tells self client script)
    (isStarted : script.started = none) (id : Str) (name : Option (Str)) :
    ∃ later, client.takeDelta (.toolCall self.toolCallsSent id name []) = some later ∧
      later.started = true ∧ later.ended = false ∧
      later.recovered.reasoning = script.reasoning ∧
      later.recovered.content = script.content ∧
      later.recovered.calls = script.closed.map closedView ++ [⟨name.getD [], []⟩] := by
  have calls := calls_closed tells isStarted
  have isNext : self.toolCallsSent = client.recovered.calls.length := by
    rw [calls, length_map, tells.sent]
  refine ⟨_, if_pos isNext, tells.started, tells.running, tells.reasoning, tells.content, ?_⟩
  have isOpened : (client.recovered.openCall (name.getD [])).calls =
      script.closed.map closedView ++ [⟨name.getD [], []⟩] :=
    congrArg (· ++ _) calls
  exact Recovered.addArguments_concat isOpened []

theorem start_reaches (pre : Reads cfg seen client script)
    (tells : Tells self client script) (isStarted : script.started = none)
    (ordinal : Nat) (name : Option (Str)) (stable : Bool) :
    Reaches cfg seen (self.takeEvent cfg (.toolCallStart ordinal name stable)) { script with
      started := some { ordinal := ordinal, name := name, stable := stable } } := by
  obtain ⟨told, acted, started, running, reasoning, content, calls⟩ :=
    toolCall_act tells isStarted (toolCallId cfg.hex name self.toolCallsSent) name
  have nothing : streamed { ordinal := ordinal, name := name, stable := stable } = [] := by
    unfold streamed
    split <;> rfl
  refine emit_reaches pre tells.started tells.running acted ?_
    ⟨started, running, reasoning, content, ?_, tells.sent, ?_⟩
  · rw [chunk_encodes]
    unfold Spoken ChatDelta.texts
    rw [StreamTranscript.encodes_iff, StreamTranscript.encodes_iff, isStarted]
    have isId := fun named => @utf8_toolCallId cfg.hex name named self.toolCallsSent
    simp [nothing]
    tauto
  · rw [calls]
    dsimp only [toList_some, map_singleton, openView]
    rw [nothing]
  · dsimp only [map_some]
    rw [nothing, tells.sent]

theorem arguments_act (tells : Tells self client script) {call : StartedCall}
    (isStarted : script.started = some call) (text : Str) :
    ∃ later, client.takeDelta (.toolArguments script.closed.length text) = some later ∧
      later.started = true ∧ later.ended = false ∧
      later.recovered.reasoning = script.reasoning ∧
      later.recovered.content = script.content ∧
      later.recovered.calls = script.closed.map closedView ++
        [⟨call.name.getD [], streamed call ++ text⟩] := by
  obtain ⟨calls, isLast, -⟩ := calls_open tells isStarted
  exact ⟨_, if_pos isLast, tells.started, tells.running, tells.reasoning, tells.content,
    Recovered.addArguments_concat calls text⟩

theorem fragment_reaches (pre : Reads cfg seen client script)
    (tells : Tells self client script) {call : StartedCall}
    (isStarted : script.started = some call) (fragment : Str) :
    Reaches cfg seen (self.takeFragment cfg fragment) { script with
      started := some { call with fragments := call.fragments ++ fragment } } := by
  obtain ⟨calls, -, openTool⟩ := calls_open tells isStarted
  unfold takeFragment
  rw [openTool]
  dsimp only
  by_cases sends : call.stable ∧ fragment ≠ []
  · obtain ⟨told, acted, started, running, reasoning, content, toldCalls⟩ :=
      arguments_act tells isStarted fragment
    have isStreamed : streamed { call with fragments := call.fragments ++ fragment } =
        streamed call ++ fragment := by
      unfold streamed
      rw [if_pos sends.1, if_pos sends.1]
    rw [if_pos sends]
    refine emit_reaches pre tells.started tells.running acted ?_
      ⟨started, running, reasoning, content, ?_, tells.sent, ?_⟩
    · rw [chunk_encodes]
      unfold Spoken ChatDelta.texts
      rw [StreamTranscript.encodes_iff, StreamTranscript.encodes_iff, isStarted]
      simp [isStreamed]
      tauto
    · rw [toldCalls]
      dsimp only [toList_some, map_singleton, openView]
      rw [isStreamed]
    · dsimp only [map_some]
      rw [isStreamed]
  · have isStreamed : streamed { call with fragments := call.fragments ++ fragment } =
        streamed call := by
      unfold streamed
      split
      · rename_i stable
        have none : fragment = [] := not_not.mp fun some_ => sends ⟨stable, some_⟩
        rw [none, append_nil]
      · rfl
    rw [if_neg sends]
    refine Generator.Meets.pure ⟨client, ⟨pre.isRead, pre.encoded.trans ?_⟩, tells.started,
      tells.running, tells.reasoning, tells.content, ?_, tells.sent, ?_⟩
    · unfold Spoken
      rw [StreamTranscript.encodes_iff, StreamTranscript.encodes_iff, isStarted]
      simp [isStreamed]
    · rw [calls]
      dsimp only [toList_some, map_singleton, openView]
      rw [isStreamed]
    · rw [openTool]
      dsimp only [map_some]
      rw [isStreamed]

theorem streamed_remainder {call : StartedCall} {final : Str}
    (stable : call.stable → call.fragments.isPrefixOf final) :
    streamed call ++ remainder (streamed call) final = final := by
  have isPrefix : (streamed call).isPrefixOf final := by
    unfold streamed
    split
    · rename_i isStable
      exact stable isStable
    · exact isPrefixOf_iff_prefix.mpr nil_prefix
  unfold remainder
  rw [if_pos isPrefix]
  obtain ⟨rest, rfl⟩ := isPrefixOf_iff_prefix.mp isPrefix
  rw [drop_left]

theorem close_reaches (pre : Reads cfg seen client script)
    (tells : Tells self client script) {call : StartedCall}
    (isStarted : script.started = some call) {item : ToolCallItem CodePoint}
    (sameOrdinal : item.toolIndex = call.ordinal)
    (stable : call.stable → call.fragments.isPrefixOf item.parameters) :
    Reaches cfg seen (self.takeCall cfg item) { script with
      closed := script.closed ++ [⟨call, item.parameters⟩]
      started := none } := by
  obtain ⟨calls, -, openTool⟩ := calls_open tells isStarted
  have whole := streamed_remainder stable
  have sent : self.toolCallsSent + 1 =
      (script.closed ++ [ClosedCall.mk call item.parameters]).length := by
    rw [length_append, tells.sent]
    rfl
  have isClosed : (script.closed ++ [ClosedCall.mk call item.parameters]).map closedView =
      script.closed.map closedView ++ [⟨call.name.getD [], item.parameters⟩] := map_append
  unfold takeCall closeTool
  rw [openTool]
  dsimp only
  rw [if_pos sameOrdinal.symm]
  refine emitIf_reaches (fun none => ?_) fun _ => ?_
  · rw [not_not.mp (of_decide_eq_false none), append_nil] at whole
    refine ⟨client, ⟨pre.isRead, pre.encoded.trans ?_⟩, tells.started, tells.running,
      tells.reasoning, tells.content, ?_, sent, rfl⟩
    · unfold Spoken
      rw [StreamTranscript.encodes_iff, StreamTranscript.encodes_iff, isStarted]
      simp [or_imp, forall_and, whole]
      tauto
    · rw [calls, isClosed]
      unfold openView
      rw [whole]
      exact (append_nil _).symm
  · obtain ⟨told, acted, started, running, reasoning, content, toldCalls⟩ :=
      arguments_act tells isStarted (remainder (streamed call) item.parameters)
    refine emit_reaches pre tells.started tells.running acted ?_
      ⟨started, running, reasoning, content, ?_, sent, rfl⟩
    · rw [chunk_encodes]
      unfold Spoken ChatDelta.texts
      rw [StreamTranscript.encodes_iff, StreamTranscript.encodes_iff, isStarted]
      have parts := congrArg Utf8 whole
      rw [utf8_append] at parts
      simp [or_imp, forall_and, ← parts]
      tauto
    · rw [toldCalls, whole, isClosed]
      exact (append_nil _).symm

theorem standalone_reaches (pre : Reads cfg seen client script)
    (tells : Tells self client script) (isStarted : script.started = none)
    (item : ToolCallItem CodePoint) :
    Reaches cfg seen (self.takeCall cfg item) { script with
      closed := script.closed ++ [.standalone item] } := by
  have openTool := tells.openTool
  rw [isStarted] at openTool
  obtain ⟨opened, acted, started, running, reasoning, content, calls⟩ :=
    toolCall_act tells isStarted (toolCallId cfg.hex item.name self.toolCallsSent) item.name
  have isLast : self.toolCallsSent + 1 = opened.recovered.calls.length := by
    rw [calls, length_append, length_map, tells.sent]
    rfl
  let whole : ChatClient :=
    { opened with recovered := opened.recovered.addArguments item.parameters }
  have filled : opened.act (chunk cfg (.toolArguments self.toolCallsSent item.parameters)) =
      some whole := if_pos isLast
  unfold takeCall
  rw [openTool]
  refine Generator.Meets.bind (Q := fun seen _ => Knows cfg { script with
    closed := script.closed ++ [.standalone item] } seen
      { self with toolCallsSent := self.toolCallsSent + 1 }) ?_ fun _ _ known => .pure known
  -- the chunk that opens the call brings its name, and the one that fills it its arguments
  refine Generator.Meets.bind (Generator.Meets.emit (R := fun seen _ =>
    ChatClient.read seen = some opened ∧ ((∀ frame ∈ seen, frame.encodes = true) ↔
      Spoken cfg script ∧ Utf8 (item.name.getD [])))
    ⟨ChatClient.read_concat pre.isRead tells.started tells.running acted, ?_⟩)
    fun middle _ read => ?_
  · rw [forall_mem_append, pre.encoded, forall_mem_singleton, chunk_encodes]
    have isId := fun named => @utf8_toolCallId cfg.hex item.name named self.toolCallsSent
    unfold Spoken ChatDelta.texts
    simp
    tauto
  refine Generator.Meets.bind (Generator.Meets.emit
    (R := fun seen _ => Reads cfg seen whole { script with
      closed := script.closed ++ [.standalone item] })
    ⟨ChatClient.read_concat read.1 started running filled, ?_⟩) fun last _ reads =>
      Generator.Meets.pure ⟨whole, reads, started, running, reasoning, content, ?_, ?_, ?_⟩
  · rw [forall_mem_append, read.2, forall_mem_singleton, chunk_encodes]
    unfold Spoken ChatDelta.texts
    rw [StreamTranscript.encodes_iff, StreamTranscript.encodes_iff]
    simp [or_imp, forall_and, ClosedCall.standalone]
    tauto
  · refine (Recovered.addArguments_concat calls item.parameters).trans ?_
    rw [map_append, isStarted]
    exact (append_nil _).symm
  · rw [length_append, tells.sent]
    rfl
  · refine openTool.trans ?_
    rw [isStarted]
    rfl

variable (cfg) in
theorem standalones_reach (items : List (ToolCallItem CodePoint)) (known : Knows cfg script seen self)
    (isStarted : script.started = none) :
    Reaches cfg seen (self.takeCalls cfg items) { script with
      closed := script.closed ++ items.map ClosedCall.standalone } := by
  induction items generalizing seen self script with
  | nil =>
    rw [map_nil, append_nil]
    exact .pure known
  | cons item items ih =>
    obtain ⟨client, pre, tells⟩ := known
    refine Generator.Meets.bind (standalone_reaches pre tells isStarted item)
      fun seen later known => ?_
    have rest := ih known isStarted
    rw [append_assoc] at rest
    exact rest

/-- **One event.** -/
theorem takeEvent_reaches {ev : GenEvent CodePoint} (known : Knows cfg script seen self)
    (takes : script.Takes ev next) : Reaches cfg seen (self.takeEvent cfg ev) next := by
  obtain ⟨client, pre, tells⟩ := known
  cases takes with
  | reasoning text => exact reasoning_reaches pre tells text
  | content text => exact content_reaches pre tells text
  | start ordinal name stable isNone => exact start_reaches pre tells isNone ordinal name stable
  | fragment _ fragment isStarted => exact fragment_reaches pre tells isStarted fragment
  | standalone calls isNone => exact standalones_reach cfg calls ⟨client, pre, tells⟩ isNone
  | close item more isStarted sameOrdinal _ stable =>
    refine Generator.Meets.bind (close_reaches pre tells isStarted sameOrdinal stable)
      fun seen later known => ?_
    have rest := standalones_reach cfg more known rfl
    rw [append_assoc] at rest
    exact rest
  | done =>
    exact emit_reaches pre tells.started tells.running rfl (spoken_still rfl rfl rfl rfl
      fun spoken => chunk_encodes.mpr ⟨spoken.1, nofun⟩)
      ⟨tells.started, tells.running, tells.reasoning, tells.content, tells.calls, tells.sent,
        tells.openTool⟩

variable (cfg) in
theorem takeAll_reaches (items : List StreamItem) (known : Knows cfg script seen self)
    (allowed : items.foldlM StreamTranscript.take script = some next) :
    Reaches cfg seen (Generator.each (takeItem cfg) self items) next := by
  induction items generalizing seen self script with
  | nil =>
    cases allowed
    exact .pure known
  | cons item items ih =>
    rw [foldlM_cons] at allowed
    obtain ⟨middle, first, rest⟩ := bind_eq_some_iff.mp allowed
    refine Generator.Meets.bind (Q := Knows cfg middle) ?_ fun seen later known => ih known rest
    rcases StreamTranscript.take_cases first with ⟨rfl, rfl⟩ | ⟨ev, rfl, -, takes⟩
    · obtain ⟨client, pre, tells⟩ := known
      split <;> exact emit_reaches pre tells.started tells.running rfl
        (spoken_still rfl rfl rfl rfl fun _ => rfl) ⟨tells.started, tells.running, tells.reasoning,
          tells.content, tells.calls, tells.sent, tells.openTool⟩
    · exact takeEvent_reaches known takes

theorem Tells.recovers (tells : Tells self client script) : client.recovered.Of script := by
  refine ⟨tells.reasoning, tells.content, _, tells.calls, ?_⟩
  cases script.started with
  | none => exact .nil
  | some call =>
    refine .cons ⟨rfl, ?_⟩ .nil
    unfold openView streamed
    split
    · exact prefix_rfl
    · exact nil_prefix

variable (cfg) in
theorem conclude_satisfies {P : Prop} (isRead : ChatClient.read seen = some client)
    (tells : Tells self client script)
    (encoded : (∀ frame ∈ seen, frame.encodes = true) ↔ P) (model : P → Utf8 cfg.model) :
    ChatClient.Satisfied (seen ++ (self.conclude cfg).events) script ∧
      ((∀ frame ∈ seen ++ (self.conclude cfg).events, frame.encodes = true) ↔ P) := by
  have meets : Generator.Meets seen (self.conclude cfg)
      (fun seen _ => ChatClient.Satisfied seen script ∧
        ((∀ frame ∈ seen, frame.encodes = true) ↔ P)) fun _ => False := by
    refine Generator.Meets.bind (Generator.Meets.emitIf
      (R := fun seen _ => ChatClient.read seen = some client ∧
        ((∀ frame ∈ seen, frame.encodes = true) ↔ P)) ⟨isRead, encoded⟩
      ⟨ChatClient.read_concat isRead tells.started tells.running rfl, ?_⟩) fun seen _ read => ?_
    · rw [forall_mem_append, encoded, forall_mem_singleton]
      refine and_iff_left_of_imp fun spoken => decide_eq_true (utf8_pair.mpr ⟨?_, model spoken⟩)
      simp
    · refine Generator.Meets.emit ⟨⟨{ client with ended := true },
        ChatClient.read_concat read.1 tells.started tells.running rfl, rfl, tells.recovers⟩, ?_⟩
      rw [forall_mem_append, read.2, forall_mem_singleton]
      exact and_iff_left rfl
  exact meets.returns (show (self.conclude cfg).result = some () from rfl)

end ChatStream

/-- A client is satisfied with the chunks up to the first one that cannot be encoded only if all of
them can be: the last one is the one that ends the stream. -/
theorem ChatClient.satisfied_takeWhile {frames : List ChatFrame} {script : StreamTranscript}
    (accepted : ∃ client, ChatClient.read frames = some client) :
    ChatClient.Satisfied (frames.takeWhile ChatFrame.encodes) script ↔
      (∀ frame ∈ frames, frame.encodes = true) ∧ ChatClient.Satisfied frames script := by
  constructor
  · rintro ⟨client, isRead, ended, of⟩
    obtain ⟨last, whole⟩ := accepted
    rw [← takeWhile_append_dropWhile (p := ChatFrame.encodes) (l := frames)] at whole
    unfold ChatClient.read at isRead whole
    rw [foldlM_append, isRead] at whole
    cases rest : frames.dropWhile ChatFrame.encodes with
    | nil =>
      have all : frames.takeWhile ChatFrame.encodes = frames := by
        have parts := takeWhile_append_dropWhile (p := ChatFrame.encodes) (l := frames)
        rw [rest, append_nil] at parts
        exact parts
      rw [all] at isRead
      exact ⟨takeWhile_eq_self_iff.mp all, client, isRead, ended, of⟩
    | cons frame more =>
      rw [rest] at whole
      change (frame :: more).foldlM ChatClient.step client = some last at whole
      rw [foldlM_cons] at whole
      unfold ChatClient.step at whole
      rw [if_pos ended] at whole
      cases whole
  · rintro ⟨all, satisfied⟩
    rw [takeWhile_eq_self_iff.mpr all]
    exact satisfied

/-- **A client of the stream** is satisfied and recovers the transcript if and only if the stream
did not end with an exception that it does not catch, and everything in it can be encoded. -/
theorem chat_recovers_iff (cfg : ChatStreamConfig) {items : List StreamItem}
    {ending : StreamEnd} {script : StreamTranscript}
    (obeys : StreamTranscript.read items = some script) :
    ChatClient.Satisfied (streamChatCompletionChunks cfg items ending) script ↔
      (∀ msg, ending ≠ .exception msg) ∧ ending.Encodes ∧ ChatStream.Spoken cfg script := by
  have greeted : ChatStream.Knows cfg { } [ChatStream.chunk cfg .role] { } := by
    refine ⟨{ started := true }, ⟨rfl, ?_⟩, rfl, rfl, rfl, rfl, rfl, rfl, rfl⟩
    rw [forall_mem_singleton, ChatStream.chunk_encodes]
    unfold ChatStream.Spoken
    rw [StreamTranscript.encodes_iff]
    simp [ChatDelta.texts]
  have reaches := ChatStream.takeAll_reaches cfg items greeted obeys
  rcases eq_none_or_eq_some
    (Generator.each (ChatStream.takeItem cfg) { } items).result with raised | ⟨later, ret⟩
  · exact (reaches.raises raised).elim
  obtain ⟨client, reads, tells⟩ := reaches.returns ret
  have chunks : (chatCompletionChunks cfg items ending).events = [ChatStream.chunk cfg .role] ++
        (Generator.each (ChatStream.takeItem cfg) { } items).events ++
          (later.finish cfg ending).events := by
    unfold chatCompletionChunks
    rw [Generator.bind_some (show (emit _).result = some () from rfl),
      Generator.bind_some ret, append_assoc]
    rfl
  unfold streamChatCompletionChunks
  rw [chunks]
  cases ending with
  | exhausted =>
    obtain ⟨satisfied, encoded⟩ := ChatStream.conclude_satisfies cfg reads.isRead tells
      reads.encoded fun spoken => spoken.1
    exact (ChatClient.satisfied_takeWhile (satisfied.imp fun _ both => both.1)).trans
      ((and_congr_left' encoded).trans ⟨fun both => ⟨nofun, trivial, both.1⟩,
        fun both => ⟨both.2.2, satisfied⟩⟩)
  | generationError msg code =>
    have acted : client.act (.error msg (generationErrorType code) code) = some client := rfl
    have isType : Utf8 (generationErrorType code) := by
      unfold generationErrorType
      split <;> exact utf8_str _
    obtain ⟨satisfied, encoded⟩ := ChatStream.conclude_satisfies cfg
      (P := (Utf8 msg ∧ Utf8 (code.getD [])) ∧ ChatStream.Spoken cfg script)
      (ChatClient.read_concat reads.isRead tells.started tells.running acted) tells (by
        rw [forall_mem_append, reads.encoded, forall_mem_singleton]
        unfold ChatFrame.encodes ChatFrame.texts
        simp [isType]
        tauto) fun both => both.2.1
    rw [append_assoc] at satisfied encoded
    exact (ChatClient.satisfied_takeWhile (satisfied.imp fun _ both => both.1)).trans
      ((and_congr_left' encoded).trans ⟨fun both => ⟨nofun, both.1⟩,
        fun both => ⟨both.2, satisfied⟩⟩)
  | exception msg =>
    refine ⟨fun satisfied => ?_, fun caught => absurd rfl (caught.1 msg)⟩
    have nothing : (later.finish cfg (.exception msg)).events = [] := rfl
    rw [nothing, append_nil, ChatClient.satisfied_takeWhile ⟨client, reads.isRead⟩] at satisfied
    obtain ⟨-, other, isRead, ended, -⟩ := satisfied
    rw [reads.isRead] at isRead
    cases isRead
    rw [tells.running] at ended
    cases ended

end FreeToken
