/-
**The three wire streams of one generation.**
-/

import FreeToken.Server.ResponsesStream
import FreeToken.Server.ChatStream

namespace FreeToken

open List

structure Adapters where
  anthropic : AnthropicStreamConfig
  responses : ResponsesStreamConfig
  chat : ChatStreamConfig

def Adapters.Faithful (adapters : Adapters) (items : List StreamItem) (ending : StreamEnd)
    (script : StreamTranscript) : Prop :=
  Client.Satisfied ((anthropicEventStream adapters.anthropic items ending).map
      AnthropicStreamEvent.op) script ∧
    Client.Satisfied ((responsesStreamGenerator adapters.responses items ending).map
      ResponsesFrame.op) script ∧
    ChatClient.Satisfied (streamChatCompletionChunks adapters.chat items ending) script

/-- The fragments of a call that some stream sends before its close: all of them if they are
stable, and otherwise those up to the reasoning inside of the call. -/
def StartedCall.forwarded (call : StartedCall) : Str :=
  if call.stable then call.fragments else call.cut.getD call.fragments

/-- No text that is sent has a surrogate: the names of the models, the error, the reasoning, the
content, the names and the final arguments of the calls, and the fragments of a call that an error
has left open. -/
structure Adapters.Encode (adapters : Adapters) (ending : StreamEnd)
    (script : StreamTranscript) : Prop where
  anthropic : Utf8 adapters.anthropic.model
  responses : Utf8 adapters.responses.model
  chat : Utf8 adapters.chat.model
  ending : ending.Encodes
  texts : script.Encodes
  fragments : ∀ call ∈ script.started, Utf8 call.forwarded

theorem StartedCall.utf8_forwarded {call : StartedCall}
    (cut : ∀ pre ∈ call.cut, pre <+: call.fragments) :
    Utf8 call.forwarded ↔ Utf8 (ChatStream.streamed call) ∧
      Utf8 (call.cut.getD call.fragments) := by
  unfold forwarded ChatStream.streamed
  split
  · refine ⟨fun encoded => ⟨encoded, ?_⟩, And.left⟩
    rcases Option.eq_none_or_eq_some call.cut with isCut | ⟨pre, isCut⟩
    · rw [isCut]
      exact encoded
    · rw [isCut]
      exact encoded.of_front (cut pre isCut)
  · exact (and_iff_right utf8_nil).symm

section

variable {items : List StreamItem} {ending : StreamEnd} {script : StreamTranscript}

theorem Client.not_satisfied_nil : ¬Client.Satisfied [] script := by
  rintro ⟨client, isRead, ended, -⟩
  cases isRead
  cases ended

/-- A client of the messages is satisfied if everything is in one piece and can be encoded. -/
theorem anthropic_satisfies {cfg : AnthropicStreamConfig} (model : Utf8 cfg.model)
    (obeys : StreamTranscript.read items = some script) (ends : script.Ends ending)
    (prompt : script.late = false) (whole : ∀ call ∈ script.closed, call.InOnePiece)
    (encodes : script.Encodes) (forwards : script.Forwards) (ending_ : ending.Encodes) :
    Client.Satisfied ((anthropicEventStream cfg items ending).map
      AnthropicStreamEvent.op) script := by
  have speaks := AnthropicStream.speaks cfg
  have started : StreamTranscript.Forwards { } := fun _ none => absurd none (by simp)
  have opens : ∀ frame ∈ (AnthropicStream.adapter cfg).opening, frame.encodes = true := by
    rw [show (AnthropicStream.adapter cfg).opening = [_] from rfl, forall_mem_singleton]
    exact AnthropicStream.encodes_iff.mpr (utf8_pair.mpr ⟨by simp, model⟩)
  have known : ({ } : StreamTranscript).done = false → ∃ client, BlockStream.Tells
      anthropicDialect (AnthropicStream.adapter cfg).initial.blocks client { } :=
    fun _ => ⟨_, BlockStream.greeted_tells⟩
  obtain ⟨safe, -⟩ := (speaks.loop items trivial started encodes obeys known).resolve_right
    fun stops => stops.not_whole obeys encodes whole forwards
  unfold anthropicEventStream
  rw [speaks.sends opens safe ending_, BlockStream.recovers_iff _ obeys ends]
  exact ⟨prompt, fun call mem => ⟨(whole call mem).1, nofun⟩⟩

/-- A client of the responses is satisfied if and only if everything is in one piece and can be
encoded. -/
theorem responses_satisfies_iff {cfg : ResponsesStreamConfig}
    (obeys : StreamTranscript.read items = some script) (ends : script.Ends ending)
    (encodes : script.Encodes) (ending_ : ending.Encodes) :
    Client.Satisfied ((responsesStreamGenerator cfg items ending).map ResponsesFrame.op)
        script ↔
      Utf8 cfg.model ∧ script.late = false ∧
        (∀ call ∈ script.closed, call.InOnePiece) ∧ script.Forwards := by
  by_cases model : Utf8 cfg.model
  · have speaks := ResponsesStream.speaks model
    have started : StreamTranscript.Forwards { } := fun _ none => absurd none (by simp)
    have opens : ∀ frame ∈ (ResponsesStream.adapter cfg).opening, frame.encodes = true := by
      have encoded : ∀ text ∈ (ResponsesStream.snapshot cfg { } .inProgress).texts, Utf8 text := by
        simp [Response.texts, ResponsesStream.snapshot, model]
      rw [show (ResponsesStream.adapter cfg).opening = [_, _] from rfl, forall_mem_cons,
        forall_mem_singleton]
      exact ⟨decide_eq_true encoded, decide_eq_true encoded⟩
    unfold responsesStreamGenerator
    rcases speaks.loop items speaks.initial.2 started encodes obeys (fun _ =>
      ⟨_, BlockStream.greeted_tells⟩) with ⟨safe, forwards⟩ | stops
    · rw [speaks.sends opens safe ending_, BlockStream.recovers_iff _ obeys ends]
      refine ⟨fun both => ⟨model, both.1, fun call mem =>
        ⟨(both.2 call mem).1, (both.2 call mem).2 rfl⟩, forwards⟩, fun all => ⟨all.2.1,
        fun call mem => ⟨(all.2.2.1 call mem).1, fun _ => (all.2.2.1 call mem).2⟩⟩⟩
    · refine ⟨fun satisfied => absurd satisfied ?_, fun all => ?_⟩
      · exact speaks.stops opens stops obeys fun self ordinal fragment isTool broken =>
          ResponsesStream.stuck ordinal isTool broken
      · exact absurd all.2.2.2 (stops.not_whole obeys encodes all.2.2.1)
  · refine ⟨fun satisfied => ?_, fun all => absurd all.1 model⟩
    have refused : (ResponsesStream.adapter cfg).encodes ⟨0, .created
        (ResponsesStream.snapshot cfg { } .inProgress)⟩ = false :=
      decide_eq_false fun encoded => model (encoded _ (by
        simp [ResponsesEvent.texts, Response.texts, ResponsesStream.snapshot]))
    unfold responsesStreamGenerator at satisfied
    rw [StreamAdapter.stream_refused rfl refused] at satisfied
    exact absurd satisfied Client.not_satisfied_nil

end

/-- **The wire streams are faithful** if and only if no keepalive came behind the final event, every
closed call arrived in one piece, the stream did not end with an exception that is not a
`GenerationError`, and no text that is sent has a surrogate. -/
theorem adapters_iff (adapters : Adapters) {items : List StreamItem} {ending : StreamEnd}
    {script : StreamTranscript} (obeys : StreamTranscript.read items = some script)
    (ends : script.Ends ending) :
    adapters.Faithful items ending script ↔
      script.late = false ∧ (∀ call ∈ script.closed, call.InOnePiece) ∧
        (∀ msg, ending ≠ .exception msg) ∧ adapters.Encode ending script := by
  have sound := StreamTranscript.read_sound obeys
  unfold Adapters.Faithful
  rw [chat_recovers_iff _ obeys]
  constructor
  · rintro ⟨anthropic, responses, caught, ending_, chat, encodes, streamed⟩
    obtain ⟨model, prompt, whole, forwards⟩ :=
      (responses_satisfies_iff obeys ends encodes ending_).mp responses
    refine ⟨prompt, whole, caught, ?_, model, chat, ending_, encodes, fun call isStarted =>
      (StartedCall.utf8_forwarded (sound.cut call isStarted)).mpr
        ⟨streamed call isStarted, forwards call isStarted⟩⟩
    by_contra unspeakable
    have refused : (AnthropicStream.adapter adapters.anthropic).encodes (.messageStart
        (str "msg_" ++ str (Nat.repr adapters.anthropic.uid)) adapters.anthropic.model
        ⟨0, 0, none⟩) = false :=
      decide_eq_false fun encoded => unspeakable (utf8_pair.mp encoded).2
    unfold anthropicEventStream at anthropic
    rw [StreamAdapter.stream_refused rfl refused] at anthropic
    exact absurd anthropic Client.not_satisfied_nil
  · rintro ⟨prompt, whole, caught, encode⟩
    have parts := fun call isStarted => (StartedCall.utf8_forwarded
      (sound.cut call isStarted)).mp (encode.fragments call isStarted)
    have forwards : script.Forwards := fun call isStarted => (parts call isStarted).2
    exact ⟨anthropic_satisfies encode.anthropic obeys ends prompt whole encode.texts forwards
        encode.ending,
      (responses_satisfies_iff obeys ends encode.texts encode.ending).mpr
        ⟨encode.responses, prompt, whole, forwards⟩,
      caught, encode.ending, encode.chat, encode.texts,
      fun call isStarted => (parts call isStarted).1⟩

namespace Adapters

def plain : Adapters where
  anthropic := { model := [], uid := 0, hex := fun _ => "", refusal := fun _ => "" }
  responses := { responseId := "", created := 0, model := [], itemHex := fun _ => "",
                 callHex := fun _ => "", refusal := fun _ => "" }
  chat := { model := [], uid := 0, hex := fun _ => "" }

def oneCall (stable : Bool) (first second final : Str) : List StreamItem :=
  [.event (.toolCallStart 0 (some (str "f")) stable), .event (.toolCallArgsDelta 0 first),
    .keepalive,
    .event (.toolCallArgsDelta 0 second),
    .event (.toolCallsDelta [⟨0, some (str "f"), final⟩]),
    .event (.genDone ⟨.toolCalls, 3, 5, none, 0⟩)]

def oneCallTranscript (stable : Bool) (first second final : Str) : StreamTranscript where
  closed := [⟨⟨0, some (str "f"), stable, first ++ second, none⟩, final⟩]
  done := true

end Adapters

/-- A stable call with a keepalive inside of it. -/
theorem adapters_oneCall :
    Adapters.plain.Faithful (Adapters.oneCall true (str "\x7b") (str "1") (str "\x7b1\x7d"))
      .exhausted (Adapters.oneCallTranscript true (str "\x7b") (str "1") (str "\x7b1\x7d")) := by
  have obeys : StreamTranscript.read
      (Adapters.oneCall true (str "\x7b") (str "1") (str "\x7b1\x7d")) =
        some (Adapters.oneCallTranscript true (str "\x7b") (str "1") (str "\x7b1\x7d")) := by decide
  have ends : (Adapters.oneCallTranscript true (str "\x7b") (str "1") (str "\x7b1\x7d")).Ends
      .exhausted := rfl
  refine (adapters_iff Adapters.plain obeys ends).mpr ⟨rfl, fun call mem => ?_, nofun, ?_⟩
  · rw [eq_of_mem_singleton mem]
    exact ⟨rfl, isPrefixOf_iff_prefix.mp (by decide)⟩
  · refine ⟨utf8_nil, utf8_nil, utf8_nil, trivial, ⟨utf8_nil, utf8_nil, fun call mem => ?_,
      nofun⟩, nofun⟩
    rw [eq_of_mem_singleton mem]
    exact ⟨utf8_str _, utf8_str _⟩

/-- Fragments that are not stable are sent to the client of the responses all the same, and the
final arguments are lost. -/
theorem adapters_not_faithful : ∃ (items : List StreamItem) (script : StreamTranscript),
    StreamTranscript.read items = some script ∧ script.Ends .exhausted ∧
      ¬Adapters.plain.Faithful items .exhausted script := by
  have obeys : StreamTranscript.read
      (Adapters.oneCall false (str "\x7b1") (str "2") (str "\x7b\x7d")) =
        some (Adapters.oneCallTranscript false (str "\x7b1") (str "2") (str "\x7b\x7d")) := by decide
  have ends : (Adapters.oneCallTranscript false (str "\x7b1") (str "2") (str "\x7b\x7d")).Ends
      .exhausted := rfl
  refine ⟨_, _, obeys, ends, fun faithful => ?_⟩
  have encodes : (Adapters.oneCallTranscript false (str "\x7b1") (str "2")
      (str "\x7b\x7d")).Encodes := by
    refine ⟨utf8_nil, utf8_nil, fun call mem => ?_, nofun⟩
    rw [eq_of_mem_singleton mem]
    exact ⟨utf8_str _, utf8_str _⟩
  have whole := ((responses_satisfies_iff obeys ends encodes trivial).mp faithful.2.1).2.2.1 _
    mem_cons_self
  exact absurd (List.isPrefixOf_iff_prefix.mpr whole.2) (by decide)

end FreeToken
