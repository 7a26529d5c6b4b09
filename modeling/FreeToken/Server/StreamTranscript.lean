/-
**What a stream of generation events says.**
-/

import FreeToken.Server.Generation

namespace FreeToken

open List

/-! ### Text -/

/-- A code point of a `str`. The JSON of a call can escape a surrogate that has no partner. -/
inductive CodePoint where
  | scalar (char : Char)
  | surrogate (offset : Fin 2048)
  deriving DecidableEq, Repr

abbrev Str := List CodePoint

def str (text : String) : Str := text.toList.map .scalar

def CodePoint.isScalar : CodePoint → Bool
  | scalar _ => true
  | surrogate _ => false

/-- `.encode()` does not raise, and neither does pydantic's `model_dump_json`. -/
def Utf8 (text : Str) : Prop := ∀ c ∈ text, c.isScalar = true

instance (text : Str) : Decidable (Utf8 text) := inferInstanceAs (Decidable (∀ c ∈ text, _))

@[simp] theorem utf8_nil : Utf8 [] := nofun

@[simp] theorem utf8_append {text more : Str} : Utf8 (text ++ more) ↔ Utf8 text ∧ Utf8 more :=
  forall_mem_append

theorem utf8_pair {text more : Str} :
    (∀ part ∈ [text, more], Utf8 part) ↔ Utf8 text ∧ Utf8 more := by
  simp

theorem utf8_scalars (text : List Char) : Utf8 (text.map .scalar) := fun _ mem => by
  obtain ⟨char, -, rfl⟩ := mem_map.mp mem
  rfl

@[simp] theorem utf8_str (text : String) : Utf8 (str text) := utf8_scalars _

theorem Utf8.subset {text part : Str} (encoded : Utf8 text) (isPart : part ⊆ text) : Utf8 part :=
  fun c mem => encoded c (isPart mem)

theorem Utf8.of_front {text part : Str} (encoded : Utf8 text) (isPart : part <+: text) :
    Utf8 part :=
  encoded.subset isPart.subset

/-! ### Items -/

/-- What `with_keepalive` yields. -/
inductive StreamItem where
  | keepalive
  | event (ev : GenEvent CodePoint)
  deriving DecidableEq, Repr

/-- The events are through, or an exception is raised: a `GenerationError`, or any other. -/
inductive StreamEnd where
  | exhausted
  | generationError (msg : Str) (code : Option (Str))
  | exception (msg : Str)
  deriving DecidableEq, Repr

/-! ### The transcript -/

structure StartedCall where
  ordinal : Int
  name : Option (Str)
  stable : Bool := true
  fragments : Str := []
  /-- The fragments before the first reasoning inside of the call. -/
  cut : Option (Str) := none
  deriving DecidableEq, Repr

def StartedCall.interrupt (call : StartedCall) (text : Str) : StartedCall :=
  if text = [] ∨ call.cut.isSome then call else { call with cut := some call.fragments }

structure ClosedCall where
  started : StartedCall
  parameters : Str
  deriving DecidableEq, Repr

def ClosedCall.standalone (item : ToolCallItem CodePoint) : ClosedCall where
  started := { ordinal := item.toolIndex, name := item.name }
  parameters := item.parameters

/-- The texts so far, the calls that are closed, and the one that is open. `StreamTranscript.take`
reads one item, where the protocol of the events allows it. -/
structure StreamTranscript where
  reasoning : Str := []
  content : Str := []
  closed : List ClosedCall := []
  started : Option StartedCall := none
  done : Bool := false
  /-- A keepalive came after the final event. -/
  late : Bool := false
  deriving DecidableEq, Repr

variable (script : StreamTranscript)

namespace StreamTranscript

/-- An event that the protocol allows. Reasoning may stand anywhere, content between calls. The
close of a call has its ordinal and its name, and the fragments are a prefix of the final parameters
if they were said to be stable. -/
def takeEvent : GenEvent CodePoint → Option StreamTranscript
  | .reasoningDelta text => some { script with
      reasoning := script.reasoning ++ text
      started := script.started.map fun call => call.interrupt text }
  | .contentDelta text =>
      match script.started with
      | none => some { script with content := script.content ++ text }
      | some _ => none
  | .toolCallStart toolIndex name stable =>
      match script.started with
      | none => some { script with
          started := some { ordinal := toolIndex, name := name, stable := stable } }
      | some _ => none
  | .toolCallArgsDelta toolIndex fragment =>
      match script.started with
      | none => none
      | some call =>
          if call.ordinal = toolIndex then some { script with
            started := some { call with fragments := call.fragments ++ fragment } }
          else none
  | .toolCallsDelta calls =>
      match script.started with
      | none => some { script with
          closed := script.closed ++ calls.map ClosedCall.standalone }
      | some call =>
          match calls with
          | [] => none
          | item :: more =>
              if item.toolIndex = call.ordinal ∧ item.name = call.name ∧
                  (call.stable → call.fragments.isPrefixOf item.parameters) then
                some { script with
                  closed := script.closed ++ ⟨call, item.parameters⟩ ::
                    more.map ClosedCall.standalone
                  started := none }
              else none
  | .genDone _ =>
      match script.started with
      | none => some { script with done := true }
      | some _ => none

def take : StreamItem → Option StreamTranscript
  | .keepalive => some (if script.done then { script with late := true } else script)
  | .event ev => if script.done then none else script.takeEvent ev

def read (items : List StreamItem) : Option StreamTranscript := items.foldlM take { }

def Ends : StreamEnd → Prop
  | .exhausted => script.done = true
  | _ => script.done = false

end StreamTranscript

/-- What is true of every transcript: fragments that were said to be stable begin the final
parameters, and a call was interrupted behind some of its fragments. -/
structure StreamTranscript.Sound (script : StreamTranscript) : Prop where
  stable : ∀ call ∈ script.closed, call.started.stable = true →
    call.started.fragments <+: call.parameters
  cut : ∀ call ∈ script.started, ∀ pre ∈ call.cut, pre <+: call.fragments
  late : script.late = true → script.done = true

variable {item : StreamItem} {ev : GenEvent CodePoint} {items : List StreamItem}

namespace StreamTranscript

variable {script next : StreamTranscript}

/-- What an event that the protocol allows can be, and what it makes of the transcript. -/
inductive Takes (script : StreamTranscript) : GenEvent CodePoint → StreamTranscript → Prop
  | reasoning (text : Str) : Takes script (.reasoningDelta text) { script with
      reasoning := script.reasoning ++ text
      started := script.started.map fun call => call.interrupt text }
  | content (text : Str) (isNone : script.started = none) : Takes script (.contentDelta text)
        { script with content := script.content ++ text }
  | start (ordinal : Nat) (name : Option Str) (stable : Bool)
      (isNone : script.started = none) :
      Takes script (.toolCallStart ordinal name stable) { script with
        started := some { ordinal := ordinal, name := name, stable := stable } }
  | fragment (ordinal : Nat) (fragment : Str) {call : StartedCall}
      (isStarted : script.started = some call) (same : call.ordinal = ordinal) :
      Takes script (.toolCallArgsDelta ordinal fragment) { script with
        started := some { call with fragments := call.fragments ++ fragment } }
  | standalone (calls : List (ToolCallItem CodePoint)) (isNone : script.started = none) :
      Takes script (.toolCallsDelta calls) { script with
        closed := script.closed ++ calls.map ClosedCall.standalone }
  | close (item : ToolCallItem CodePoint) (more : List (ToolCallItem CodePoint))
      {call : StartedCall} (isStarted : script.started = some call)
      (sameOrdinal : item.toolIndex = call.ordinal) (sameName : item.name = call.name)
      (stable : call.stable → call.fragments.isPrefixOf item.parameters) :
      Takes script (.toolCallsDelta (item :: more)) { script with
        closed := script.closed ++ ⟨call, item.parameters⟩ :: more.map ClosedCall.standalone
        started := none }
  | done (done : GenDone) (isNone : script.started = none) :
      Takes script (.genDone done) { script with done := true }

theorem takes (allowed : script.takeEvent ev = some next) : script.Takes ev next := by
  unfold takeEvent at allowed
  cases ev with
  | reasoningDelta text =>
    cases allowed
    exact .reasoning text
  | contentDelta text =>
    dsimp only at allowed
    split at allowed
    · cases allowed
      exact .content text ‹_›
    · cases allowed
  | toolCallStart ordinal name stable =>
    dsimp only at allowed
    split at allowed
    · cases allowed
      exact .start ordinal name stable ‹_›
    · cases allowed
  | toolCallArgsDelta ordinal fragment =>
    dsimp only at allowed
    split at allowed
    · cases allowed
    · rename_i call isStarted
      obtain ⟨same, ⟨⟩⟩ := Option.ite_none_right_eq_some.mp allowed
      exact .fragment ordinal fragment isStarted same
  | toolCallsDelta calls =>
    dsimp only at allowed
    split at allowed
    · cases allowed
      exact .standalone calls ‹_›
    · rename_i call isStarted
      cases calls with
      | nil => cases allowed
      | cons item more =>
        obtain ⟨closes, ⟨⟩⟩ := Option.ite_none_right_eq_some.mp allowed
        exact .close item more isStarted closes.1 closes.2.1 closes.2.2
  | genDone done =>
    dsimp only at allowed
    split at allowed
    · cases allowed
      exact .done done ‹_›
    · cases allowed

theorem take_cases (allowed : script.take item = some next) : (item = .keepalive ∧
      next = if script.done then { script with late := true } else script) ∨
    ∃ ev, item = .event ev ∧ script.done = false ∧ script.Takes ev next := by
  unfold take at allowed
  cases item with
  | keepalive =>
    cases allowed
    exact .inl ⟨rfl, rfl⟩
  | event ev =>
    dsimp only at allowed
    split at allowed
    · cases allowed
    · rename_i running
      exact .inr ⟨ev, rfl, Bool.not_eq_true _ ▸ running, takes allowed⟩

theorem standalone_stable {items : List (ToolCallItem CodePoint)} {call : ClosedCall}
    (mem : call ∈ items.map ClosedCall.standalone) :
    call.started.fragments <+: call.parameters := by
  obtain ⟨item, -, rfl⟩ := mem_map.mp mem
  exact nil_prefix

theorem Sound.takes (sound : script.Sound) (takes : script.Takes ev next) : next.Sound := by
  cases takes with
  | reasoning text =>
    refine ⟨sound.stable, fun call isStarted pre isCut => ?_, sound.late⟩
    obtain ⟨old, isOld, rfl⟩ := Option.mem_map.mp isStarted
    unfold StartedCall.interrupt at isCut ⊢
    split at isCut
    · rename_i quiet
      rw [if_pos quiet]
      exact sound.cut old isOld pre isCut
    · rename_i loud
      rw [if_neg loud]
      cases isCut
      exact prefix_rfl
  | content => exact ⟨sound.stable, sound.cut, sound.late⟩
  | start =>
    refine ⟨sound.stable, fun call isStarted pre isCut => ?_, sound.late⟩
    cases isStarted
    cases isCut
  | fragment ordinal fragment isStarted =>
    refine ⟨sound.stable, fun other isOther pre isCut => ?_, sound.late⟩
    cases isOther
    exact (sound.cut _ isStarted pre isCut).trans (prefix_append _ _)
  | standalone calls =>
    refine ⟨fun call mem isStable => ?_, sound.cut, sound.late⟩
    rcases mem_append.mp mem with old | new
    · exact sound.stable call old isStable
    · exact standalone_stable new
  | close item more isStarted _ _ stable =>
    refine ⟨fun other mem isStable => ?_, nofun, sound.late⟩
    rcases mem_append.mp mem with old | new
    · exact sound.stable other old isStable
    · rcases mem_cons.mp new with rfl | new
      · exact isPrefixOf_iff_prefix.mp (stable isStable)
      · exact standalone_stable new
  | done => exact ⟨sound.stable, sound.cut, fun _ => rfl⟩

theorem Takes.running (takes : script.Takes ev next) :
    next.late = script.late ∧ (next.done = script.done ∨ ∃ done, ev = .genDone done) := by
  cases takes with
  | done done => exact ⟨rfl, .inr ⟨done, rfl⟩⟩
  | _ => exact ⟨rfl, .inl rfl⟩

theorem Sound.take (sound : script.Sound)
    (allowed : script.take item = some next) : next.Sound := by
  rcases take_cases allowed with ⟨-, rfl⟩ | ⟨ev, -, -, takes⟩
  · split
    · rename_i done
      exact ⟨sound.stable, sound.cut, fun _ => done⟩
    · exact sound
  · exact sound.takes takes

theorem Sound.takeAll (sound : script.Sound)
    (allowed : items.foldlM StreamTranscript.take script = some next) : next.Sound := by
  induction items generalizing script with
  | nil =>
    cases allowed
    exact sound
  | cons item items ih =>
    rw [foldlM_cons] at allowed
    obtain ⟨middle, first, rest⟩ := Option.bind_eq_some_iff.mp allowed
    exact ih (sound.take first) rest

theorem read_sound (allowed : read items = some script) : script.Sound :=
  Sound.takeAll ⟨by simp, by simp, fun late => late⟩ allowed

/-- After the final event there is nothing more, or keepalives. -/
theorem after_done (done : script.done = true)
    (allowed : items.foldlM StreamTranscript.take script = some next) :
    (items = [] ∧ next = script) ∨
      (∃ more, items = .keepalive :: more) ∧ next.late = true ∧ next.done = true := by
  induction items generalizing script with
  | nil =>
    cases allowed
    exact .inl ⟨rfl, rfl⟩
  | cons item items ih =>
    rw [foldlM_cons] at allowed
    obtain ⟨middle, first, rest⟩ := Option.bind_eq_some_iff.mp allowed
    rcases take_cases first with ⟨rfl, rfl⟩ | ⟨ev, -, running, -⟩
    · rw [if_pos done] at rest
      refine .inr ⟨⟨items, rfl⟩, ?_⟩
      rcases @ih { script with late := true } done rest with ⟨-, rfl⟩ | ⟨-, all⟩
      · exact ⟨rfl, done⟩
      · exact all
    · exact absurd (done.symm.trans running) (by simp)

end StreamTranscript

/-! ### What can be encoded -/

/-- The texts of an item; a fragment counts where its call is open. -/
def StreamItem.Encodes (isOpen : Prop) : StreamItem → Prop
  | .event (.reasoningDelta text) | .event (.contentDelta text) => Utf8 text
  | .event (.toolCallStart _ name _) => Utf8 (name.getD [])
  | .event (.toolCallArgsDelta _ fragment) => isOpen → Utf8 fragment
  | .event (.toolCallsDelta calls) =>
      ∀ call ∈ calls, Utf8 (call.name.getD []) ∧ Utf8 call.parameters
  | _ => True

def StreamEnd.Encodes : StreamEnd → Prop
  | .exhausted => True
  | .generationError msg code => Utf8 msg ∧ Utf8 (code.getD [])
  | .exception msg => Utf8 msg

/-- No reasoning came between the start of a call and its close, and the fragments begin its final
parameters whether they were said to or not. -/
def ClosedCall.InOnePiece (call : ClosedCall) : Prop :=
  call.started.cut = none ∧ call.started.fragments <+: call.parameters

namespace StreamTranscript

/-- All texts but the fragments. -/
@[mk_iff] structure Encodes (script : StreamTranscript) : Prop where
  reasoning : Utf8 script.reasoning
  content : Utf8 script.content
  closed : ∀ call ∈ script.closed, Utf8 (call.started.name.getD []) ∧ Utf8 call.parameters
  started : ∀ call ∈ script.started, Utf8 (call.name.getD [])

/-- The fragments of the open call, up to the reasoning inside of it. -/
def Forwards (script : StreamTranscript) : Prop :=
  ∀ call ∈ script.started, Utf8 (call.cut.getD call.fragments)

/-- A call is open, and no reasoning came since. -/
def Hears (script : StreamTranscript) : Prop := ∃ call, script.started = some call ∧ call.cut = none

/-- A fragment of the open call cannot be encoded. -/
def Breaks (script : StreamTranscript) : StreamItem → Prop
  | .event (.toolCallArgsDelta _ fragment) => script.Hears ∧ ¬Utf8 fragment
  | _ => False

variable {script next : StreamTranscript}

/-- **One item** of a transcript that can be encoded: so could the transcript before it, and so can
the item unless a fragment breaks it. -/
theorem take_encodes (allowed : script.take item = some next)
    (encodes : next.Encodes) : script.Encodes ∧
      (script.Breaks item ∨ item.Encodes script.Hears) := by
  rcases take_cases allowed with ⟨rfl, rfl⟩ | ⟨ev, rfl, -, takes⟩
  · refine ⟨?_, .inr trivial⟩
    split at encodes <;> exact ⟨encodes.reasoning, encodes.content, encodes.closed, encodes.started⟩
  have standing : ∀ {items : List (ToolCallItem CodePoint)},
      (∀ call ∈ items.map ClosedCall.standalone,
        Utf8 (call.started.name.getD []) ∧ Utf8 call.parameters) →
      ∀ call ∈ items, Utf8 (call.name.getD []) ∧ Utf8 call.parameters :=
    fun all call mem => all _ (mem_map_of_mem mem)
  cases takes with
  | reasoning text =>
    obtain ⟨pre, said⟩ := utf8_append.mp encodes.reasoning
    refine ⟨⟨pre, encodes.content, encodes.closed, fun call isStarted => ?_⟩, .inr said⟩
    have named := encodes.started _ (Option.mem_map_of_mem _ isStarted)
    unfold StartedCall.interrupt at named
    split at named <;> exact named
  | content text =>
    obtain ⟨pre, said⟩ := utf8_append.mp encodes.content
    exact ⟨⟨encodes.reasoning, pre, encodes.closed, encodes.started⟩, .inr said⟩
  | start ordinal name stable isNone =>
    refine ⟨⟨encodes.reasoning, encodes.content, encodes.closed, ?_⟩, .inr (encodes.started _ rfl)⟩
    rw [isNone]
    exact nofun
  | fragment ordinal fragment isStarted =>
    refine ⟨⟨encodes.reasoning, encodes.content, encodes.closed, ?_⟩, ?_⟩
    · rw [isStarted]
      rintro other ⟨⟩
      have named := encodes.started _ rfl
      exact named
    · by_cases said : Utf8 fragment
      · exact .inr fun _ => said
      · by_cases hears : script.Hears
        · exact .inl ⟨hears, said⟩
        · exact .inr fun isOpen => absurd isOpen hears
  | standalone calls =>
    obtain ⟨pre, said⟩ := forall_mem_append.mp encodes.closed
    exact ⟨⟨encodes.reasoning, encodes.content, pre, encodes.started⟩, .inr (standing said)⟩
  | close item more isStarted _ sameName =>
    obtain ⟨pre, said⟩ := forall_mem_append.mp encodes.closed
    obtain ⟨first, others⟩ := forall_mem_cons.mp said
    refine ⟨⟨encodes.reasoning, encodes.content, pre, ?_⟩, .inr ?_⟩
    · rw [isStarted]
      rintro other ⟨⟩
      exact first.1
    · exact forall_mem_cons.mpr ⟨⟨sameName ▸ first.1, first.2⟩, standing others⟩
  | done =>
    exact ⟨⟨encodes.reasoning, encodes.content, encodes.closed, encodes.started⟩, .inr trivial⟩

theorem interrupt_forwards (call : StartedCall) (text : Str) :
    (call.interrupt text).cut.getD (call.interrupt text).fragments =
      call.cut.getD call.fragments := by
  unfold StartedCall.interrupt
  split
  · rfl
  · rename_i loud
    rw [not_or, Bool.not_eq_true, Option.isSome_eq_false_iff, Option.isNone_iff_eq_none] at loud
    rw [loud.2]
    rfl

/-- The fragments that are sent can be encoded as long as none breaks the transcript. -/
theorem Forwards.take (forwards : script.Forwards)
    (allowed : script.take item = some next) (whole : ¬script.Breaks item) :
    next.Forwards := by
  rcases take_cases allowed with ⟨rfl, rfl⟩ | ⟨ev, rfl, -, takes⟩
  · split <;> exact forwards
  cases takes with
  | reasoning text =>
    rintro call isStarted
    obtain ⟨old, isOld, rfl⟩ := Option.mem_map.mp isStarted
    rw [interrupt_forwards]
    exact forwards old isOld
  | start =>
    rintro call ⟨⟩
    exact utf8_nil
  | @fragment ordinal fragment call isStarted =>
    rintro other ⟨⟩
    have pre := forwards call isStarted
    rcases Option.eq_none_or_eq_some call.cut with isCut | ⟨said, isCut⟩
    · rw [isCut] at pre ⊢
      refine utf8_append.mpr ⟨pre, ?_⟩
      exact not_not.mp fun broken => whole ⟨⟨call, isStarted, isCut⟩, broken⟩
    · rw [isCut] at pre ⊢
      exact pre
  | close => nofun
  | _ => exact forwards

/-- Where every closed call is in one piece, the fragments that were sent can be encoded if those of
the last call can. -/
theorem Forwards.before (allowed : script.take item = some next)
    (encodes : next.Encodes) (whole : ∀ call ∈ next.closed, call.InOnePiece)
    (forwards : next.Forwards) :
    (∀ call ∈ script.closed, call.InOnePiece) ∧ script.Forwards ∧ ¬script.Breaks item := by
  rcases take_cases allowed with ⟨rfl, rfl⟩ | ⟨ev, rfl, -, takes⟩
  · split at forwards <;> split at whole <;> exact ⟨whole, forwards, not_false⟩
  cases takes with
  | reasoning text =>
    refine ⟨whole, fun call isStarted => ?_, not_false⟩
    rw [← interrupt_forwards call text]
    exact forwards _ (Option.mem_map_of_mem _ isStarted)
  | start ordinal name stable isNone =>
    refine ⟨whole, ?_, not_false⟩
    unfold Forwards
    rw [isNone]
    exact nofun
  | @fragment ordinal fragment call isStarted =>
    have later := forwards _ rfl
    refine ⟨whole, fun other isOther => ?_, ?_⟩
    · cases isStarted.symm.trans isOther
      rcases Option.eq_none_or_eq_some call.cut with isCut | ⟨said, isCut⟩
      · rw [isCut] at later ⊢
        exact (utf8_append.mp later).1
      · rw [isCut] at later ⊢
        exact later
    · rintro ⟨⟨other, isOther, isCut⟩, broken⟩
      cases isStarted.symm.trans isOther
      rw [isCut] at later
      exact broken (utf8_append.mp later).2
  | standalone => exact ⟨(forall_mem_append.mp whole).1, forwards, not_false⟩
  | close item more isStarted =>
    obtain ⟨pre, pieces⟩ := forall_mem_append.mp whole
    obtain ⟨isCut, isPart⟩ := pieces _ mem_cons_self
    refine ⟨pre, fun other isOther => ?_, not_false⟩
    cases isStarted.symm.trans isOther
    rw [isCut]
    exact ((forall_mem_append.mp encodes.closed).2 _ mem_cons_self).2.of_front isPart
  | _ => exact ⟨whole, forwards, not_false⟩

end StreamTranscript

/-! ### What a client recovers -/

structure CallView where
  name : Str
  arguments : Str
  deriving DecidableEq, Repr

structure Recovered where
  reasoning : Str := []
  content : Str := []
  calls : List CallView := []
  deriving DecidableEq, Repr

namespace Recovered

def openCall (recovered : Recovered) (name : Str) : Recovered :=
  { recovered with calls := recovered.calls ++ [⟨name, []⟩] }

def addArguments (recovered : Recovered) (fragment : Str) : Recovered :=
  { recovered with
    calls := recovered.calls.modify (recovered.calls.length - 1) fun call =>
      { call with arguments := call.arguments ++ fragment } }

/-- The texts and all closed calls, in order, with their names and their final parameters. A call
that an exception has left open has a part of its arguments. -/
structure Of (recovered : Recovered) (script : StreamTranscript) : Prop where
  reasoning : recovered.reasoning = script.reasoning
  content : recovered.content = script.content
  calls : ∃ left : List CallView, recovered.calls = (script.closed.map fun call =>
      ⟨call.started.name.getD [], call.parameters⟩) ++ left ∧
    List.Forall₂ (fun call view => view.name = call.name.getD [] ∧
      view.arguments <+: call.fragments) script.started.toList left

theorem modify_concat {α : Type} (f : α → α) (items : List α) (last : α) :
    (items ++ [last]).modify items.length f = items ++ [f last] := by
  induction items with
  | nil => rfl
  | cons item items ih => exact congrArg (item :: ·) ih

theorem addArguments_concat {calls : List CallView} {call : CallView} {recovered : Recovered}
    (isCalls : recovered.calls = calls ++ [call]) (fragment : Str) :
    (recovered.addArguments fragment).calls =
      calls ++ [⟨call.name, call.arguments ++ fragment⟩] := by
  unfold addArguments
  rw [isCalls, length_append, length_singleton, Nat.add_sub_cancel]
  exact modify_concat _ calls call

end Recovered

end FreeToken
