/-
**The protocol of the generation events.**

* `Generation.Delivers`: what the tool parser delivers in a run, segment by segment, decides which
  calls open without a name.
-/

import FreeToken.Server.Generation
import FreeToken.Server.JsonDetector

set_option linter.unusedSectionVars false

namespace FreeToken

open List

open Generator (Meets emit lift)

variable {F ρ σ : Type}

/-! ### The protocol -/

namespace GenEvent

def isText : GenEvent → Bool
  | reasoningDelta _ | contentDelta _ => true
  | _ => false

/-- What may stand between the start of a call and its close: its arguments, and reasoning. -/
def isInside (ordinal : Nat) : GenEvent → Bool
  | reasoningDelta _ => true
  | toolCallArgsDelta toolIndex _ => toolIndex == ordinal
  | _ => false

def isDone : GenEvent → Bool
  | genDone _ => true
  | _ => false

def isStart : GenEvent → Bool
  | toolCallStart .. => true
  | _ => false

def isArgs : GenEvent → Bool
  | toolCallArgsDelta .. => true
  | _ => false

def emitsCall : GenEvent → Bool
  | toolCallsDelta calls => !calls.isEmpty
  | _ => false

def isNameless : GenEvent → Bool
  | toolCallStart _ name _ => name.isNone
  | _ => false

end GenEvent

/-- A history of texts and of whole calls with the ordinals from the first number up to the second:
a start, its arguments, and the close with the same ordinal. -/
inductive WholeCalls : Nat → List GenEvent → Nat → Prop where
  | nil (count : Nat) : WholeCalls count [] count
  | text {count total : Nat} {event : GenEvent} {events : List GenEvent} (isText : event.isText)
      (rest : WholeCalls count events total) : WholeCalls count (event :: events) total
  | call {count total : Nat} {inside events : List GenEvent} (name : Option (List Char))
      (stable : Bool) (parameters : List Char) (isInside : ∀ event ∈ inside, event.isInside count)
      (rest : WholeCalls (count + 1) events total) :
      WholeCalls count (.toolCallStart count name stable ::
        (inside ++ .toolCallsDelta [⟨count, name, parameters⟩] :: events)) total

/-- **The output protocol**, for the finish reason that the engine reports: the one final event
stands at the end, the calls before it are whole with the ordinals `0, 1, 2, …` (or, where the whole
response is parsed at the end, none is opened), every start has a name, and the finish reason says
whether a call was emitted. -/
structure Protocol (engineReason : Option FinishReason) (events : List GenEvent) : Prop where
  ended : ∃ body done, events = body ++ [.genDone done] ∧ (∀ event ∈ body, !event.isDone) ∧
    ((∃ total, WholeCalls 0 body total) ∨ ∀ event ∈ body, !event.isStart ∧ !event.isArgs) ∧
    (done.finishReason = .toolCalls ↔
      (∃ event ∈ body, event.emitsCall) ∧ engineReason ≠ some .length)
  named : ∀ event ∈ events, !event.isNameless

namespace WholeCalls

variable {first second third : Nat} {pre after : List GenEvent}

theorem append (early : WholeCalls first pre second) (late : WholeCalls second after third) :
    WholeCalls first (pre ++ after) third := by
  induction early with
  | nil _ => exact late
  | text isText _ ih => exact .text isText (ih late)
  | call name stable parameters isInside _ ih =>
    rw [cons_append, append_assoc, cons_append]
    exact .call name stable parameters isInside (ih late)

theorem le (whole : WholeCalls first pre second) : first ≤ second := by
  induction whole with
  | nil _ => exact le_refl _
  | text _ _ ih => exact ih
  | call _ _ _ _ _ ih => omega

theorem not_done (whole : WholeCalls first pre second) : ∀ event ∈ pre, !event.isDone := by
  induction whole with
  | nil _ => exact fun _ mem => by cases mem
  | text isText _ ih =>
    intro event mem
    rcases mem_cons.mp mem with rfl | mem
    · cases event <;> simp_all [GenEvent.isText, GenEvent.isDone]
    · exact ih event mem
  | call name stable parameters isInside _ ih =>
    intro event mem
    rcases mem_cons.mp mem with rfl | mem
    · rfl
    · rcases mem_append.mp mem with inside | mem
      · have := isInside event inside
        cases event <;> simp_all [GenEvent.isInside, GenEvent.isDone]
      · rcases mem_cons.mp mem with rfl | mem
        · rfl
        · exact ih event mem

theorem emits_iff (whole : WholeCalls first pre second) :
    (∃ event ∈ pre, event.emitsCall) ↔ first < second := by
  induction whole with
  | nil _ => simp
  | text isText _ ih =>
    rw [← ih]
    constructor
    · rintro ⟨event, mem, emits⟩
      rcases mem_cons.mp mem with rfl | mem
      · cases event <;> simp_all [GenEvent.isText, GenEvent.emitsCall]
      · exact ⟨event, mem, emits⟩
    · rintro ⟨event, mem, emits⟩
      exact ⟨event, mem_cons_of_mem _ mem, emits⟩
  | @call count _ _ _ name stable parameters _ rest _ =>
    have grown := rest.le
    refine ⟨fun _ => by omega, fun _ => ⟨.toolCallsDelta [⟨count, name, parameters⟩], ?_, rfl⟩⟩
    exact mem_cons_of_mem _ (mem_append_right _ mem_cons_self)

end WholeCalls

/-! ### The history of an assembly -/

variable (frags : List ToolCallItem)

namespace Assembly

/-- The history so far, with the call that is open. Every step keeps it, so every run that ends is
one of whole calls (`Generation.events_meets`). -/
def Held (seen : List GenEvent) (self : Assembly F σ) : Prop :=
  match self.openCall with
  | none => WholeCalls 0 seen self.callsEmitted
  | some call => call.ordinal = self.callsEmitted ∧ ∃ pre inside stable,
      seen = pre ++ .toolCallStart call.ordinal call.name stable :: inside ∧
      WholeCalls 0 pre call.ordinal ∧ ∀ event ∈ inside, event.isInside call.ordinal

def NoneDone (seen : List GenEvent) : Prop := ∀ event ∈ seen, !event.isDone

variable {seen : List GenEvent} {self : Assembly F σ} {specials : List (List Char)}

theorem Held.noneDone (held : self.Held seen) : NoneDone seen := by
  unfold Held at held
  split at held
  · exact held.not_done
  · rename_i call _
    obtain ⟨-, pre, inside, stable, rfl, whole, isInside⟩ := held
    intro event mem
    rcases mem_append.mp mem with mem | mem
    · exact whole.not_done event mem
    · rcases mem_cons.mp mem with rfl | mem
      · rfl
      · have := isInside event mem
        cases event <;> simp_all [GenEvent.isInside, GenEvent.isDone]

theorem Held.of_closed (closed : self.openCall = none)
    (whole : WholeCalls 0 seen self.callsEmitted) : self.Held seen := by
  unfold Held
  rw [closed]
  exact whole

theorem Held.whole (held : self.Held seen) (closed : self.openCall = none) :
    WholeCalls 0 seen self.callsEmitted := by
  unfold Held at held
  rw [closed] at held
  exact held

theorem Held.congr {other : Assembly F σ} (held : self.Held seen)
    (sameOpen : other.openCall = self.openCall)
    (sameCount : other.callsEmitted = self.callsEmitted) : other.Held seen := by
  unfold Held at held ⊢
  rw [sameOpen, sameCount]
  exact held

theorem Held.reasoning (held : self.Held seen) (text : List Char) :
    self.Held (seen ++ [.reasoningDelta text]) := by
  unfold Held at held ⊢
  split at held
  · exact held.append (.text rfl (.nil _))
  · rename_i call _
    obtain ⟨same, pre, inside, stable, rfl, whole, isInside⟩ := held
    refine ⟨same, pre, inside ++ [.reasoningDelta text], stable, ?_, whole, ?_⟩
    · rw [append_assoc, cons_append]
    · intro event mem
      rcases mem_append.mp mem with mem | mem
      · exact isInside event mem
      · obtain rfl := mem_singleton.mp mem
        rfl

theorem Held.content (held : self.Held seen) (closed : self.openCall = none) (text : List Char) :
    self.Held (seen ++ [.contentDelta text]) :=
  .of_closed closed ((held.whole closed).append (.text rfl (.nil _)))

variable [PyFloat F]

theorem closeOpenCall_meets (held : self.Held seen) :
    Meets seen self.closeOpenCall (fun seen self => self.Held seen ∧ self.openCall = none)
      NoneDone := by
  unfold closeOpenCall
  split
  · rename_i closed
    exact .pure ⟨held, closed⟩
  · rename_i call opened
    unfold Held at held
    rw [opened] at held
    obtain ⟨same, pre, inside, stable, rfl, whole, isInside⟩ := held
    refine .bind (Q := fun seen _ => seen = _) (.emit rfl) ?_
    rintro _ _ rfl
    refine .pure ⟨.of_closed rfl ?_, rfl⟩
    rw [append_assoc, cons_append, ← same]
    exact whole.append (.call _ _ _ isInside (.nil _))

theorem routeText_meets (held : self.Held seen) (payload : List Char) :
    Meets seen (routeText specials self payload) (fun seen self => self.Held seen) NoneDone := by
  apply (closeOpenCall_meets held).bind
  rintro seen self ⟨held, closed⟩
  dsimp only
  split
  · exact .pure held
  · refine .bind (Q := fun seen _ => self.Held seen) (.emit (held.content closed _)) ?_
    intro seen _ held
    exact .pure (held.congr rfl rfl)

theorem openNew_meets (held : self.Held seen) (closed : self.openCall = none)
    (frag : ToolCallItem) :
    Meets seen (self.openNew frag) (fun seen self => self.Held seen) NoneDone := by
  refine .bind (Q := fun history _ => history = _) (.emit rfl) ?_
  rintro _ _ rfl
  refine .pure ⟨rfl, seen, [], _, rfl, held.whole closed, ?_⟩
  exact fun _ mem => by cases mem

theorem addParameters_meets (held : self.Held seen) (fragment : List Char) :
    Meets seen (self.addParameters fragment) (fun seen self => self.Held seen) NoneDone := by
  unfold addParameters
  split
  · exact .pure held
  · rename_i call opened
    split
    · exact .pure held
    · unfold Held at held
      rw [opened] at held
      obtain ⟨same, pre, inside, stable, rfl, whole, isInside⟩ := held
      refine .bind (Q := fun history _ => history = _) (.emit rfl) ?_
      rintro _ _ rfl
      refine .pure ⟨same, pre, inside ++ [.toolCallArgsDelta call.ordinal fragment], stable,
        ?_, whole, ?_⟩
      · rw [append_assoc, cons_append]
      · intro event mem
        rcases mem_append.mp mem with mem | mem
        · exact isInside event mem
        · obtain rfl := mem_singleton.mp mem
          exact beq_self_eq_true _

theorem makeWay_meets (held : self.Held seen) (frag : ToolCallItem) :
    Meets seen (self.makeWay frag) (fun seen self => self.Held seen) NoneDone := by
  unfold makeWay
  split
  · exact (closeOpenCall_meets held).mono fun _ _ closed => closed.1
  · exact .pure held

theorem ensureOpen_meets (held : self.Held seen) (frag : ToolCallItem) :
    Meets seen (self.ensureOpen frag) (fun seen self => self.Held seen) NoneDone := by
  unfold ensureOpen
  split
  · rename_i closed
    exact openNew_meets held (Option.isNone_iff_eq_none.mp closed) frag
  · exact .pure held

theorem routeFrag_meets (held : self.Held seen) (frag : ToolCallItem) :
    Meets seen (self.routeFrag frag) (fun seen self => self.Held seen) NoneDone := by
  apply (makeWay_meets held frag).bind
  intro seen self held
  apply (ensureOpen_meets held frag).bind
  intro seen self held
  exact addParameters_meets held frag.parameters

theorem routeFrags_meets (held : self.Held seen) :
    Meets seen (self.routeFrags frags) (fun seen self => self.Held seen) NoneDone := by
  induction frags generalizing self seen with
  | nil => exact .pure held
  | cons frag frags ih => exact (routeFrag_meets held frag).bind fun _ _ held => ih held

theorem routeSegments_meets (segs : List Segment) (held : self.Held seen) :
    Meets seen (routeSegments specials self segs) (fun seen self => self.Held seen)
      NoneDone := by
  induction segs generalizing self seen with
  | nil => exact .pure held
  | cons seg segs ih =>
    cases seg with
    | text payload => exact (routeText_meets held payload).bind fun _ _ held => ih held
    | calls payload => exact (routeFrags_meets payload held).bind fun _ _ held => ih held

theorem routeToolText_meets (held : self.Held seen) (piece : List Char) :
    Meets seen (routeToolText specials self piece) (fun seen self => self.Held seen)
      NoneDone := by
  unfold routeToolText
  split
  · exact .pure held
  · refine .bind (Q := fun seen _ => self.Held seen) ?_ ?_
    · exact .lift (fun _ _ => held) fun _ => held.noneDone
    · intro seen parsed held
      exact routeSegments_meets _ (held.congr rfl rfl)

theorem addFinal_meets (held : self.Held seen) :
    Meets seen (self.addFinal frags) (fun seen self => self.Held seen) NoneDone := by
  induction frags generalizing self seen with
  | nil => exact .pure held
  | cons frag frags ih =>
    exact (addParameters_meets held frag.parameters).bind fun _ _ held => ih held

theorem emitRecovered_meets (items : List ToolCallItem) (held : self.Held seen)
    (closed : self.openCall = none) :
    Meets seen (self.emitRecovered items)
      (fun seen self => self.Held seen ∧ self.openCall = none) NoneDone := by
  induction items generalizing self seen with
  | nil => exact .pure ⟨held, closed⟩
  | cons item items ih =>
    refine .bind (Q := fun history _ => history = _) (.emit rfl) ?_
    rintro _ _ rfl
    refine .bind (Q := fun history _ => history = _) (.emit rfl) ?_
    rintro _ _ rfl
    refine ih (.of_closed closed ?_) closed
    rw [append_assoc]
    have none : ∀ event ∈ ([] : List GenEvent), event.isInside self.callsEmitted :=
      fun _ mem => by cases mem
    exact (held.whole closed).append (.call _ _ _ none (.nil _))

theorem drain_meets (held : self.Held seen) : Meets seen (drain specials self)
      (fun seen self => WholeCalls 0 seen self.callsEmitted) NoneDone := by
  obtain ⟨items, toolParser⟩ := self.toolParser.finalizeStream
  refine .bind (Q := fun seen (self : Assembly F σ) => self.Held seen)
    (addFinal_meets _ (held.congr rfl rfl)) ?_
  intro seen self held
  apply (closeOpenCall_meets held).bind
  rintro seen self ⟨held, closed⟩
  obtain ⟨items, toolParser⟩ := self.toolParser.recoverTruncatedCall
  refine .bind (Q := fun seen (self : Assembly F σ) => self.Held seen ∧ self.openCall = none)
    (emitRecovered_meets _ (held.congr rfl rfl) closed) ?_
  rintro seen self ⟨held, closed⟩
  dsimp only
  split
  · exact .pure (held.whole closed)
  · refine .bind (Q := fun seen _ => self.Held seen) (.emit (held.content closed _)) ?_
    intro seen _ held
    exact .pure (held.whole closed)

end Assembly

/-! ### The history of a run -/

def ContentPath.Held (seen : List GenEvent) : ContentPath F σ → Prop
  | .tools assembly => assembly.Held seen
  | _ => ∀ event ∈ seen, event.isText

namespace ContentPath

variable {seen : List GenEvent} {content : ContentPath F σ}

theorem noneDone_of_texts (texts : ∀ event ∈ seen, event.isText) : Assembly.NoneDone seen := by
  intro event mem
  have := texts event mem
  cases event <;> simp_all [GenEvent.isText, GenEvent.isDone]

theorem Held.noneDone (held : content.Held seen) : Assembly.NoneDone seen := by
  cases content with
  | tools assembly => exact Assembly.Held.noneDone held
  | buffered pending => exact noneDone_of_texts held
  | plain => exact noneDone_of_texts held

theorem texts_append {added : GenEvent} (texts : ∀ event ∈ seen, event.isText)
    (isText : added.isText = true) : ∀ event ∈ seen ++ [added], event.isText := by
  intro event mem
  rcases mem_append.mp mem with mem | mem
  · exact texts event mem
  · rw [mem_singleton.mp mem]
    exact isText

theorem Held.reasoning (held : content.Held seen) (text : List Char) :
    content.Held (seen ++ [.reasoningDelta text]) := by
  cases content with
  | tools assembly => exact Assembly.Held.reasoning held text
  | buffered pending => exact texts_append held rfl
  | plain => exact texts_append held rfl

end ContentPath

variable {state : GenerationState F ρ σ} {content : ContentPath F σ} (acks : List UserReply)

namespace Generation

variable [PyFloat F] {self : Generation F ρ σ} {seen : List GenEvent}

theorem emitReasoning_meets (held : content.Held seen) (text : List Char) :
    Meets seen (self.emitReasoning text) (fun seen _ => content.Held seen) Assembly.NoneDone := by
  exact .emitIf held (held.reasoning _)

theorem takeContent_meets (held : content.Held seen) (piece : List Char) :
    Meets seen (self.takeContent content piece) (fun seen content => content.Held seen)
      Assembly.NoneDone := by
  unfold takeContent
  split
  · exact .pure held
  · cases content with
    | tools assembly =>
      exact (Assembly.routeToolText_meets held piece).bind fun _ _ held => .pure held
    | buffered pending => exact .pure held
    | plain =>
      refine .bind (Q := fun seen _ => ∀ event ∈ seen, event.isText = true) (.emit ?_) ?_
      · exact ContentPath.texts_append held rfl
      · intro seen _ texts
        apply Meets.pure
        exact texts

theorem takeReply_meets (held : state.content.Held seen) (ack : UserReply) :
    Meets seen (self.takeReply state ack) (fun seen state => state.content.Held seen)
      Assembly.NoneDone := by
  apply (emitReasoning_meets held _).bind
  intro seen _ held
  exact (takeContent_meets held _).bind fun _ _ held => .pure held

theorem replyLoop_meets {state : GenerationState F ρ σ} (held : state.content.Held seen) :
    Meets seen (self.replyLoop state acks) (fun seen loop => loop.1.content.Held seen)
      Assembly.NoneDone := by
  induction acks generalizing state seen with
  | nil => exact .pure held
  | cons ack acks ih =>
    unfold replyLoop
    split
    · exact .lift (fun _ same => by cases same) fun _ => held.noneDone
    · apply (takeReply_meets held ack).bind
      intro seen state held
      split
      · exact .pure held
      · exact ih held

theorem flushReasoning_meets (held : state.content.Held seen) :
    Meets seen (self.flushReasoning state) (fun seen content => content.Held seen)
      Assembly.NoneDone := by
  unfold flushReasoning
  split
  · exact .pure held
  · apply (emitReasoning_meets held _).bind
    intro seen _ held
    exact takeContent_meets held _

/-- What has been emitted before the final event, with its finish reason. -/
structure Finished (reason : FinishReason) (seen : List GenEvent) (final : GenFinishReason) :
    Prop where
  noneDone : Assembly.NoneDone seen
  whole : (∃ total, WholeCalls 0 seen total) ∨ ∀ event ∈ seen, !event.isStart ∧ !event.isArgs
  reason_iff : final = .toolCalls ↔ (∃ event ∈ seen, event.emitsCall) ∧ reason ≠ .length

theorem overrideReason_eq (reason : FinishReason) (called : Bool) :
    overrideReason reason called = .toolCalls ↔ called ∧ reason ≠ .length := by
  unfold overrideReason
  split <;> simp_all

theorem Finished.of_texts {reason : FinishReason} (texts : ∀ event ∈ seen, event.isText) :
    Finished reason seen (overrideReason reason false) where
  noneDone := ContentPath.noneDone_of_texts texts
  whole := by
    apply Or.inr
    intro event mem
    have := texts event mem
    cases event <;> simp_all [GenEvent.isText, GenEvent.isStart, GenEvent.isArgs]
  reason_iff := by
    rw [overrideReason_eq]
    constructor
    · rintro ⟨impossible, -⟩
      cases impossible
    · rintro ⟨⟨event, mem, emits⟩, -⟩
      have := texts event mem
      cases event <;> simp_all [GenEvent.isText, GenEvent.emitsCall]

theorem Finished.of_response {reason : FinishReason} {calls : List ToolCallItem}
    (texts : ∀ event ∈ seen, event.isText) (called : calls ≠ []) :
    Finished reason (seen ++ [.toolCallsDelta calls]) (overrideReason reason true) where
  noneDone := by
    intro event mem
    rcases mem_append.mp mem with mem | mem
    · exact ContentPath.noneDone_of_texts texts event mem
    · obtain rfl := mem_singleton.mp mem
      rfl
  whole := by
    apply Or.inr
    intro event mem
    rcases mem_append.mp mem with mem | mem
    · have := texts event mem
      cases event <;> simp_all [GenEvent.isText, GenEvent.isStart, GenEvent.isArgs]
    · obtain rfl := mem_singleton.mp mem
      exact ⟨rfl, rfl⟩
  reason_iff := by
    rw [overrideReason_eq]
    refine and_congr_left fun _ => ⟨fun _ => ⟨.toolCallsDelta calls, ?_, ?_⟩, fun _ => rfl⟩
    · exact mem_append_right _ mem_cons_self
    · simpa [GenEvent.emitsCall] using called

theorem finishContent_meets (held : content.Held seen) (reason : FinishReason) :
    Meets seen (self.finishContent content reason) (Finished reason) Assembly.NoneDone := by
  cases content with
  | tools assembly =>
    apply (Assembly.drain_meets held).bind
    intro seen assembly whole
    refine .pure ⟨whole.not_done, .inl ⟨_, whole⟩, ?_⟩
    rw [overrideReason_eq, whole.emits_iff, decide_eq_true_iff, pos_iff_ne_zero]
  | buffered pending =>
    refine .bind (Q := fun history parsed => history = seen ∧
      self.parseToolResponse pending = some parsed) ?_ ?_
    · exact .lift (fun _ same => ⟨rfl, same⟩) fun _ => ContentPath.noneDone_of_texts held
    rintro _ parsed ⟨rfl, response⟩
    cases parsed with
    | some res =>
      have called : res.calls ≠ [] := by
        unfold parseToolResponse at response
        split at response
        · simp only [Option.bind_eq_bind, Option.bind_eq_some_iff] at response
          obtain ⟨parser, -, parsed, -, same⟩ := response
          simp only [Option.pure_def, Option.some.injEq] at same
          split at same
          · cases same
          · rename_i called
            cases same
            exact called
        · cases response
      refine .bind (Q := fun seen _ => ∀ event ∈ seen, GenEvent.isText event)
        (.emitIf held (ContentPath.texts_append held rfl)) ?_
      intro seen _ texts
      refine .bind (Q := fun history _ => history = _) (.emit rfl) ?_
      rintro _ _ rfl
      exact .pure (.of_response texts called)
    | none =>
      refine .bind (Q := fun seen _ => ∀ event ∈ seen, GenEvent.isText event)
        (.emitIf held (ContentPath.texts_append held rfl)) ?_
      intro seen _ texts
      exact .pure (.of_texts texts)
  | plain =>
    exact .pure (.of_texts held)

theorem init_held : self.init.content.Held [] := by
  unfold init contentPath
  split
  · split
    · split
      · exact WholeCalls.nil 0
      · exact fun _ mem => by cases mem
    · exact fun _ mem => by cases mem
  · exact fun _ mem => by cases mem

def engineReason : Option FinishReason :=
  (acks.find? UserReply.finished).bind UserReply.finishReason

theorem replyLoop_reason {state : GenerationState F ρ σ}
    {loop : GenerationState F ρ σ × Option FinishReason × Option (List Char)}
    (ret : (self.replyLoop state acks).result = some loop) : loop.2.1 = engineReason acks := by
  induction acks generalizing state with
  | nil =>
    cases ret
    rfl
  | cons ack acks ih =>
    unfold replyLoop at ret
    split at ret
    · cases ret
    · rw [Generator.result_bind, Option.bind_eq_some_iff] at ret
      obtain ⟨state, -, ret⟩ := ret
      split at ret
      · rename_i finished
        cases ret
        unfold engineReason
        rw [find?_cons_of_pos finished]
        rfl
      · rename_i unfinished
        unfold engineReason
        rw [find?_cons_of_neg unfinished]
        exact ih ret

theorem events_meets : Meets [] (self.events acks)
      (fun seen _ => ∃ body done, seen = body ++ [.genDone done] ∧
        Finished ((engineReason acks).getD .stop) body done.finishReason)
      Assembly.NoneDone := by
  refine .bind (Q := fun seen loop => loop.1.content.Held seen ∧ loop.2.1 = engineReason acks) ?_ ?_
  · apply Meets.of_result
    · intro loop ret
      exact ⟨(replyLoop_meets acks init_held).returns ret, replyLoop_reason acks ret⟩
    · exact (replyLoop_meets acks init_held).raises
  rintro seen ⟨state, engineFinishReason, engineMatchedStop⟩ ⟨held, rfl⟩
  apply (flushReasoning_meets held).bind
  intro seen content held
  apply (finishContent_meets held _).bind
  intro seen finishReason finished
  exact .emit ⟨seen, _, rfl, finished⟩

end Generation

/-! ### What the tool parser delivers -/

def Named (events : List GenEvent) : Prop := ∀ event ∈ events, !event.isNameless

theorem named_append {pre after : List GenEvent} : Named (pre ++ after) ↔ Named pre ∧ Named after :=
  forall_mem_append

/-- The computation returns a value that satisfies `Q`, and `named` says whether every call that it
starts has a name. -/
structure Accounts {α : Type} (comp : Generator GenEvent α) (Q : α → Prop) (named : Prop) :
    Prop where
  returns : ∃ value, comp.result = some value ∧ Q value
  named_iff : Named comp.events ↔ named

namespace Accounts

variable {α β : Type} {comp : Generator GenEvent α} {next : α → Generator GenEvent β}
  {Q R : α → Prop} {S : β → Prop} {N M : Prop}

theorem pure {value : α} (holds : Q value) :
    Accounts (Pure.pure value : Generator GenEvent α) Q True where
  returns := ⟨value, rfl, holds⟩
  named_iff := ⟨fun _ => trivial, fun _ _ mem => by cases mem⟩

theorem emit {event : GenEvent} {Q : Unit → Prop} (holds : Q ()) :
    Accounts (Generator.emit event) Q (event.isNameless = false) where
  returns := ⟨(), rfl, holds⟩
  named_iff := by
    show (∀ other ∈ [event], _) ↔ _
    simp

theorem emit_named {event : GenEvent} {Q : Unit → Prop} (holds : Q ())
    (hasName : event.isNameless = false) : Accounts (Generator.emit event) Q True where
  returns := ⟨(), rfl, holds⟩
  named_iff := (emit (Q := Q) holds).named_iff.trans (iff_true_intro hasName)

theorem emitIf_named {condition : Bool} {event : GenEvent} {Q : Unit → Prop} (holds : Q ())
    (hasName : event.isNameless = false) : Accounts (Generator.emitIf condition event) Q True := by
  cases condition with
  | false => exact ⟨⟨(), rfl, holds⟩, iff_true_intro fun _ mem => by cases mem⟩
  | true => exact emit_named holds hasName

theorem lift {value : Option α} {got : α} (same : value = some got) :
    Accounts (Generator.lift value : Generator GenEvent α) (· = got) True where
  returns := ⟨got, same, rfl⟩
  named_iff := iff_true_intro fun _ mem => by cases mem

theorem bind (first : Accounts comp Q N) (rest : ∀ value, Q value → Accounts (next value) S M) :
    Accounts (comp >>= next) S (N ∧ M) := by
  obtain ⟨⟨value, ret, holds⟩, named_iff⟩ := first
  obtain ⟨returns, later_iff⟩ := rest value holds
  rw [Generator.bind_some ret]
  exact ⟨returns, named_append.trans (and_congr named_iff later_iff)⟩

theorem congr {other : Prop} (accounts : Accounts comp Q N) (same : N ↔ other) :
    Accounts comp Q other :=
  ⟨accounts.returns, accounts.named_iff.trans same⟩

theorem mono (accounts : Accounts comp Q N) (weaker : ∀ value, Q value → R value) :
    Accounts comp R N := by
  obtain ⟨⟨value, ret, holds⟩, named_iff⟩ := accounts
  exact ⟨⟨value, ret, weaker value holds⟩, named_iff⟩

end Accounts

def openAfter : Bool → List Segment → Bool
  | opened, [] => opened
  | _, .text _ :: segs => openAfter false segs
  | opened, .calls items :: segs => openAfter (opened || !items.isEmpty) segs

def FragsNamed : Bool → List ToolCallItem → Prop
  | _, [] => True
  | opened, frag :: frags => (opened = true ∨ frag.name ≠ none) ∧ FragsNamed true frags

/-- **The first fragment after the start of the stream, and the first after a text, has a name.** -/
def HeadsNamed : Bool → List Segment → Prop
  | _, [] => True
  | _, .text _ :: segs => HeadsNamed false segs
  | opened, .calls items :: segs =>
      FragsNamed opened items ∧ HeadsNamed (opened || !items.isEmpty) segs

theorem openAfter_append (opened : Bool) (first second : List Segment) :
    openAfter opened (first ++ second) = openAfter (openAfter opened first) second := by
  induction first generalizing opened with
  | nil => rfl
  | cons seg segs ih => cases seg <;> exact ih _

theorem headsNamed_append (opened : Bool) (first second : List Segment) :
    HeadsNamed opened (first ++ second) ↔
      HeadsNamed opened first ∧ HeadsNamed (openAfter opened first) second := by
  induction first generalizing opened with
  | nil => exact ⟨fun named => ⟨trivial, named⟩, And.right⟩
  | cons seg segs ih =>
    cases seg with
    | text text => exact ih false
    | calls items => exact (and_congr_right fun _ => ih _).trans and_assoc.symm

instance : (opened : Bool) → (frags : List ToolCallItem) → Decidable (FragsNamed opened frags)
  | _, [] => .isTrue trivial
  | opened, frag :: frags =>
      have := instDecidableFragsNamed true frags
      inferInstanceAs (Decidable ((opened = true ∨ frag.name ≠ none) ∧ FragsNamed true frags))

instance : (opened : Bool) → (segs : List Segment) → Decidable (HeadsNamed opened segs)
  | _, [] => .isTrue trivial
  | _, .text _ :: segs => instDecidableHeadsNamed false segs
  | opened, .calls items :: segs =>
      have := instDecidableHeadsNamed (opened || !items.isEmpty) segs
      inferInstanceAs (Decidable (FragsNamed opened items ∧
        HeadsNamed (opened || !items.isEmpty) segs))

/-- The segments of the pieces, one after another; `none` where the detector raises. -/
def FunctionCallParser.deliver (parser : FunctionCallParser F σ) :
    List (List Char) → Option (List Segment × FunctionCallParser F σ)
  | [] => some ([], parser)
  | piece :: pieces =>
      if piece = [] then parser.deliver pieces
      else (parser.parseStreamEvents piece).bind fun (segs, parser) =>
        (parser.deliver pieces).map fun (later, parser) => (segs ++ later, parser)

namespace Assembly

variable [PyFloat F] {self : Assembly F σ} {specials : List (List Char)} {opened : Bool}
  {parser : FunctionCallParser F σ}

def Stands (parser : FunctionCallParser F σ) (opened : Bool) (self : Assembly F σ) : Prop :=
  self.toolParser = parser ∧ self.openCall.isSome = opened

theorem closeOpenCall_accounts (stands : self.Stands parser opened) :
    Accounts self.closeOpenCall (Stands parser false) True := by
  unfold closeOpenCall
  split
  · rename_i closed
    exact .pure ⟨stands.1, by rw [closed, Option.isSome_none]⟩
  · refine ((Accounts.emit_named (Q := fun _ => True) trivial rfl).bind (M := True)
      fun _ _ => ?_).congr (and_self_iff)
    exact .pure ⟨stands.1, rfl⟩

theorem routeText_accounts (stands : self.Stands parser opened) (payload : List Char) :
    Accounts (routeText specials self payload) (Stands parser false) True := by
  refine ((closeOpenCall_accounts stands).bind (M := True) fun self stands => ?_).congr
    and_self_iff
  dsimp only
  split
  · exact .pure stands
  · refine ((Accounts.emit_named (Q := fun _ => True) trivial rfl).bind (M := True)
      fun _ _ => ?_).congr (and_self_iff)
    exact .pure stands

theorem openNew_accounts (stands : self.Stands parser opened) (frag : ToolCallItem) :
    Accounts (self.openNew frag) (Stands parser true) (frag.name ≠ none) := by
  refine ((Accounts.emit (Q := fun _ => True) trivial).bind (M := True)
    fun _ _ => ?_).congr ?_
  · exact .pure ⟨stands.1, rfl⟩
  · rw [and_true]
    cases name : frag.name <;> simp [GenEvent.isNameless]

theorem addParameters_accounts (stands : self.Stands parser opened) (fragment : List Char) :
    Accounts (self.addParameters fragment) (Stands parser opened) True := by
  unfold addParameters
  split
  · exact .pure stands
  · rename_i call found
    split
    · exact .pure stands
    · refine ((Accounts.emit_named (Q := fun _ => True) trivial rfl).bind (M := True)
        fun _ _ => ?_).congr (and_self_iff)
      refine .pure ⟨stands.1, ?_⟩
      rw [← stands.2, found]
      rfl

theorem makeWay_accounts (stands : self.Stands parser opened) (frag : ToolCallItem) :
    Accounts (self.makeWay frag) (Stands parser (opened && !self.startsNew frag)) True := by
  unfold makeWay
  split
  · rename_i starts
    rw [starts, Bool.not_true, Bool.and_false]
    exact closeOpenCall_accounts stands
  · rename_i goesOn
    rw [Bool.eq_false_of_not_eq_true goesOn, Bool.not_false, Bool.and_true]
    exact .pure stands

theorem ensureOpen_accounts (stands : self.Stands parser opened) (frag : ToolCallItem) :
    Accounts (self.ensureOpen frag) (Stands parser true) (opened = true ∨ frag.name ≠ none) := by
  unfold ensureOpen
  split
  · rename_i closed
    have isClosed : opened = false := by
      rw [← stands.2, Option.isNone_iff_eq_none.mp closed, Option.isSome_none]
    exact (openNew_accounts stands frag).congr (by simp [isClosed])
  · rename_i found
    have isOpen : opened = true := by
      rw [← stands.2]
      exact Option.isSome_iff_ne_none.mpr fun none => found (Option.isNone_iff_eq_none.mpr none)
    exact (Accounts.pure ⟨stands.1, stands.2.trans isOpen⟩).congr (by simp [isOpen])

theorem routeFrag_accounts (stands : self.Stands parser opened) (frag : ToolCallItem) :
    Accounts (self.routeFrag frag) (Stands parser true) (opened = true ∨ frag.name ≠ none) := by
  refine ((makeWay_accounts stands frag).bind fun self stands =>
    (ensureOpen_accounts stands frag).bind fun self stands =>
      addParameters_accounts stands frag.parameters).congr ?_
  have starts_named : self.startsNew frag = true → frag.name ≠ none := by
    intro starts
    exact Option.isSome_iff_ne_none.mp (Bool.and_eq_true_iff.mp starts).1
  rw [true_and, and_true, Bool.and_eq_true_iff, Bool.not_eq_true']
  constructor
  · rintro (⟨isOpen, -⟩ | named)
    · exact .inl isOpen
    · exact .inr named
  · rintro (isOpen | named)
    · cases starts : self.startsNew frag with
      | false => exact .inl ⟨isOpen, rfl⟩
      | true => exact .inr (starts_named starts)
    · exact .inr named

theorem routeFrags_accounts (stands : self.Stands parser opened) :
    Accounts (self.routeFrags frags) (Stands parser (opened || !frags.isEmpty))
      (FragsNamed opened frags) := by
  induction frags generalizing self opened with
  | nil =>
    rw [isEmpty_nil, Bool.not_true, Bool.or_false]
    exact .pure stands
  | cons frag frags ih =>
    rw [isEmpty_cons, Bool.not_false, Bool.or_true]
    refine (routeFrag_accounts stands frag).bind fun self stands => ?_
    exact (ih stands).mono fun _ stands => stands

theorem routeSegments_accounts (segs : List Segment) (stands : self.Stands parser opened) :
    Accounts (routeSegments specials self segs) (Stands parser (openAfter opened segs))
      (HeadsNamed opened segs) := by
  induction segs generalizing self opened with
  | nil => exact .pure stands
  | cons seg segs ih =>
    cases seg with
    | text payload =>
      exact ((routeText_accounts stands payload).bind fun _ stands => ih stands).congr
        (by rw [true_and]; rfl)
    | calls payload => exact (routeFrags_accounts payload stands).bind fun _ stands => ih stands

theorem routeToolText_accounts {piece : List Char} {segs : List Segment} (solid : piece ≠ [])
    (parsed : self.toolParser.parseStreamEvents piece = some (segs, parser)) :
    Accounts (routeToolText specials self piece)
      (Stands parser (openAfter self.openCall.isSome segs))
      (HeadsNamed self.openCall.isSome segs) := by
  unfold routeToolText
  rw [if_neg solid]
  refine ((Accounts.lift parsed).bind (S := Stands parser (openAfter self.openCall.isSome segs))
    (M := HeadsNamed self.openCall.isSome segs) ?_).congr (by rw [true_and])
  rintro _ rfl
  exact routeSegments_accounts segs ⟨rfl, rfl⟩

theorem routeToolText_raises {piece : List Char} (solid : piece ≠ [])
    (raised : self.toolParser.parseStreamEvents piece = none) :
    (routeToolText specials self piece).result = none := by
  unfold routeToolText
  rw [if_neg solid, Generator.result_bind, Generator.result_lift, raised, Option.bind_none]

theorem addFinal_accounts (stands : self.Stands parser opened) :
    Accounts (self.addFinal frags) (Stands parser opened) True := by
  induction frags generalizing self with
  | nil => exact .pure stands
  | cons frag frags ih =>
    exact ((addParameters_accounts stands frag.parameters).bind fun _ stands => ih stands).congr
      and_self_iff

theorem emitRecovered_accounts (items : List ToolCallItem) :
    Accounts (self.emitRecovered items) (fun _ => True) (∀ item ∈ items, item.name ≠ none) := by
  induction items generalizing self with
  | nil => exact (Accounts.pure trivial).congr (by simp)
  | cons item items ih =>
    refine ((Accounts.emit (Q := fun _ => True) trivial).bind fun _ _ =>
      (Accounts.emit_named (Q := fun _ => True) trivial rfl).bind fun _ _ => ih).congr ?_
    rw [true_and, forall_mem_cons]
    refine and_congr_left fun _ => ?_
    cases name : item.name <;> simp [GenEvent.isNameless]

theorem drain_accounts (stands : self.Stands parser opened) :
    Accounts (drain specials self) (fun _ => True)
      (∀ item ∈ parser.finalizeStream.2.recoverTruncatedCall.1, item.name ≠ none) := by
  obtain ⟨rfl, sameOpen⟩ := stands
  unfold drain
  obtain ⟨items, toolParser⟩ := self.toolParser.finalizeStream
  have stands : ({ self with toolParser := toolParser } : Assembly F σ).Stands toolParser opened :=
    ⟨rfl, sameOpen⟩
  refine ((addFinal_accounts items stands).bind fun self stands =>
    (closeOpenCall_accounts stands).bind (M := ∀ item ∈ toolParser.recoverTruncatedCall.1,
      item.name ≠ none) fun self stands => ?_).congr (by rw [true_and, true_and])
  obtain ⟨rfl, -⟩ := stands
  obtain ⟨items, toolParser⟩ := self.toolParser.recoverTruncatedCall
  refine ((emitRecovered_accounts items).bind (M := True) fun self _ => ?_).congr
    (by rw [and_true])
  dsimp only
  split
  · exact .pure trivial
  · refine ((Accounts.emit_named (Q := fun _ => True) trivial rfl).bind (M := True)
      fun _ _ => ?_).congr (and_self_iff)
    exact .pure trivial

end Assembly

namespace FunctionCallParser

variable {parser later : FunctionCallParser F σ} {segs : List Segment}
  {first second : List (List Char)}

theorem deliver_append (parser : FunctionCallParser F σ) (first second : List (List Char)) :
    parser.deliver (first ++ second) = (parser.deliver first).bind fun (segs, parser) =>
      (parser.deliver second).map fun (later, parser) => (segs ++ later, parser) := by
  induction first generalizing parser with
  | nil =>
    simp only [nil_append, deliver, Option.bind_some]
    cases parser.deliver second <;> rfl
  | cons piece pieces ih =>
    simp only [cons_append, deliver]
    split
    · exact ih parser
    · cases parser.parseStreamEvents piece with
      | none => rfl
      | some parsed =>
        simp only [Option.bind_some, ih]
        cases parsed.2.deliver pieces with
        | none => rfl
        | some delivered =>
          simp only [Option.bind_some, Option.map_some]
          cases delivered.2.deliver second with
          | none => rfl
          | some last => simp only [Option.map_some, append_assoc]

theorem deliver_singleton (parser : FunctionCallParser F σ) {piece : List Char}
    (solid : piece ≠ []) : parser.deliver [piece] = parser.parseStreamEvents piece := by
  simp only [deliver, if_neg solid, Option.map_some, append_nil]
  cases parser.parseStreamEvents piece <;> rfl

end FunctionCallParser

namespace ContentPath

def Takes (pieces : List (List Char)) : ContentPath F σ → Prop
  | .tools assembly => (assembly.toolParser.deliver pieces).isSome
  | _ => True

def PiecesNamed (pieces : List (List Char)) : ContentPath F σ → Prop
  | .tools assembly => ∀ segs parser, assembly.toolParser.deliver pieces = some (segs, parser) →
        HeadsNamed assembly.openCall.isSome segs
  | _ => True

def Took (pieces : List (List Char)) (content later : ContentPath F σ) : Prop :=
  match content with
  | .tools assembly => ∃ segs parser assembled, later = .tools assembled ∧
      assembly.toolParser.deliver pieces = some (segs, parser) ∧
      assembled.Stands parser (openAfter assembly.openCall.isSome segs)
  | .buffered pending => later = .buffered (pending ++ pieces.flatten)
  | .plain => later = .plain

variable {first second : List (List Char)} {content middle later : ContentPath F σ}

theorem Took.refl (content : ContentPath F σ) : Took [] content content := by
  cases content with
  | tools assembly => exact ⟨[], _, assembly, rfl, rfl, rfl, rfl⟩
  | buffered pending => exact (congrArg _ (append_nil _)).symm
  | plain => rfl

theorem Took.append (early : Took first content middle) (late : Took second middle later) :
    Took (first ++ second) content later := by
  cases content with
  | tools assembly =>
    obtain ⟨segs, parser, assembled, rfl, delivered, rfl, sameOpen⟩ := early
    obtain ⟨more, parser, final, rfl, deliveredMore, rfl, finalOpen⟩ := late
    refine ⟨segs ++ more, _, final, rfl, ?_, rfl, ?_⟩
    · simp only [FunctionCallParser.deliver_append, delivered, Option.bind_some, deliveredMore,
        Option.map_some]
    · rw [openAfter_append, ← sameOpen, finalOpen]
  | buffered pending =>
    obtain rfl : middle = .buffered (pending ++ first.flatten) := early
    obtain rfl : later = .buffered (pending ++ first.flatten ++ second.flatten) := late
    show ContentPath.buffered _ = .buffered _
    rw [flatten_append, append_assoc]
  | plain =>
    obtain rfl : middle = .plain := early
    exact late

theorem piecesNamed_nil (content : ContentPath F σ) : content.PiecesNamed [] := by
  cases content with
  | tools assembly =>
    rintro segs parser delivered
    obtain ⟨rfl, -⟩ := Prod.mk.inj (Option.some.inj delivered)
    trivial
  | buffered _ => trivial
  | plain => trivial

theorem takes_append (early : Took first content middle) :
    content.Takes (first ++ second) ↔ middle.Takes second := by
  cases content with
  | tools assembly =>
    obtain ⟨segs, parser, assembled, rfl, delivered, rfl, -⟩ := early
    unfold Takes
    simp only [FunctionCallParser.deliver_append, delivered, Option.bind_some, Option.isSome_map]
  | buffered pending =>
    obtain rfl : middle = .buffered (pending ++ first.flatten) := early
    exact Iff.rfl
  | plain =>
    obtain rfl : middle = .plain := early
    exact Iff.rfl

theorem takes_of_append (takes : content.Takes (first ++ second)) : content.Takes first := by
  cases content with
  | tools assembly =>
    unfold Takes at takes ⊢
    simp only [FunctionCallParser.deliver_append] at takes
    show (assembly.toolParser.deliver first).isSome
    cases delivered : assembly.toolParser.deliver first with
    | none => simp [delivered] at takes
    | some _ => rfl
  | buffered _ => trivial
  | plain => trivial

theorem piecesNamed_append (early : Took first content middle)
    (takes : content.Takes (first ++ second)) :
    content.PiecesNamed (first ++ second) ↔
      content.PiecesNamed first ∧ middle.PiecesNamed second := by
  cases content with
  | tools assembly =>
    obtain ⟨segs, parser, assembled, rfl, delivered, rfl, sameOpen⟩ := early
    unfold Takes at takes
    unfold PiecesNamed
    simp only [FunctionCallParser.deliver_append, delivered, Option.bind_some, Option.isSome_map,
      Option.some.injEq, Prod.mk.injEq] at takes ⊢
    obtain ⟨⟨more, parser⟩, deliveredMore⟩ := Option.isSome_iff_exists.mp takes
    simp only [deliveredMore, Option.map_some, Option.some.injEq, Prod.mk.injEq]
    constructor
    · intro named
      have both := (headsNamed_append _ _ _).mp (named _ _ ⟨rfl, rfl⟩)
      rw [← sameOpen] at both
      refine ⟨?_, ?_⟩
      · rintro _ _ ⟨rfl, -⟩
        exact both.1
      · rintro _ _ ⟨rfl, -⟩
        exact both.2
    · rintro ⟨early, late⟩ _ _ ⟨rfl, -⟩
      refine (headsNamed_append _ _ _).mpr ⟨early _ _ ⟨rfl, rfl⟩, ?_⟩
      rw [← sameOpen]
      exact late _ _ ⟨rfl, rfl⟩
  | buffered pending =>
    obtain rfl : middle = .buffered (pending ++ first.flatten) := early
    exact (and_self_iff).symm
  | plain =>
    obtain rfl : middle = .plain := early
    exact (and_self_iff).symm

end ContentPath

namespace Generation

def contentPieces : Option (ReasoningParser ρ) → List UserReply →
    List (List Char) × Option (ReasoningParser ρ)
  | reasoningParser, [] => ([], reasoningParser)
  | reasoningParser, ack :: acks =>
      let (res, reasoningParser) := splitOutput reasoningParser ack.incrementalOutput.toList
      if ack.finished then ([res.normalText], reasoningParser)
      else
        let (pieces, reasoningParser) := contentPieces reasoningParser acks
        (res.normalText :: pieces, reasoningParser)

def flushedPieces (reasoningParser : Option (ReasoningParser ρ)) : List (List Char) :=
  reasoningParser.toList.map fun parser => parser.flushed.normalText

def pieces (self : Generation F ρ σ) (acks : List UserReply) : List (List Char) :=
  let (pieces, reasoningParser) := contentPieces self.reasoningParser acks
  pieces ++ flushedPieces reasoningParser

variable [PyFloat F] {self : Generation F ρ σ}

theorem emitReasoning_accounts (text : List Char) :
    Accounts (self.emitReasoning text) (fun _ => True) True :=
  .emitIf_named trivial rfl

theorem takeContent_accounts {piece : List Char} (takes : content.Takes [piece]) :
    Accounts (self.takeContent content piece) (ContentPath.Took [piece] content)
      (content.PiecesNamed [piece]) := by
  unfold takeContent
  split
  · rename_i blank
    subst blank
    refine (Accounts.pure ?_).congr ?_
    · cases content with
      | tools assembly => exact ⟨[], _, assembly, rfl, rfl, rfl, rfl⟩
      | buffered pending => exact congrArg _ (append_nil _).symm
      | plain => rfl
    · refine (true_iff _).mpr ?_
      cases content with
      | tools assembly => exact ContentPath.piecesNamed_nil (.tools assembly)
      | buffered _ => trivial
      | plain => trivial
  · rename_i solid
    cases content with
    | tools assembly =>
      obtain ⟨⟨segs, parser⟩, delivered⟩ := Option.isSome_iff_exists.mp takes
      have parsed := delivered
      rw [FunctionCallParser.deliver_singleton _ solid] at parsed
      refine ((Assembly.routeToolText_accounts solid parsed).bind (M := True)
        fun assembled stands => ?_).congr ?_
      · exact .pure ⟨segs, parser, assembled, rfl, delivered, stands⟩
      · rw [and_true]
        constructor
        · rintro named _ _ same
          obtain ⟨rfl, rfl⟩ := Prod.mk.inj (Option.some.inj (delivered.symm.trans same))
          exact named
        · exact fun named => named _ _ delivered
    | buffered pending =>
      refine (Accounts.pure ?_).congr Iff.rfl
      show ContentPath.buffered _ = .buffered _
      rw [flatten_singleton]
    | plain =>
      refine ((Accounts.emit_named (Q := fun _ => True) trivial rfl).bind (M := True)
        fun _ _ => ?_).congr and_self_iff
      exact .pure rfl

theorem takeContent_raises {piece : List Char}
    (refuses : ¬content.Takes [piece]) : (self.takeContent content piece).result = none := by
  cases content with
  | tools assembly =>
    have solid : piece ≠ [] := by
      rintro rfl
      exact refuses rfl
    unfold takeContent
    rw [if_neg solid, Generator.result_bind]
    have raised : assembly.toolParser.parseStreamEvents piece = none := by
      rw [← FunctionCallParser.deliver_singleton _ solid]
      exact Option.not_isSome_iff_eq_none.mp refuses
    rw [Assembly.routeToolText_raises solid raised, Option.bind_none]
  | buffered pending => exact absurd trivial refuses
  | plain => exact absurd trivial refuses

theorem takeReply_accounts {ack : UserReply}
    {res : ReasoningParseResult} {reasoningParser : Option (ReasoningParser ρ)}
    (split : splitOutput state.reasoningParser ack.incrementalOutput.toList =
      (res, reasoningParser))
    (takes : state.content.Takes [res.normalText]) :
    Accounts (self.takeReply state ack) (fun later => later.reasoningParser = reasoningParser ∧
        ContentPath.Took [res.normalText] state.content later.content)
      (state.content.PiecesNamed [res.normalText]) := by
  unfold takeReply
  rw [split]
  refine ((emitReasoning_accounts _).bind fun _ _ =>
    (takeContent_accounts takes).bind (M := True) fun content took => ?_).congr
      (by rw [true_and, and_true])
  exact .pure ⟨rfl, took⟩

theorem takeReply_raises {ack : UserReply}
    {res : ReasoningParseResult} {reasoningParser : Option (ReasoningParser ρ)}
    (split : splitOutput state.reasoningParser ack.incrementalOutput.toList =
      (res, reasoningParser))
    (refuses : ¬state.content.Takes [res.normalText]) :
    (self.takeReply state ack).result = none := by
  unfold takeReply
  rw [split, Generator.result_bind]
  cases (self.emitReasoning res.reasoningText).result with
  | none => rfl
  | some _ =>
    dsimp only [Option.bind_some]
    rw [Generator.result_bind, takeContent_raises refuses, Option.bind_none]

theorem contentPieces_cons {reasoningParser later : Option (ReasoningParser ρ)} {ack : UserReply}
    {res : ReasoningParseResult} (acks : List UserReply)
    (split : splitOutput reasoningParser ack.incrementalOutput.toList = (res, later)) :
    contentPieces reasoningParser (ack :: acks) = if ack.finished then ([res.normalText], later)
      else (res.normalText :: (contentPieces later acks).1, (contentPieces later acks).2) := by
  simp only [contentPieces, split]

theorem replyLoop_cons {ack : UserReply} (acks : List UserReply) (noError : ack.error = none) :
    self.replyLoop state (ack :: acks) = (self.takeReply state ack >>= fun later =>
      if ack.finished then pure (later, ack.finishReason, ack.matchedStop)
      else self.replyLoop later acks) := by
  rw [replyLoop, if_neg (by rw [noError]; exact Bool.false_ne_true)]

/-- **The loop over the replies takes the pieces of content**, one after another. -/
theorem replyLoop_accounts {state : GenerationState F ρ σ}
    (noError : ∀ ack ∈ acks, ack.error = none)
    (takes : state.content.Takes (contentPieces state.reasoningParser acks).1) :
    Accounts (self.replyLoop state acks)
      (fun loop => loop.1.reasoningParser = (contentPieces state.reasoningParser acks).2 ∧
        ContentPath.Took (contentPieces state.reasoningParser acks).1 state.content loop.1.content)
      (state.content.PiecesNamed (contentPieces state.reasoningParser acks).1) := by
  induction acks generalizing state with
  | nil =>
    exact (Accounts.pure ⟨rfl, .refl _⟩).congr
      ((true_iff _).mpr (ContentPath.piecesNamed_nil _))
  | cons ack acks ih =>
    rw [forall_mem_cons] at noError
    obtain ⟨res, reasoningParser, split⟩ : ∃ res reasoningParser, splitOutput state.reasoningParser
          ack.incrementalOutput.toList = (res, reasoningParser) := ⟨_, _, rfl⟩
    rw [contentPieces_cons acks split] at takes ⊢
    rw [replyLoop_cons acks noError.1]
    by_cases finished : ack.finished
    · simp only [if_pos finished] at takes ⊢
      refine ((takeReply_accounts split takes).bind (M := True) fun later took => ?_).congr
        (by rw [and_true])
      exact .pure took
    · simp only [if_neg finished] at takes ⊢
      rw [← singleton_append] at takes ⊢
      have taken : Accounts (self.takeReply state ack) _ _ :=
        takeReply_accounts split (ContentPath.takes_of_append takes)
      obtain ⟨⟨later, ret, sameParser, took⟩, named_iff⟩ := taken
      have rest : later.content.Takes (contentPieces later.reasoningParser acks).1 := by
        rw [sameParser]
        exact (ContentPath.takes_append took).mp takes
      have accounts := ih noError.2 rest
      rw [sameParser] at accounts
      obtain ⟨⟨loop, loopReturned, loopParser, loopTook⟩, rest_iff⟩ := accounts
      rw [Generator.bind_some ret]
      exact ⟨⟨loop, loopReturned, loopParser, took.append loopTook⟩, named_append.trans
        ((and_congr named_iff rest_iff).trans (ContentPath.piecesNamed_append took takes).symm)⟩

theorem replyLoop_raises {state : GenerationState F ρ σ} (noError : ∀ ack ∈ acks, ack.error = none)
    (refuses : ¬state.content.Takes (contentPieces state.reasoningParser acks).1) :
    (self.replyLoop state acks).result = none := by
  induction acks generalizing state with
  | nil =>
    refine absurd ?_ refuses
    cases state.content <;> trivial
  | cons ack acks ih =>
    rw [forall_mem_cons] at noError
    obtain ⟨res, reasoningParser, split⟩ : ∃ res reasoningParser, splitOutput state.reasoningParser
          ack.incrementalOutput.toList = (res, reasoningParser) := ⟨_, _, rfl⟩
    rw [contentPieces_cons acks split] at refuses
    rw [replyLoop_cons acks noError.1, Generator.result_bind]
    by_cases first : state.content.Takes [res.normalText]
    · by_cases finished : ack.finished
      · simp only [if_pos finished] at refuses
        exact absurd first refuses
      · simp only [if_neg finished] at refuses ⊢
        have taken : Accounts (self.takeReply state ack) _ _ := takeReply_accounts split first
        obtain ⟨⟨later, ret, sameParser, took⟩, -⟩ := taken
        rw [ret, Option.bind_some]
        refine ih noError.2 ?_
        rw [sameParser]
        intro takes
        rw [← singleton_append] at refuses
        exact refuses ((ContentPath.takes_append took).mpr takes)
    · rw [takeReply_raises split first, Option.bind_none]

theorem flushReasoning_accounts
    (takes : state.content.Takes (flushedPieces state.reasoningParser)) :
    Accounts (self.flushReasoning state)
      (ContentPath.Took (flushedPieces state.reasoningParser) state.content)
      (state.content.PiecesNamed (flushedPieces state.reasoningParser)) := by
  unfold flushReasoning
  cases same : state.reasoningParser with
  | none =>
    exact (Accounts.pure (ContentPath.Took.refl _)).congr
      ((true_iff _).mpr (ContentPath.piecesNamed_nil _))
  | some parser =>
    rw [same] at takes
    exact ((emitReasoning_accounts _).bind fun _ _ => takeContent_accounts takes).congr
      (by rw [true_and]; rfl)

theorem flushReasoning_raises
    (refuses : ¬state.content.Takes (flushedPieces state.reasoningParser)) :
    (self.flushReasoning state).result = none := by
  unfold flushReasoning
  cases same : state.reasoningParser with
  | none =>
    rw [same] at refuses
    refine absurd ?_ refuses
    cases state.content <;> trivial
  | some parser =>
    rw [same] at refuses
    rw [Generator.result_bind]
    cases (self.emitReasoning parser.flushed.reasoningText).result with
    | none => rfl
    | some _ => exact takeContent_raises refuses

/-- On a path, the pieces go through soundly: no parser raises, in what the tool parser delivers the
first fragment after the start and after every text has a name, and so has every call that it
recovers at the end. -/
def SoundOn (self : Generation F ρ σ) (pieces : List (List Char)) : ContentPath F σ → Prop
  | .tools assembly => ∃ segs parser, assembly.toolParser.deliver pieces = some (segs, parser) ∧
      HeadsNamed false segs ∧
      ∀ item ∈ parser.finalizeStream.2.recoverTruncatedCall.1, item.name ≠ none
  | .buffered _ => self.parseToolResponse pieces.flatten ≠ none
  | .plain => True

def Sound (self : Generation F ρ σ) (acks : List UserReply) : Prop :=
  self.SoundOn (self.pieces acks) self.contentPath

instance (self : Generation F ρ σ) (pieces : List (List Char)) (content : ContentPath F σ) :
    Decidable (self.SoundOn pieces content) :=
  match content with
  | .tools assembly =>
      match delivered : assembly.toolParser.deliver pieces with
      | none => .isFalse fun ⟨_, _, same, _⟩ => by cases delivered.symm.trans same
      | some (segs, parser) =>
          decidable_of_iff (HeadsNamed false segs ∧
              ∀ item ∈ parser.finalizeStream.2.recoverTruncatedCall.1, item.name ≠ none)
            ⟨fun sound => ⟨segs, parser, delivered, sound⟩, fun ⟨_, _, same, sound⟩ => by
              obtain ⟨rfl, rfl⟩ := Prod.mk.inj (Option.some.inj (delivered.symm.trans same))
              exact sound⟩
  | .buffered _ => decidable_of_iff ((self.parseToolResponse pieces.flatten).isSome = true)
      Option.isSome_iff_ne_none
  | .plain => .isTrue trivial

instance (self : Generation F ρ σ) (acks : List UserReply) : Decidable (self.Sound acks) :=
  inferInstanceAs (Decidable (self.SoundOn (self.pieces acks) self.contentPath))

theorem events_eq (self : Generation F ρ σ) (acks : List UserReply) : self.events acks =
    (self.replyLoop self.init acks >>= fun loop => self.flushReasoning loop.1 >>= fun content =>
      self.finishContent content (loop.2.1.getD .stop) >>= fun finishReason =>
      emit (.genDone
        { finishReason := finishReason
          promptTokens := loop.1.promptTokens
          completionTokens := loop.1.completionTokens
          matchedStop := loop.2.2
          cachedTokens := loop.1.cachedTokens })) := rfl

def Finishes (self : Generation F ρ σ) : ContentPath F σ → Prop
  | .buffered pending => self.parseToolResponse pending ≠ none
  | _ => True

def RecoveredNamed : ContentPath F σ → Prop
  | .tools assembly => ∀ item ∈ assembly.toolParser.finalizeStream.2.recoverTruncatedCall.1,
      item.name ≠ none
  | _ => True

theorem finishContent_accounts (reason : FinishReason) (finishes : self.Finishes content) :
    Accounts (self.finishContent content reason) (fun _ => True) (RecoveredNamed content) := by
  cases content with
  | tools assembly =>
    refine ((Assembly.drain_accounts ⟨rfl, rfl⟩).bind (M := True) fun _ _ => ?_).congr
      (by rw [and_true]; rfl)
    exact .pure trivial
  | buffered pending =>
    obtain ⟨parsed, response⟩ := Option.ne_none_iff_exists'.mp finishes
    refine ((Accounts.lift response).bind (S := fun _ => True) (M := True) ?_).congr
      and_self_iff
    rintro parsed rfl
    cases parsed with
    | some res =>
      refine ((Accounts.emitIf_named (Q := fun _ => True) trivial rfl).bind (M := True)
        fun _ _ => ?_).congr and_self_iff
      refine ((Accounts.emit_named (Q := fun _ => True) trivial rfl).bind (M := True)
        fun _ _ => ?_).congr and_self_iff
      exact .pure trivial
    | none =>
      refine ((Accounts.emitIf_named (Q := fun _ => True) trivial rfl).bind (M := True)
        fun _ _ => ?_).congr and_self_iff
      exact .pure trivial
  | plain => exact .pure trivial

theorem finishContent_raises (reason : FinishReason)
    (refuses : ¬self.Finishes content) : (self.finishContent content reason).result = none := by
  cases content with
  | tools assembly => exact absurd trivial refuses
  | buffered pending =>
    have raised : self.parseToolResponse pending = none := not_not.mp refuses
    unfold finishContent
    rw [Generator.result_bind, Generator.result_lift, raised, Option.bind_none]
  | plain => exact absurd trivial refuses

theorem contentPath_closed {assembly : Assembly F σ} (path : self.contentPath = .tools assembly) :
    assembly.openCall = none := by
  unfold contentPath at path
  split at path
  · split at path
    · split at path
      · cases path
        rfl
      · cases path
    · cases path
  · cases path

theorem Sound.takes {acks : List UserReply} (sound : self.Sound acks) :
    self.contentPath.Takes (self.pieces acks) := by
  unfold Sound at sound
  cases path : self.contentPath with
  | tools assembly =>
    rw [path] at sound
    obtain ⟨segs, parser, delivered, -⟩ := sound
    exact Option.isSome_iff_exists.mpr ⟨_, delivered⟩
  | buffered _ => trivial
  | plain => trivial

theorem sound_iff {acks : List UserReply} {content : ContentPath F σ}
    (took : ContentPath.Took (self.pieces acks) self.contentPath content) :
    self.Sound acks ↔ self.contentPath.PiecesNamed (self.pieces acks) ∧
      self.Finishes content ∧ RecoveredNamed content := by
  unfold Sound
  cases path : self.contentPath with
  | tools assembly =>
    rw [path] at took
    obtain ⟨segs, parser, assembled, rfl, delivered, rfl, -⟩ := took
    have closed : assembly.openCall.isSome = false := by
      rw [contentPath_closed path, Option.isSome_none]
    unfold ContentPath.PiecesNamed
    dsimp only
    rw [closed]
    constructor
    · rintro ⟨_, _, same, named, recovered⟩
      obtain ⟨rfl, rfl⟩ := Prod.mk.inj (Option.some.inj (delivered.symm.trans same))
      refine ⟨?_, trivial, recovered⟩
      rintro _ _ same
      obtain ⟨rfl, -⟩ := Prod.mk.inj (Option.some.inj (delivered.symm.trans same))
      exact named
    · rintro ⟨named, -, recovered⟩
      exact ⟨segs, _, delivered, named _ _ delivered, recovered⟩
  | buffered pending =>
    rw [path] at took
    obtain rfl : content = .buffered (pending ++ (self.pieces acks).flatten) := took
    have empty : pending = [] := by
      unfold contentPath at path
      split at path
      · split at path
        · split at path <;> cases path
          rfl
        · cases path
          rfl
      · cases path
    subst empty
    exact ⟨fun finishes => ⟨trivial, finishes, trivial⟩, fun sound => sound.2.1⟩
  | plain =>
    rw [path] at took
    obtain rfl : content = .plain := took
    exact ⟨fun _ => ⟨trivial, trivial, trivial⟩, fun _ => trivial⟩

theorem not_protocol {acks : List UserReply} (raised : (self.events acks).result = none) :
    ¬Protocol (engineReason acks) (self.events acks).events := by
  rintro ⟨⟨body, done, same, -⟩, -⟩
  have noneDone := (events_meets acks).raises raised
  rw [nil_append, same] at noneDone
  exact absurd (noneDone (.genDone done) (mem_append_right _ mem_cons_self))
    Bool.false_ne_true

theorem protocol_iff_named {acks : List UserReply} (ret : (self.events acks).result = some ()) :
    Protocol (engineReason acks) (self.events acks).events ↔ Named (self.events acks).events := by
  refine ⟨Protocol.named, fun named => ⟨?_, named⟩⟩
  obtain ⟨body, done, same, finished⟩ := (events_meets acks).returns ret
  refine ⟨body, done, same, finished.noneDone, finished.whole, ?_⟩
  rw [finished.reason_iff]
  refine and_congr_right fun _ => ?_
  cases engineReason acks with
  | none => simp
  | some reason => simp

/-- **The events of a run keep the protocol exactly when the parsers are sound in it.** -/
theorem protocol_iff (self : Generation F ρ σ) (acks : List UserReply)
    (noError : ∀ ack ∈ acks, ack.error = none) :
    Protocol (engineReason acks) (self.events acks).events ↔ self.Sound acks := by
  by_cases takes : self.contentPath.Takes (self.pieces acks)
  · have taken : Accounts (self.replyLoop self.init acks) _ _ :=
      replyLoop_accounts acks noError (ContentPath.takes_of_append takes)
    obtain ⟨⟨loop, loopReturned, sameParser, loopTook⟩, loop_iff⟩ := taken
    have rest : loop.1.content.Takes (flushedPieces loop.1.reasoningParser) := by
      rw [sameParser]
      exact (ContentPath.takes_append loopTook).mp takes
    have flushed : Accounts (self.flushReasoning loop.1) _ _ := flushReasoning_accounts rest
    obtain ⟨⟨content, flushReturned, flushTook⟩, flush_iff⟩ := flushed
    rw [sameParser] at flushTook flush_iff
    have took : ContentPath.Took (self.pieces acks) self.contentPath content :=
      loopTook.append flushTook
    rw [sound_iff took]
    by_cases finishes : self.Finishes content
    · obtain ⟨⟨finishReason, finishReturned, -⟩, finish_iff⟩ :=
        finishContent_accounts (loop.2.1.getD .stop) finishes
      have events := self.events_eq acks
      rw [Generator.bind_some loopReturned, Generator.bind_some flushReturned,
        Generator.bind_some finishReturned] at events
      have ret : (self.events acks).result = some () := by rw [events]; rfl
      have lastNamed : Named [GenEvent.genDone
          { finishReason := finishReason
            promptTokens := loop.1.promptTokens
            completionTokens := loop.1.completionTokens
            matchedStop := loop.2.2
            cachedTokens := loop.1.cachedTokens }] := by
        intro event mem
        rw [mem_singleton.mp mem]
        rfl
      have split := ContentPath.piecesNamed_append loopTook takes
      rw [protocol_iff_named ret, events]
      calc Named ((self.replyLoop self.init acks).events ++ ((self.flushReasoning loop.1).events ++
            ((self.finishContent content (loop.2.1.getD .stop)).events ++ [GenEvent.genDone _])))
          ↔ self.init.content.PiecesNamed (contentPieces self.reasoningParser acks).1 ∧
              loop.1.content.PiecesNamed
                (flushedPieces (contentPieces self.reasoningParser acks).2) ∧
              RecoveredNamed content := by
            rw [named_append, named_append, named_append, loop_iff, flush_iff, finish_iff,
              and_iff_left lastNamed]
            rfl
        _ ↔ self.contentPath.PiecesNamed (self.pieces acks) ∧ RecoveredNamed content := by
            rw [← and_assoc]
            exact and_congr_left fun _ => split.symm
        _ ↔ _ := and_congr_right fun _ => (and_iff_right finishes).symm
    · have raised : (self.events acks).result = none := by
        rw [events_eq, Generator.result_bind, loopReturned, Option.bind_some,
          Generator.result_bind, flushReturned, Option.bind_some, Generator.result_bind,
          finishContent_raises _ finishes, Option.bind_none]
      exact iff_of_false (not_protocol raised) fun sound => finishes sound.2.1
  · have raised : (self.events acks).result = none := by
      rw [events_eq, Generator.result_bind]
      by_cases first : self.init.content.Takes (contentPieces self.init.reasoningParser acks).1
      · have taken : Accounts (self.replyLoop self.init acks) _ _ :=
          replyLoop_accounts acks noError first
        obtain ⟨⟨loop, loopReturned, sameParser, loopTook⟩, -⟩ := taken
        have refuses : ¬loop.1.content.Takes (flushedPieces loop.1.reasoningParser) := by
          rw [sameParser]
          exact fun rest => takes ((ContentPath.takes_append loopTook).mpr rest)
        rw [loopReturned, Option.bind_some, Generator.result_bind, flushReasoning_raises refuses,
          Option.bind_none]
      · rw [replyLoop_raises acks noError first, Option.bind_none]
    exact iff_of_false (not_protocol raised) fun sound => takes sound.takes

end Generation

/-! ### A call without a name -/

instance writtenFloats : PyFloat (List Char) where
  ofLiteral := id
  repr := id
  isZero _ := false

/-- `partial_json_parser.loads` of a complete value. -/
def loadsComplete : PartialJson (List Char) := fun text _ =>
  match Json.loads text with
  | .ok value => .ok value
  | .error _ => .error .malformed

/-- A request with one tool, served with `qwen25` and no reasoning parser. -/
def qwenGeneration : Generation (List Char) Unit (JsonDetector (List Char)) where
  parseTools := true
  makeToolParser := some
    { detector := qwen25Detector loadsComplete true
      self := {}
      tools := [{ name := "read".toList }] }
  reasoningParser := none
  specials := []

def onlyReply (output : String) (reason : FinishReason) : UserReply where
  uid := 1
  incrementalOutput := output
  finished := true
  finishReason := some reason

namespace Generation

theorem protocol_iff_cut : Protocol (some .length)
    (qwenGeneration.events [onlyReply "<tool_call>\x7b\"name\": \"read\"\x7d" .length]).events :=
  (protocol_iff qwenGeneration [onlyReply "<tool_call>\x7b\"name\": \"read\"\x7d" .length]
    (by decide)).mpr (by decide +kernel)

/-- **A block that holds an empty object and is not closed starts a call without a name.** -/
theorem nameless_start : (∀ ack ∈ [onlyReply "<tool_call>\x7b\x7d" .stop], ack.error = none) ∧
    ¬Protocol (some .stop)
      (qwenGeneration.events [onlyReply "<tool_call>\x7b\x7d" .stop]).events := by
  refine ⟨by decide, fun protocol => ?_⟩
  have start : GenEvent.toolCallStart 0 none true ∈
      (qwenGeneration.events [onlyReply "<tool_call>\x7b\x7d" .stop]).events := by
    decide +kernel
  exact absurd (protocol.named _ start) Bool.false_ne_true

end Generation

end FreeToken
