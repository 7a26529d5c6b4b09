/-
**The lifecycle of the frontend never runs backwards.**

Few of the frontend's steps touch its gates. `Gates` is that part of its state, `Gates.Step` says
everything that one step can do to it, and `step_gates` that the frontend's steps do no more.
-/

import FreeToken.Server.Accounting

namespace FreeToken

structure Gates where
  maintenanceState : MaintenanceState
  fatalError : Option String
  activeRebuildId : Option String
  uidCounter : Nat
  sealedAccounting : Option SealedAccounting
  prepareStage : Option PrepareStage

def Frontend.gates (state : Frontend) : Gates where
  maintenanceState := state.maintenanceState
  fatalError := state.fatalError
  activeRebuildId := state.activeRebuildId
  uidCounter := state.uidCounter
  sealedAccounting := state.sealedAccounting
  prepareStage := state.prepareStage

namespace Gates

def Closed (gates : Gates) : Prop :=
  gates.maintenanceState = .stopping ∨ gates.maintenanceState = .failed ∨ gates.fatalError ≠ none

inductive Step : Gates → Gates → Prop where
  | stay (gates : Gates) : Step gates gates
  | ready {gates : Gates} (loading : gates.maintenanceState = .loading) (alive : gates.fatalError = none) :
      Step gates { gates with maintenanceState := .serving }
  | failed (gates : Gates) (message : String) :
      Step gates { gates with fatalError := some message, maintenanceState := .failed }
  | entering {gates : Gates} (serving : gates.maintenanceState = .serving)
      (alive : gates.fatalError = none) : Step gates { gates with uidCounter := gates.uidCounter + 1 }
  | dispatch {gates : Gates} (requestId : String) (serving : gates.maintenanceState = .serving)
      (alive : gates.fatalError = none) (idle : gates.activeRebuildId = none) :
      Step gates { gates with activeRebuildId := some requestId, maintenanceState := .rebuilding }
  | resolve {gates : Gates} {requestId : String} (next : MaintenanceState)
      (active : gates.activeRebuildId = some requestId)
      (shut : next = .failed ∨ gates.fatalError = none ∧
        (gates.maintenanceState = .rebuilding ∧ next = .serving ∨
          gates.maintenanceState ≠ .rebuilding ∧ next = gates.maintenanceState)) :
      Step gates { gates with activeRebuildId := none, maintenanceState := next }
  | prepare {gates : Gates} (unsealed : gates.sealedAccounting = none)
      (still : gates.maintenanceState ≠ .rebuilding) :
      Step gates { gates with
        maintenanceState :=
          if gates.maintenanceState = .failed ∨ gates.fatalError ≠ none then .failed else .stopping
        prepareStage := some .draining }
  | advance {gates : Gates} (stage : Option PrepareStage) (held : gates.prepareStage ≠ none) :
      Step gates { gates with prepareStage := stage }
  | finish {gates : Gates} (document : SealedAccounting) (held : gates.prepareStage ≠ none) :
      Step gates { gates with sealedAccounting := some document, prepareStage := none }

/-- A fatal error is a failed state, the stop barrier and its document close the gates, and an
active rebuild keeps them closed. -/
structure Sound (gates : Gates) : Prop where
  fatal_failed : gates.fatalError ≠ none → gates.maintenanceState = .failed
  sealed_closed : gates.sealedAccounting ≠ none → gates.Closed
  prepare_closed : gates.prepareStage ≠ none → gates.Closed
  prepare_unsealed : gates.prepareStage ≠ none → gates.sealedAccounting = none
  active_state : gates.activeRebuildId ≠ none →
    gates.maintenanceState = .rebuilding ∨ gates.maintenanceState = .failed
  rebuilding_active : gates.maintenanceState = .rebuilding → gates.activeRebuildId ≠ none

variable {gates next : Gates}

theorem Sound.closed_iff (sound : gates.Sound) :
    gates.Closed ↔ gates.maintenanceState = .stopping ∨ gates.maintenanceState = .failed := by
  constructor
  · rintro (stopping | failed | fatal)
    · exact .inl stopping
    · exact .inr failed
    · exact .inr (sound.fatal_failed fatal)
  · rintro (stopping | failed)
    · exact .inl stopping
    · exact .inr (.inl failed)

/-- **One step keeps the gates sound.** -/
theorem Sound.step (sound : gates.Sound) (step : Step gates next) : next.Sound := by
  cases step with
  | stay => exact sound
  | ready loading alive =>
    have idle : gates.activeRebuildId = none := by
      by_contra active
      rcases sound.active_state active with rebuilding | failed
      · rw [loading] at rebuilding; cases rebuilding
      · rw [loading] at failed; cases failed
    have «open» : ¬ gates.Closed := by
      rw [sound.closed_iff, loading]
      rintro (stopping | failed)
      · cases stopping
      · cases failed
    exact {
      fatal_failed := fun fatal => absurd alive fatal
      sealed_closed := fun isSealed => absurd (sound.sealed_closed isSealed) «open»
      prepare_closed := fun held => absurd (sound.prepare_closed held) «open»
      prepare_unsealed := sound.prepare_unsealed
      active_state := fun active => absurd idle active
      rebuilding_active := fun rebuilding => nomatch rebuilding }
  | failed message =>
    exact {
      fatal_failed := fun _ => rfl
      sealed_closed := fun _ => .inr (.inl rfl)
      prepare_closed := fun _ => .inr (.inl rfl)
      prepare_unsealed := sound.prepare_unsealed
      active_state := fun _ => .inr rfl
      rebuilding_active := fun rebuilding => nomatch rebuilding }
  | entering serving alive => exact { sound with }
  | dispatch requestId serving alive idle =>
    have «open» : ¬ gates.Closed := by
      rw [sound.closed_iff, serving]
      rintro (stopping | failed)
      · cases stopping
      · cases failed
    exact {
      fatal_failed := fun fatal => absurd alive fatal
      sealed_closed := fun isSealed => absurd (sound.sealed_closed isSealed) «open»
      prepare_closed := fun held => absurd (sound.prepare_closed held) «open»
      prepare_unsealed := sound.prepare_unsealed
      active_state := fun _ => .inl rfl
      rebuilding_active := fun _ => nofun }
  | @resolve requestId state active shut =>
    have closed : gates.Closed → state = .stopping ∨ state = .failed := by
      intro closed
      rcases shut with failed | ⟨_, ⟨rebuilding, _⟩ | ⟨_, same⟩⟩
      · exact .inr failed
      · rcases sound.closed_iff.mp closed with stopping | failed
        · rw [rebuilding] at stopping; cases stopping
        · rw [rebuilding] at failed; cases failed
      · rw [same]; exact sound.closed_iff.mp closed
    have closedNext : state = .stopping ∨ state = .failed →
        Closed { gates with activeRebuildId := none, maintenanceState := state } := by
      rintro (stopping | failed)
      · exact .inl stopping
      · exact .inr (.inl failed)
    exact {
      fatal_failed := by
        intro fatal
        rcases shut with failed | ⟨alive, _⟩
        · exact failed
        · exact absurd alive fatal
      sealed_closed := fun isSealed => closedNext (closed (sound.sealed_closed isSealed))
      prepare_closed := fun held => closedNext (closed (sound.prepare_closed held))
      prepare_unsealed := sound.prepare_unsealed
      active_state := fun active => absurd rfl active
      rebuilding_active := by
        intro rebuilding
        rcases shut with failed | ⟨_, ⟨_, serving⟩ | ⟨still, same⟩⟩
        · exact nomatch failed.symm.trans rebuilding
        · exact nomatch serving.symm.trans rebuilding
        · exact absurd (same.symm.trans rebuilding) still }
  | prepare unsealed still =>
    have closed : Closed { gates with
        maintenanceState :=
          if gates.maintenanceState = .failed ∨ gates.fatalError ≠ none then .failed else .stopping
        prepareStage := some .draining } := by
      split
      · exact .inr (.inl rfl)
      · exact .inl rfl
    exact {
      fatal_failed := fun fatal => if_pos (.inr fatal)
      sealed_closed := fun _ => closed
      prepare_closed := fun _ => closed
      prepare_unsealed := fun _ => unsealed
      active_state := by
        intro active
        rcases sound.active_state active with rebuilding | failed
        · exact absurd rebuilding still
        · exact .inr (if_pos (.inl failed))
      rebuilding_active := by
        intro rebuilding
        split at rebuilding
        · cases rebuilding
        · cases rebuilding }
  | advance stage held =>
    exact { sound with
      prepare_closed := fun _ => sound.prepare_closed held
      prepare_unsealed := fun _ => sound.prepare_unsealed held }
  | finish document held =>
    exact { sound with
      sealed_closed := fun _ => sound.prepare_closed held
      prepare_closed := fun still => absurd rfl still
      prepare_unsealed := fun still => absurd rfl still }

theorem Sound.closed_step (sound : gates.Sound) (closed : gates.Closed) (step : Step gates next) :
    next.Closed ∧ next.uidCounter = gates.uidCounter := by
  have state := sound.closed_iff.mp closed
  have notServing : gates.maintenanceState ≠ .serving := by
    intro serving
    rw [serving] at state
    rcases state with stopping | failed
    · cases stopping
    · cases failed
  cases step with
  | stay => exact ⟨closed, rfl⟩
  | ready loading _ =>
    rw [loading] at state
    rcases state with stopping | failed
    · cases stopping
    · cases failed
  | failed _ => exact ⟨.inr (.inl rfl), rfl⟩
  | entering serving _ => exact absurd serving notServing
  | dispatch _ serving _ _ => exact absurd serving notServing
  | resolve next _ shut =>
    refine ⟨?_, rfl⟩
    rcases shut with failed | ⟨_, ⟨rebuilding, _⟩ | ⟨_, same⟩⟩
    · exact .inr (.inl failed)
    · rw [rebuilding] at state
      rcases state with stopping | failed
      · cases stopping
      · cases failed
    · rcases state with stopping | failed
      · exact .inl (same.trans stopping)
      · exact .inr (.inl (same.trans failed))
  | prepare _ _ =>
    refine ⟨?_, rfl⟩
    split
    · exact .inr (.inl rfl)
    · exact .inl rfl
  | advance _ _ => exact ⟨closed, rfl⟩
  | finish _ _ => exact ⟨closed, rfl⟩

theorem Sound.sealed_step {document : SealedAccounting} (sound : gates.Sound)
    (isSealed : gates.sealedAccounting = some document) (step : Step gates next) :
    next.sealedAccounting = some document := by
  cases step with
  | finish _ held =>
    rw [sound.prepare_unsealed held] at isSealed
    cases isSealed
  | _ => exact isSealed

end Gates

namespace Frontend

variable (state : Frontend)

/-! ### The steps that leave the gates alone -/

@[simp] theorem gates_releaseGenerationSlot (uid : Nat) :
    (state.releaseGenerationSlot uid).gates = state.gates := by
  unfold releaseGenerationSlot
  split
  · rfl
  · rfl

@[simp] theorem gates_discardUnsubmittedGeneration (uid : Nat) :
    (state.discardUnsubmittedGeneration uid).gates = state.gates :=
  gates_releaseGenerationSlot _ uid

@[simp] theorem gates_hear (reply : UserReply) : (state.hear reply).gates = state.gates := by
  have released : (if reply.finished then
      releaseGenerationSlot { state with stats := state.stats.observe reply } reply.uid
      else { state with stats := state.stats.observe reply }).gates = state.gates := by
    split
    · exact gates_releaseGenerationSlot _ _
    · rfl
  rw [← released]
  unfold hear
  dsimp only
  split
  · rfl
  · rfl

@[simp] theorem gates_setResult (requestId : String) (res : RebuildResult) :
    (state.setResult requestId res).gates = state.gates := by
  unfold setResult
  split
  · rfl
  · rfl

@[simp] theorem gates_resolveFuture (requestId : String) (res : RebuildResult) :
    (state.resolveFuture requestId res).gates = state.gates := by
  unfold resolveFuture
  split
  · exact gates_setResult _ _ _
  · rfl

theorem gates_foldl {α : Type} (change : Frontend → α → Frontend)
    (same : ∀ state value, (change state value).gates = state.gates) (values : List α)
    (state : Frontend) : (values.foldl change state).gates = state.gates := by
  induction values generalizing state with
  | nil => rfl
  | cons value values ih => exact (ih (change state value)).trans (same state value)

@[simp] theorem gates_failPendingRebuilds (message : String) :
    (state.failPendingRebuilds message).gates = state.gates :=
  gates_foldl _ (fun state requestId => gates_resolveFuture state requestId _) _ _

@[simp] theorem gates_failInflightRequests (message : String) :
    (state.failInflightRequests message).gates = state.gates :=
  (gates_foldl _ (fun state uid => gates_hear state (engineUnavailable uid message)) _ _).trans
    (gates_foldl _ gates_releaseGenerationSlot _ _)

/-! ### The steps that do not -/

theorem gates_newUser {uid : Nat} {next : Frontend} (admitted : state.newUser = .ok (uid, next)) :
    Gates.Step state.gates next.gates := by
  unfold newUser at admitted
  split at admitted
  · cases admitted
  · rename_i «open»
    push Not at «open»
    cases admitted
    exact @Gates.Step.entering state.gates «open».1 «open».2

theorem gates_admitGeneration {uid : Nat} {next : Frontend}
    (admitted : state.admitGeneration = .ok (uid, next)) : Gates.Step state.gates next.gates := by
  unfold admitGeneration at admitted
  split at admitted
  · exact state.gates_newUser admitted
  · split at admitted
    · cases admitted
    · rename_i newUser
      have step := state.gates_newUser newUser
      cases admitted
      exact step

theorem gates_resolveRebuild (reply : CacheRebuildReply) :
    Gates.Step state.gates (state.resolveRebuild reply).gates := by
  unfold resolveRebuild
  split
  · rename_i active
    rw [gates_resolveFuture]
    refine @Gates.Step.resolve state.gates _ _ active ?_
    unfold stateAfterRebuild
    split
    · exact .inl rfl
    · rename_i fine
      push Not at fine
      refine .inr ⟨fine.1, ?_⟩
      split
      · rename_i rebuilding; exact .inl ⟨rebuilding, rfl⟩
      · rename_i still; exact .inr ⟨still, rfl⟩
  · exact .stay _

theorem gates_listen (msg : FrontendMsg) : Gates.Step state.gates (state.listen msg).gates := by
  cases msg with
  | userReplies replies =>
    have same : (state.listen (.userReplies replies)).gates = state.gates :=
      gates_foldl _ gates_hear _ _
    rw [same]
    exact .stay _
  | cacheRebuild reply => exact state.gates_resolveRebuild reply

theorem gates_dispatchRebuild {requestId : String} {request : RebuildRequest} {next : Frontend}
    (admitted : state.dispatchRebuild requestId request = .ok next) :
    Gates.Step state.gates next.gates := by
  unfold dispatchRebuild at admitted
  split at admitted
  · cases admitted
  · rename_i «open»
    push Not at «open»
    cases admitted
    exact @Gates.Step.dispatch state.gates requestId «open».1 «open».2.1 «open».2.2

theorem gates_prepareStop {next : Frontend} (began : state.prepareStop = .draining next) :
    Gates.Step state.gates next.gates := by
  unfold prepareStop at began
  split at began
  · cases began
  · rename_i unsealed
    split at began
    · cases began
    · rename_i still
      cases began
      exact @Gates.Step.prepare state.gates unsealed still

theorem gates_markBackendReady (now : Nat) :
    Gates.Step state.gates (state.markBackendReady now).gates := by
  unfold markBackendReady
  split
  · exact .stay _
  · rename_i loading
    push Not at loading
    exact @Gates.Step.ready state.gates loading.1 loading.2

theorem step_gates {event : Event} {next : Frontend} (taken : state.step event = some next) :
    Gates.Step state.gates next.gates := by
  cases event with
  | backendReady now =>
    cases taken
    exact state.gates_markBackendReady now
  | backendFailed message =>
    cases taken
    exact .failed state.gates message
  | failPendingRebuilds message =>
    cases taken
    rw [gates_failPendingRebuilds]
    exact .stay _
  | failInflightRequests message =>
    cases taken
    rw [gates_failInflightRequests]
    exact .stay _
  | admitGeneration =>
    simp only [step] at taken
    split at taken
    · cases taken
    · split at taken
      · rename_i admitted
        have admission := state.gates_admitGeneration admitted
        cases taken
        exact admission
      · cases taken
        exact .stay _
  | sendTokenize msg | submitted uid | takeAcks uid | abortUser uid | putDone msg | putLost msg
  | rebuildSent requestId | rebuildSendError requestId error | rebuildReturned requestId
  | rebuildTimedOut requestId =>
    simp only [step] at taken
    split at taken
    · cases taken
      exact .stay _
    · cases taken
  | discardUnsubmitted uid =>
    simp only [step] at taken
    split at taken
    · cases taken
      have same := state.gates_discardUnsubmittedGeneration uid
      show Gates.Step state.gates (state.discardUnsubmittedGeneration uid).gates
      rw [same]
      exact .stay _
    · cases taken
  | listen msg =>
    cases taken
    exact state.gates_listen msg
  | closeWait uid =>
    cases taken
    exact .stay _
  | dispatchRebuild requestId request =>
    simp only [step] at taken
    split at taken
    · cases taken
    · split at taken
      · rename_i admitted
        cases taken
        exact state.gates_dispatchRebuild admitted
      · cases taken
        exact .stay _
  | prepareStop =>
    simp only [step] at taken
    split at taken
    · split at taken
      · cases taken
        exact .stay _
      · cases taken
        exact .stay _
      · rename_i began
        cases taken
        exact state.gates_prepareStop began
    · cases taken
  | drained now =>
    simp only [step] at taken
    split at taken
    · rename_i ready
      cases taken
      refine @Gates.Step.finish state.gates (state.sealedDocument now) ?_
      show state.prepareStage ≠ none
      rcases ready.2 with draining | acknowledging
      · rw [draining]; nofun
      · rw [acknowledging]; nofun
    · cases taken
  | drainTimedOut =>
    simp only [step] at taken
    split at taken
    · rename_i timedOut
      cases taken
      have held : state.gates.prepareStage ≠ none := by
        show state.prepareStage ≠ none
        rw [timedOut.2]
        nofun
      unfold drainTimedOut
      split
      · exact .advance none held
      · exact .advance _ held
    · cases taken
  | abortNext uid =>
    simp only [step] at taken
    split at taken
    · rename_i left held
      split at taken
      · cases taken
        refine @Gates.Step.advance state.gates (some (.aborting (left.erase uid))) ?_
        show state.prepareStage ≠ none
        rw [held]
        nofun
      · cases taken
    · cases taken
  | aborted =>
    simp only [step] at taken
    split at taken
    · rename_i held
      cases taken
      refine @Gates.Step.advance state.gates (some .acknowledging) ?_
      show state.prepareStage ≠ none
      rw [held]
      nofun
    · cases taken
  | prepareFailed =>
    simp only [step] at taken
    split at taken
    · rename_i held
      cases taken
      exact @Gates.Step.advance state.gates none held
    · cases taken

/-! ### Runs -/

theorem run_rule {Holds : Frontend → Prop}
    (keeps : ∀ {state next : Frontend} {event : Event}, Holds state → state.step event = some next →
      Holds next)
    {state later : Frontend} {events : List Event} (begins : Holds state)
    (reached : state.run events = some later) : Holds later := by
  induction events generalizing state with
  | nil =>
    cases reached
    exact begins
  | cons event events ih =>
    obtain ⟨next, taken, rest⟩ := Option.bind_eq_some_iff.mp reached
    exact ih (keeps begins taken) rest

theorem sound_initial (instanceId : String) (servedModelName : Option String) (limit : Nat) :
    (initial instanceId servedModelName limit).gates.Sound where
  fatal_failed fatal := absurd rfl fatal
  sealed_closed isSealed := absurd rfl isSealed
  prepare_closed held := absurd rfl held
  prepare_unsealed held := absurd rfl held
  active_state active := absurd rfl active
  rebuilding_active rebuilding := nomatch rebuilding

theorem run_sound {instanceId : String} {servedModelName : Option String} {limit : Nat}
    {events : List Event} {state : Frontend}
    (reached : (initial instanceId servedModelName limit).run events = some state) :
    state.gates.Sound :=
  @run_rule (fun state => state.gates.Sound)
    (fun sound taken => sound.step (step_gates _ taken)) _ _ _ (sound_initial _ _ _) reached

theorem refuse_of_closed {state : Frontend} (sound : state.gates.Sound)
    (closed : state.gates.Closed) :
    state.newUser = .error state.admissionClosed ∧
      state.admitGeneration = .error state.admissionClosed ∧
      ∀ requestId request, state.dispatchRebuild requestId request = .error rebuildClosed := by
  have notServing : state.maintenanceState ≠ .serving := by
    intro serving
    rcases sound.closed_iff.mp closed with stopping | failed
    · exact nomatch serving.symm.trans stopping
    · exact nomatch serving.symm.trans failed
  have refused : state.newUser = .error state.admissionClosed := if_pos (.inl notServing)
  refine ⟨refused, ?_, fun _ _ => if_pos (.inl notServing)⟩
  unfold admitGeneration
  split
  · exact refused
  · rw [refused]

/-- **Once the frontend is stopping, failed or in a fatal error, it stays stopping or failed in
every later state**: no request gets a uid, no rebuild is started. **A sealed document stays as it
is.** -/
theorem closed_forever {instanceId : String} {servedModelName : Option String} {limit : Nat}
    {events onward : List Event} {state later : Frontend}
    (reached : (initial instanceId servedModelName limit).run events = some state)
    (goesOn : state.run onward = some later) :
    (state.maintenanceState = .stopping ∨ state.maintenanceState = .failed ∨
        state.fatalError ≠ none →
      (later.maintenanceState = .stopping ∨ later.maintenanceState = .failed) ∧
      later.uidCounter = state.uidCounter ∧ later.newUser = .error later.admissionClosed ∧
      later.admitGeneration = .error later.admissionClosed ∧
      ∀ requestId request, later.dispatchRebuild requestId request = .error rebuildClosed) ∧
    ∀ document, state.sealedAccounting = some document →
      later.sealedAccounting = some document := by
  have sound := run_sound reached
  constructor
  · intro closed
    have onwards := @run_rule
      (fun later => later.gates.Sound ∧ later.gates.Closed ∧ later.uidCounter = state.uidCounter)
      (fun holds taken =>
        have closing := holds.1.closed_step holds.2.1 (step_gates _ taken)
        ⟨holds.1.step (step_gates _ taken), closing.1, closing.2.trans holds.2.2⟩)
      _ _ _ ⟨sound, closed, rfl⟩ goesOn
    obtain ⟨soundLater, closedLater, counter⟩ := onwards
    exact ⟨soundLater.closed_iff.mp closedLater, counter, refuse_of_closed soundLater closedLater⟩
  · intro document isSealed
    exact (@run_rule
      (fun later => later.gates.Sound ∧ later.sealedAccounting = some document)
      (fun holds taken => ⟨holds.1.step (step_gates _ taken),
        holds.1.sealed_step holds.2 (step_gates _ taken)⟩)
      _ _ _ ⟨sound, isSealed⟩ goesOn).2

/-- A rebuild is under way when the engine dies; its result and a late ready signal change
nothing. -/
theorem closed_forever_after_death : ∃ state later : Frontend, (initial "engine" none 0).run
      [.backendReady 5, .admitGeneration, .dispatchRebuild "first" {}, .backendFailed "gone"] =
        some state ∧
    state.run [.listen (.cacheRebuild { requestId := "first", status := "ok" }), .backendReady 9,
      .prepareStop] = some later ∧
    later.uidCounter = 1 ∧ later.newUser = .error later.admissionClosed := by
  refine ⟨_, _, rfl, rfl, ?_⟩
  have stays := (@closed_forever "engine" none 0
    [.backendReady 5, .admitGeneration, .dispatchRebuild "first" {}, .backendFailed "gone"]
    [.listen (.cacheRebuild { requestId := "first", status := "ok" }), .backendReady 9,
      .prepareStop] _ _ rfl rfl).1 (.inr (.inl rfl))
  exact ⟨stays.2.1, stays.2.2.1⟩

end Frontend

end FreeToken
