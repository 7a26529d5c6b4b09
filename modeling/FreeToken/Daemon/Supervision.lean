/-
**The daemon supervises one serve.**
-/

import Mathlib.Data.List.Induction
import FreeToken.Daemon.ServeManager

namespace FreeToken

open List Function Option

/-- What a stage of the lifecycle transaction means for the child. -/
inductive CallPhase where
  | idle
  /-- A start that waits for the end of another spawn, which cannot be. -/
  | blocked
  | spawning
  | spawned (child : Child)
  | saving (child : Child)
  | watching (child : Child)
  | stopping (child : Child)

def CallStage.phase : CallStage → CallPhase
  | .admission | .latching | .halting | .reopening => .idle
  | .admissionLoop => .blocked
  | .spawning | .spawnFailed => .spawning
  | .spawned child => .spawned child
  | .saving child => .saving child
  | .watching child => .watching child
  | .preparing child | .signalling child | .waiting child _ | .killing child | .failing child =>
      .stopping child

def ReapStage.forgot : ReapStage → Bool
  | .clearing _ | .signalling _ _ | .deciding _ | .restarting => true
  | _ => false

def Moment.wanted : Moment → Option ServeConfig
  | .adopted _ cfg => some cfg
  | .spawned _ cfg false => some cfg
  | _ => none

def Moment.silent : Moment → Bool
  | .startMade _ => true
  | .returned _ (.started _) => false
  | .returned _ _ => true
  | _ => false

def CallPhase.calm : CallPhase → Bool
  | .spawned _ | .saving _ | .watching _ => false
  | _ => true

theorem append_singleton_eq_append_cons {α : Type} {init front after : List α} {last x : α}
    (split : init ++ [last] = front ++ x :: after) :
    (init = front ∧ last = x) ∨ ∃ rest, init = front ++ x :: rest := by
  rcases eq_nil_or_concat after with rfl | ⟨rest, other, rfl⟩
  · obtain ⟨same, ends⟩ := append_inj' split rfl
    exact .inl ⟨same, (cons.inj ends).1⟩
  · rw [concat_eq_append, ← cons_append, ← append_assoc] at split
    exact .inr ⟨rest, (append_inj' split rfl).1⟩

variable (history : List Moment) {prev : CallStage} {stage : CallStage} {object : Nat}
variable {restarts : Bool} {event : Event}

namespace Daemon

/-! ### The history -/

def Latched : Prop :=
  ∃ pre mid call already, history = pre ++ .returned call (.stopped already) :: mid ∧
    ∀ cfg, .startMade cfg ∉ mid

def ShutDown : Prop := ∃ already, .returned .shutdown (.stopped already) ∈ history

def Settled (child : Child) : Prop :=
  (∃ call, .returned call (.started child) ∈ history) ∨ ∃ cfg, .adopted child cfg ∈ history

def lastStarted : Option ServeConfig := (history.filterMap Moment.wanted).getLast?

/-- After a stop nothing is spawned unless an explicit start was made in between, and after a
shutdown nothing at all. -/
def NoLateSpawn : Prop :=
  ∀ pre mid after call already child cfg auto, history = pre ++ .returned call (.stopped already) ::
      (mid ++ .spawned child cfg auto :: after) →
    call ≠ .shutdown ∧ ∃ explicit, .startMade explicit ∈ mid

/-- Every auto-restart runs the configuration of the last child that was started explicitly. -/
def RestartsLast : Prop :=
  ∀ pre after child cfg, history = pre ++ .spawned child cfg true :: after →
    lastStarted pre = some cfg

section History

variable {history : List Moment} {moment : Moment}

theorem latched_snoc : Latched (history ++ [moment]) ↔
    (∃ call already, moment = .returned call (.stopped already)) ∨
      (Latched history ∧ ∀ cfg, moment ≠ .startMade cfg) := by
  constructor
  · rintro ⟨pre, mid, call, already, split, quiet⟩
    rcases eq_nil_or_concat mid with rfl | ⟨mid, last, rfl⟩
    · obtain ⟨-, same⟩ := append_inj' split rfl
      exact .inl ⟨call, already, (cons.inj same).1⟩
    · rw [concat_eq_append] at split quiet
      rw [← cons_append, ← append_assoc] at split
      obtain ⟨prev, same⟩ := append_inj' split rfl
      obtain rfl := (cons.inj same).1
      refine .inr ⟨⟨pre, mid, call, already, prev, fun cfg mem => ?_⟩, ?_⟩
      · exact quiet cfg (mem_append_left _ mem)
      · rintro cfg rfl
        exact quiet cfg (mem_append_right _ (mem_singleton_self _))
  · rintro (⟨call, already, rfl⟩ | ⟨⟨pre, mid, call, already, rfl, quiet⟩, other⟩)
    · exact ⟨history, [], call, already, rfl, fun _ => not_mem_nil⟩
    · refine ⟨pre, mid ++ [moment], call, already, ?_, fun cfg mem => ?_⟩
      · rw [append_assoc, cons_append]
      · rcases mem_append.mp mem with prev | last
        · exact quiet cfg prev
        · exact other cfg (mem_singleton.mp last).symm

theorem shutDown_snoc : ShutDown (history ++ [moment]) ↔
    ShutDown history ∨ ∃ already, moment = .returned .shutdown (.stopped already) := by
  unfold ShutDown
  simp only [mem_append, mem_singleton]
  grind

theorem settled_snoc {child : Child} : Settled (history ++ [moment]) child ↔
    Settled history child ∨ (∃ call, moment = .returned call (.started child)) ∨
      ∃ cfg, moment = .adopted child cfg := by
  unfold Settled
  simp only [mem_append, mem_singleton]
  grind

theorem lastStarted_snoc :
    lastStarted (history ++ [moment]) = moment.wanted.or (lastStarted history) := by
  unfold lastStarted
  cases wanted : moment.wanted with
  | none => simp [filterMap_append, wanted]
  | some cfg => simp [filterMap_append, wanted]

theorem NoLateSpawn.snoc (quiet : NoLateSpawn history)
    (other : ∀ child cfg auto, moment ≠ .spawned child cfg auto) :
    NoLateSpawn (history ++ [moment]) := by
  intro pre mid after call already child cfg auto split
  rw [← cons_append, ← append_assoc] at split
  rcases append_singleton_eq_append_cons split with ⟨-, same⟩ | ⟨rest, prev⟩
  · exact absurd same (other child cfg auto)
  · rw [append_assoc, cons_append] at prev
    exact quiet pre mid rest call already child cfg auto prev

theorem NoLateSpawn.spawned (quiet : NoLateSpawn history) (free : ¬Latched history)
    (running : ¬ShutDown history) (child : Child) (cfg : ServeConfig) (auto : Bool) :
    NoLateSpawn (history ++ [.spawned child cfg auto]) := by
  intro pre mid after call already other config' auto' split
  rw [← cons_append, ← append_assoc] at split
  rcases append_singleton_eq_append_cons split with ⟨rfl, -⟩ | ⟨rest, prev⟩
  · refine ⟨?_, ?_⟩
    · rintro rfl
      exact running ⟨already, by simp⟩
    · by_contra none
      exact free ⟨pre, mid, call, already, rfl, fun explicit mem => none ⟨explicit, mem⟩⟩
  · rw [append_assoc, cons_append] at prev
    exact quiet pre mid rest call already other config' auto' prev

theorem RestartsLast.snoc (faithful : RestartsLast history)
    (known : ∀ child cfg, moment = .spawned child cfg true →
      lastStarted history = some cfg) : RestartsLast (history ++ [moment]) := by
  intro pre after child cfg split
  rcases append_singleton_eq_append_cons split with ⟨rfl, same⟩ | ⟨rest, prev⟩
  · exact known child cfg same
  · exact faithful pre rest child cfg prev

end History

/-! ### The phases of a transaction -/

def phase (s : Daemon) : CallPhase :=
  match s.holder with
  | none => .idle
  | some (_, stage) => stage.phase

/-- What holds in a phase: the flags say what is under way, a child that is not watched yet has no
monitor, and a child that is stopped is current until it was forgotten. -/
def Held (s : Daemon) : CallPhase → Prop
  | .idle => s.starting = false ∧ s.stopping = false
  | .blocked => False
  | .spawning => s.stopping = false ∧ s.child = none ∧ ¬Latched s.history
  | .spawned child => s.stopping = false ∧ s.child = none ∧ s.monitors child.object = none ∧
      child.object < s.nextObject ∧ child.object ∉ s.reaped
  | .saving child | .watching child => s.starting = false ∧ s.stopping = false ∧
      s.child = some child ∧ s.monitors child.object = none
  | .stopping child => s.starting = false ∧ s.stopRequested = true ∧
      (s.child = some child ∧ s.stopping = true ∨ s.child = none ∧ s.stopping = false)

/-- **The invariant** of every run: a process that runs is the current child or the one that was
just spawned, and after a stop nothing is spawned without a start. -/
structure Supervised (s : Daemon) : Prop where
  fresh : ∀ object ∈ s.alive, object < s.nextObject
  running : ∀ object ∈ s.alive, ∃ child, (s.child = some child ∨ s.phase = .spawned child) ∧
    child.object = object
  current : ∀ child, s.child = some child → child.object < s.nextObject
  held : s.Held s.phase
  watched : ∀ object child stage, s.monitors object = some (child, stage) →
    child.object = object ∧ object < s.nextObject ∧ (stage ≠ .waiting → object ∉ s.alive) ∧
      ∀ other, s.child = some other → other.object = object → other = child ∧ stage.forgot = false
  gone : ∀ object ∈ s.reaped, object < s.nextObject ∧
    ∀ child, s.child = some child → child.object ≠ object
  latched : Latched s.history → s.stopRequested = true
  shut : ShutDown s.history → s.shutdownRequested = true ∧ s.child = none ∧ s.phase = .idle ∧
    ∀ call, s.holder ≠ some (call, .reopening)
  closing : ∀ stage, s.holder = some (.shutdown, stage) → stage ≠ .latching →
    s.shutdownRequested = true
  quiet : NoLateSpawn s.history

section Transactions

variable {s next : Daemon} {call : LifecycleCall} {cfg : ServeConfig} {auto ok : Bool}
  {child : Child}

theorem unspawned {phase : CallPhase} (isPhase : s.phase = phase)
    (other : ∀ child, phase ≠ .spawned child) : ∀ child, s.phase ≠ .spawned child :=
  fun child spawned => other child (isPhase.symm.trans spawned)

theorem Supervised.upRunning (inv : Supervised s) {phase : CallPhase} (isPhase : s.phase = phase)
    (busy : phase ≠ .idle) : ¬ShutDown s.history :=
  fun down => busy (isPhase.symm.trans (inv.shut down).2.2.1)

theorem Supervised.of_frame (inv : Supervised s)
    (same : next.child = s.child ∧ next.monitors = s.monitors ∧ next.alive = s.alive ∧
      next.nextObject = s.nextObject ∧ next.reaped = s.reaped)
    (spawned : ∀ child, s.phase = .spawned child → next.phase = .spawned child)
    (held : next.Held next.phase) (latched : Latched next.history → next.stopRequested = true)
    (shut : ShutDown next.history → next.shutdownRequested = true ∧ next.child = none ∧
      next.phase = .idle ∧ ∀ call, next.holder ≠ some (call, .reopening))
    (closing : ∀ stage, next.holder = some (.shutdown, stage) → stage ≠ .latching →
      next.shutdownRequested = true)
    (quiet : NoLateSpawn next.history) : Supervised next := by
  obtain ⟨sameChild, monitors, alive, nextObject, reaped⟩ := same
  constructor
  case fresh =>
    rw [alive, nextObject]
    exact inv.fresh
  case running =>
    rw [alive]
    intro object runs
    obtain ⟨child, isCurrent | isSpawned, isObject⟩ := inv.running object runs
    · exact ⟨child, .inl (sameChild.trans isCurrent), isObject⟩
    · exact ⟨child, .inr (spawned child isSpawned), isObject⟩
  case current =>
    rw [sameChild, nextObject]
    exact inv.current
  case held => exact held
  case watched =>
    rw [monitors, nextObject, alive, sameChild]
    exact inv.watched
  case gone =>
    rw [reaped, nextObject, sameChild]
    exact inv.gone
  case latched => exact latched
  case shut => exact shut
  case closing => exact closing
  case quiet => exact quiet

theorem Supervised.goto (inv : Supervised s) (held : s.Held stage.phase)
    (spawned : ∀ child, s.phase = .spawned child → stage.phase = .spawned child)
    (shut : ShutDown s.history → stage.phase = .idle ∧ stage ≠ .reopening)
    (closing : call = .shutdown → stage ≠ .latching → s.shutdownRequested = true) :
    Supervised (s.goto call stage) := by
  refine inv.of_frame ⟨rfl, rfl, rfl, rfl, rfl⟩ spawned held inv.latched (fun down => ?_) ?_ inv.quiet
  · obtain ⟨idle, other⟩ := shut down
    obtain ⟨requested, gone, -, -⟩ := inv.shut down
    refine ⟨requested, gone, idle, fun other' same => ?_⟩
    exact other (congrArg Prod.snd (some.inj same))
  · intro other same late
    obtain ⟨isShutdown, rfl⟩ := Prod.mk.inj (some.inj same)
    exact closing isShutdown late

theorem Supervised.finish (inv : Supervised s) {answer : LifecycleAnswer}
    (free : s.starting = false ∧ s.stopping = false)
    (other : ∀ child, s.phase ≠ .spawned child)
    (stops : ∀ already, answer = .stopped already → s.stopRequested = true ∧
      (call = .shutdown → s.shutdownRequested = true ∧ s.child = none)) :
    Supervised (s.finish call answer) := by
  refine inv.of_frame ⟨rfl, rfl, rfl, rfl, rfl⟩ (fun child spawned => absurd spawned (other child))
    free (fun latched => ?_) (fun down => ?_) nofun ?_
  · rcases latched_snoc.mp latched with ⟨_, already, same⟩ | ⟨prev, -⟩
    · exact (stops already (Moment.returned.inj same).2).1
    · exact inv.latched prev
  · rcases shutDown_snoc.mp down with prev | ⟨already, same⟩
    · obtain ⟨requested, gone, -, -⟩ := inv.shut prev
      exact ⟨requested, gone, rfl, fun _ => nofun⟩
    · obtain ⟨isShutdown, isStopped⟩ := Moment.returned.inj same
      obtain ⟨requested, gone⟩ := (stops already isStopped).2 isShutdown
      exact ⟨requested, gone, rfl, fun _ => nofun⟩
  · exact inv.quiet.snoc fun _ _ _ => nofun

theorem Supervised.idle (inv : Supervised s) (idle : s.phase = .idle) :
    s.starting = false ∧ s.stopping = false := by
  have held := inv.held
  rwa [idle] at held

/-! ### `_start` -/

theorem Supervised.admissionLoop (inv : Supervised s) (idle : s.phase = .idle)
    (free : auto = false → ¬Latched s.history) (running : ¬ShutDown s.history)
    (other : call ≠ .shutdown) : Supervised (s.admissionLoop call cfg auto) := by
  obtain ⟨starting, stopping⟩ := inv.idle idle
  have ends : ∀ answer : LifecycleAnswer, (∀ already, answer ≠ .stopped already) →
      Supervised (s.finish call answer) := fun answer quiet =>
    inv.finish ⟨starting, stopping⟩ (unspawned idle fun _ => nofun)
      fun already same => absurd same (quiet already)
  unfold Daemon.admissionLoop
  split
  · split
    · exact ends _ fun _ => nofun
    · exact ends _ fun _ => nofun
  · next alone =>
    rw [if_neg (by rw [starting]; exact Bool.false_ne_true)]
    split
    · exact ends _ fun _ => nofun
    · next unlatched =>
      have gone : s.child = none := by
        cases isCurrent : s.child with
        | none => rfl
        | some child => exact absurd stopping (alone child isCurrent)
      refine inv.of_frame ⟨rfl, rfl, rfl, rfl, rfl⟩
        (fun _ same => absurd same (unspawned idle (fun _ => nofun) _)) ⟨stopping, gone, ?_⟩
        inv.latched (fun down => absurd down running)
        (fun _ same => absurd (congrArg Prod.fst (some.inj same)) other) inv.quiet
      intro latched
      cases isAuto : auto with
      | false => exact free isAuto latched
      | true => exact unlatched ⟨isAuto, inv.latched latched⟩

theorem Supervised.admission (inv : Supervised s) (idle : s.phase = .idle)
    (other : call ≠ .shutdown) : Supervised (s.admission call cfg auto) := by
  have flags := inv.idle idle
  have notSpawned := unspawned idle fun _ => nofun
  unfold Daemon.admission
  split
  · refine inv.finish flags notSpawned fun already => ?_
    split <;> nofun
  · next admitted =>
    have running : ¬ShutDown s.history := fun down => admitted (inv.shut down).1
    split
    · split
      · exact inv.finish flags notSpawned fun _ => nofun
      · next unlatched => exact inv.admissionLoop idle (fun isFalse => by simp_all) running other
    · -- an explicit start takes the intent to stop back
      have free : ¬Latched (s.history ++ [.startMade cfg]) := by
        rw [latched_snoc]
        rintro (⟨_, _, same⟩ | ⟨-, quiet⟩)
        · cases same
        · exact quiet cfg rfl
      have still : ¬ShutDown (s.history ++ [.startMade cfg]) := by
        rw [shutDown_snoc]
        rintro (prev | ⟨_, same⟩)
        · exact running prev
        · cases same
      refine Supervised.admissionLoop (inv.of_frame ⟨rfl, rfl, rfl, rfl, rfl⟩ (fun _ same => same) ?_
        (fun latched => absurd latched free) (fun down => absurd down still) inv.closing
        (inv.quiet.snoc fun _ _ _ => nofun)) idle (fun _ => free) still other
      show Held _ s.phase
      rw [idle]
      exact flags

theorem phase_of_holder (holds : s.holder = some (call, stage)) : s.phase = stage.phase := by
  unfold phase
  rw [holds]

theorem Supervised.install (inv : Supervised s) (spawned : s.phase = .spawned child)
    (other : call ≠ .shutdown) : Supervised (s.install call cfg child) := by
  have held := inv.held
  rw [spawned] at held
  obtain ⟨stopping, gone, unwatched, known, unreaped⟩ := held
  have isChild : ∀ later, (s.install call cfg child).child = some later → later = child :=
    fun later same => (some.inj same).symm
  constructor
  case fresh => exact inv.fresh
  case running =>
    intro object runs
    obtain ⟨later, isCurrent | isSpawned, isObject⟩ := inv.running object runs
    · rw [gone] at isCurrent
      cases isCurrent
    · rw [spawned] at isSpawned
      obtain rfl := CallPhase.spawned.inj isSpawned
      exact ⟨child, .inl rfl, isObject⟩
  case current =>
    intro later same
    rw [isChild later same]
    exact known
  case held => exact ⟨rfl, rfl, rfl, unwatched⟩
  case watched =>
    intro object later stage watches
    obtain ⟨isObject, below, exited, -⟩ := inv.watched object later stage watches
    refine ⟨isObject, below, exited, fun current same sameObject => ?_⟩
    have isWatched : s.monitors object = some (later, stage) := watches
    rw [← sameObject, isChild current same, unwatched] at isWatched
    cases isWatched
  case gone =>
    intro object reaped
    refine ⟨(inv.gone object reaped).1, fun later same isObject => unreaped ?_⟩
    rw [← isChild later same, isObject]
    exact reaped
  case latched => exact inv.latched
  case shut => exact fun down => absurd down (inv.upRunning spawned nofun)
  case closing => exact fun _ same => absurd (congrArg Prod.fst (some.inj same)) other
  case quiet => exact inv.quiet

theorem Supervised.watch (inv : Supervised s) (watching : s.phase = .watching child) :
    Supervised (s.watch call child) := by
  have held := inv.held
  rw [watching] at held
  obtain ⟨starting, stopping, isCurrent, unwatched⟩ := held
  have running := inv.upRunning watching nofun
  constructor
  case fresh => exact inv.fresh
  case running =>
    intro object runs
    obtain ⟨later, isCurrent | isSpawned, isObject⟩ := inv.running object runs
    · exact ⟨later, .inl isCurrent, isObject⟩
    · rw [watching] at isSpawned
      cases isSpawned
  case current => exact inv.current
  case held => exact ⟨starting, stopping⟩
  case watched =>
    intro object later stage watches
    change update s.monitors child.object _ object = _ at watches
    by_cases same : object = child.object
    · subst same
      rw [update_self] at watches
      obtain ⟨rfl, rfl⟩ := Prod.mk.inj (some.inj watches)
      refine ⟨rfl, inv.current child isCurrent, fun late => absurd rfl late, fun other same _ => ?_⟩
      have isOther : s.child = some other := same
      rw [isCurrent] at isOther
      exact ⟨(some.inj isOther).symm, rfl⟩
    · rw [update_of_ne same] at watches
      exact inv.watched object later stage watches
  case gone => exact inv.gone
  case latched =>
    intro latched
    rcases latched_snoc.mp latched with ⟨_, _, same⟩ | ⟨prev, -⟩
    · cases (Moment.returned.inj same).2
    · exact inv.latched prev
  case shut =>
    intro down
    rcases shutDown_snoc.mp down with prev | ⟨_, same⟩
    · exact absurd prev running
    · cases (Moment.returned.inj same).2
  case closing => nofun
  case quiet => exact inv.quiet.snoc fun _ _ _ => nofun

/-- **A step of a start.** -/
theorem Supervised.startStep (inv : Supervised s)
    (holds : s.holder = some (call, stage)) (other : call ≠ .shutdown)
    (taken : s.startStep call cfg auto ok stage = some next) : Supervised next := by
  have phase := phase_of_holder holds
  have held := inv.held
  rw [phase] at held
  have stays : ∀ {stage : CallStage}, call = .shutdown → stage ≠ .latching →
      s.shutdownRequested = true := fun isShutdown => absurd isShutdown other
  -- a start that got this far comes before every shutdown
  have running := inv.upRunning phase
  cases stage with
  | admission =>
    cases taken
    exact inv.admission phase other
  | admissionLoop => exact held.elim
  | spawning =>
    cases ok with
    | true => cases taken
    | false =>
      cases taken
      exact inv.goto held (fun _ same => by rw [phase] at same; cases same)
        (fun down => absurd down (running nofun)) stays
  | spawnFailed =>
    cases taken
    have lowered : Supervised { s with starting := false } := by
      refine inv.of_frame ⟨rfl, rfl, rfl, rfl, rfl⟩ (fun _ same => same) ?_ inv.latched inv.shut
        inv.closing inv.quiet
      show Held _ s.phase
      rw [phase]
      exact held
    refine lowered.finish ⟨rfl, held.1⟩ (fun child spawned => ?_) fun _ same => by cases same
    have same : s.phase = .spawned child := spawned
    rw [phase] at same
    cases same
  | spawned child =>
    cases taken
    exact inv.install phase other
  | saving child =>
    cases ok with
    | true =>
      cases taken
      refine inv.of_frame ⟨rfl, rfl, rfl, rfl, rfl⟩
        (fun _ same => by rw [phase] at same; cases same) held inv.latched
        (fun down => absurd down (running nofun))
        (fun _ same => absurd (congrArg Prod.fst (some.inj same)) other) inv.quiet
    | false =>
      cases taken
      exact inv.finish ⟨held.1, held.2.1⟩ (fun _ same => by rw [phase] at same; cases same)
        fun _ same => by cases same
  | watching child =>
    cases ok with
    | true =>
      cases taken
      exact inv.watch phase
    | false =>
      cases taken
      exact inv.finish ⟨held.1, held.2.1⟩ (fun _ same => by rw [phase] at same; cases same)
        fun _ same => by cases same
  | latching | halting | preparing | signalling | waiting | killing | failing | reopening =>
    cases taken

theorem Supervised.spawnReturns (inv : Supervised s) (spawning : s.phase = .spawning)
    (other : call ≠ .shutdown) (pid : Nat) (starttime : Option Nat) (logPath : Option String) :
    Supervised (s.spawnReturns call cfg auto pid starttime logPath) := by
  have held := inv.held
  rw [spawning] at held
  obtain ⟨stopping, gone, free⟩ := held
  have running := inv.upRunning spawning nofun
  -- the object is new to every thread
  have unwatched : s.monitors s.nextObject = none := by
    cases watches : s.monitors s.nextObject with
    | none => rfl
    | some entry => exact absurd (inv.watched _ entry.1 entry.2 watches).2.1 (Nat.lt_irrefl _)
  constructor
  case fresh =>
    intro object runs
    rcases mem_append.mp runs with prev | last
    · exact Nat.lt_succ_of_lt (inv.fresh object prev)
    · rw [mem_singleton.mp last]
      exact Nat.lt_succ_self _
  case running =>
    intro object runs
    rcases mem_append.mp runs with prev | last
    · obtain ⟨child, isCurrent | isSpawned, -⟩ := inv.running object prev
      · rw [gone] at isCurrent
        cases isCurrent
      · rw [spawning] at isSpawned
        cases isSpawned
    · exact ⟨_, .inr rfl, (mem_singleton.mp last).symm⟩
  case current =>
    intro child isCurrent
    exact Nat.lt_succ_of_lt (inv.current child isCurrent)
  case held =>
    exact ⟨stopping, gone, unwatched, Nat.lt_succ_self _,
      fun reaped => Nat.lt_irrefl _ (inv.gone _ reaped).1⟩
  case watched =>
    intro object child stage watches
    obtain ⟨isObject, below, exited, forgot⟩ := inv.watched object child stage watches
    refine ⟨isObject, Nat.lt_succ_of_lt below, fun late runs => ?_, forgot⟩
    rcases mem_append.mp runs with prev | last
    · exact exited late prev
    · exact absurd (mem_singleton.mp last) (Nat.ne_of_lt below)
  case gone =>
    intro object reaped
    exact ⟨Nat.lt_succ_of_lt (inv.gone object reaped).1, (inv.gone object reaped).2⟩
  case latched =>
    intro latched
    rcases latched_snoc.mp latched with ⟨_, _, same⟩ | ⟨prev, -⟩
    · cases same
    · exact inv.latched prev
  case shut =>
    intro down
    rcases shutDown_snoc.mp down with prev | ⟨_, same⟩
    · exact absurd prev running
    · cases same
  case closing => exact fun _ same => absurd (congrArg Prod.fst (some.inj same)) other
  case quiet => exact inv.quiet.spawned free running _ _ _

/-! ### `_stop` -/

theorem Supervised.stopped (inv : Supervised s) {already : Bool}
    (free : s.starting = false ∧ s.stopping = false) (gone : s.child = none)
    (requested : s.stopRequested = true) (other : ∀ child, s.phase ≠ .spawned child)
    (closing : call = .shutdown → s.shutdownRequested = true) :
    Supervised (s.stopped call already) := by
  unfold Daemon.stopped
  split
  · refine inv.goto free (fun child spawned => absurd spawned (other child)) ?_ nofun
    exact fun _ => ⟨rfl, nofun⟩
  · exact inv.finish free other fun _ _ => ⟨requested, fun isShutdown => ⟨closing isShutdown, gone⟩⟩

theorem Supervised.raise (inv : Supervised s) {mid : Daemon}
    (same : mid.child = s.child ∧ mid.monitors = s.monitors ∧ mid.alive = s.alive ∧
      mid.nextObject = s.nextObject ∧ mid.reaped = s.reaped)
    (history : mid.history = s.history) (requested : mid.stopRequested = s.stopRequested)
    (free : mid.starting = false ∧ mid.stopping = false) (other : ∀ child, s.phase ≠ .spawned child)
    (running : ¬ShutDown s.history) : Supervised (mid.finish call .raised) := by
  have after : (mid.finish call .raised).history = s.history ++ [.returned call .raised] :=
    congrArg (· ++ _) history
  refine inv.of_frame same (fun child spawned => absurd spawned (other child)) free
    (fun latched => ?_) (fun down => ?_) nofun ?_
  · rw [after] at latched
    rcases latched_snoc.mp latched with ⟨_, _, same⟩ | ⟨prev, -⟩
    · cases (Moment.returned.inj same).2
    · exact requested.trans (inv.latched prev)
  · rw [after] at down
    rcases shutDown_snoc.mp down with prev | ⟨_, same⟩
    · exact absurd prev running
    · cases (Moment.returned.inj same).2
  · rw [after]
    exact inv.quiet.snoc fun _ _ _ => nofun

theorem Supervised.stopFailed (inv : Supervised s) (stopping : s.phase = .stopping child)
    (closing : call = .shutdown → s.shutdownRequested = true) :
    Supervised (s.stopFailed call child) := by
  have held := inv.held
  rw [stopping] at held
  obtain ⟨starting, -, current⟩ := held
  have free : (if s.child = some child then false else s.stopping) = false := by
    rcases current with ⟨isCurrent, -⟩ | ⟨-, stopping⟩
    · exact if_pos isCurrent
    · rw [stopping, ite_self]
  have notSpawned := unspawned stopping fun _ => nofun
  have running := inv.upRunning stopping nofun
  unfold Daemon.stopFailed Daemon.stopRaised
  split
  · exact inv.of_frame ⟨rfl, rfl, rfl, rfl, rfl⟩ (fun child spawned => absurd spawned
      (notSpawned child)) ⟨starting, free⟩ inv.latched (fun down => absurd down running)
      (fun _ same _ => closing (congrArg Prod.fst (some.inj same))) inv.quiet
  · exact inv.raise ⟨rfl, rfl, rfl, rfl, rfl⟩ rfl rfl ⟨starting, free⟩ notSpawned running

theorem Supervised.halt (inv : Supervised s) (idle : s.phase = .idle)
    (closing : call = .shutdown → s.shutdownRequested = true) : Supervised (s.halt call) := by
  obtain ⟨starting, stopping⟩ := inv.idle idle
  have notSpawned := unspawned idle fun _ => nofun
  have requested : Supervised { s with stopRequested := true } := by
    refine inv.of_frame ⟨rfl, rfl, rfl, rfl, rfl⟩ (fun _ same => same) ?_ (fun _ => rfl) inv.shut
      inv.closing inv.quiet
    show Held _ s.phase
    rw [idle]
    exact ⟨starting, stopping⟩
  unfold Daemon.halt
  rw [if_neg (by rw [starting]; exact Bool.false_ne_true)]
  split
  · next gone => exact requested.stopped ⟨starting, stopping⟩ gone rfl notSpawned closing
  · next child isCurrent =>
    refine requested.of_frame ⟨rfl, rfl, rfl, rfl, rfl⟩
      (fun child spawned => absurd spawned (notSpawned child))
      ⟨starting, rfl, .inl ⟨isCurrent, rfl⟩⟩ (fun _ => rfl) (fun down => ?_) ?_ inv.quiet
    · have gone := (inv.shut down).2.1
      rw [isCurrent] at gone
      cases gone
    · exact fun _ same _ => closing (congrArg Prod.fst (some.inj same))

/-- **A step of a stop.** -/
theorem Supervised.stopStep (inv : Supervised s)
    (holds : s.holder = some (call, stage)) (taken : s.stopStep call ok stage = some next) :
    Supervised next := by
  have phase := phase_of_holder holds
  have held := inv.held
  rw [phase] at held
  have closing : stage ≠ .latching → call = .shutdown → s.shutdownRequested = true := by
    rintro late rfl
    exact inv.closing stage holds late
  have notSpawned := unspawned phase
  have goOn : ∀ {later : CallStage}, (∀ child, stage.phase ≠ .spawned child) →
      stage.phase ≠ .idle → stage ≠ .latching → s.Held later.phase → Supervised (s.goto call later) :=
    fun other busy late held => inv.goto held (fun child same => absurd same (notSpawned other child))
      (fun down => absurd down (inv.upRunning phase busy)) fun isShutdown _ => closing late isShutdown
  -- once the child was reaped nothing is current and nothing is being stopped
  have reapedFree : ∀ child, s.Held (.stopping child) → child.object ∈ s.reaped →
      s.child = none ∧ s.starting = false ∧ s.stopping = false := by
    rintro child ⟨starting, -, ⟨isCurrent, -⟩ | ⟨gone, stopping⟩⟩ reaped
    · exact absurd rfl ((inv.gone _ reaped).2 child isCurrent)
    · exact ⟨gone, starting, stopping⟩
  cases stage with
  | latching =>
    cases taken
    refine inv.of_frame ⟨rfl, rfl, rfl, rfl, rfl⟩ (fun child same => absurd same
      (notSpawned (fun _ => nofun) child)) held inv.latched (fun down => ?_) (fun _ _ _ => rfl)
      inv.quiet
    exact ⟨rfl, (inv.shut down).2.1, rfl, fun _ => nofun⟩
  | halting =>
    cases taken
    exact inv.halt phase (closing nofun)
  | preparing child =>
    cases ok with
    | true =>
      cases taken
      exact inv.of_frame ⟨rfl, rfl, rfl, rfl, rfl⟩ (fun child same => absurd same
        (notSpawned (fun _ => nofun) child)) held inv.latched
        (fun down => absurd down (inv.upRunning phase nofun))
        (fun _ same _ => closing nofun (congrArg Prod.fst (some.inj same))) inv.quiet
    | false =>
      cases taken
      exact goOn (fun _ => nofun) nofun nofun held
  | signalling child =>
    simp only [Daemon.stopStep] at taken
    split at taken
    · next reaped =>
      cases taken
      obtain ⟨gone, free⟩ := reapedFree child held reaped
      exact inv.stopped free gone held.2.1 (notSpawned fun _ => nofun) (closing nofun)
    · split at taken
      all_goals
        cases taken
        exact goOn (fun _ => nofun) nofun nofun held
  | waiting child killed =>
    simp only [Daemon.stopStep] at taken
    split at taken
    · next reaped =>
      cases taken
      obtain ⟨gone, free⟩ := reapedFree child held reaped
      exact inv.stopped free gone held.2.1 (notSpawned fun _ => nofun) (closing nofun)
    · obtain ⟨-, ⟨⟩⟩ := Option.ite_none_left_eq_some.mp taken
      cases killed
      all_goals
        exact goOn (fun _ => nofun) nofun nofun held
  | killing child =>
    cases taken
    cases ok
    all_goals
      exact goOn (fun _ => nofun) nofun nofun held
  | failing child =>
    cases taken
    exact inv.stopFailed phase (closing nofun)
  | reopening =>
    cases taken
    exact inv.raise ⟨rfl, rfl, rfl, rfl, rfl⟩ rfl rfl held (notSpawned fun _ => nofun)
      fun down => (inv.shut down).2.2.2 call holds
  | admission | admissionLoop | spawning | spawnFailed | spawned | saving | watching => cases taken

/-! ### Monitors -/

theorem Supervised.of_monitor (inv : Supervised s) {stage : ReapStage}
    (watches : s.monitors object = some (child, stage)) {entry : Option (Child × ReapStage)}
    (same : next.alive = s.alive ∧ next.nextObject = s.nextObject ∧ next.holder = s.holder ∧
      next.history = s.history ∧ next.starting = s.starting ∧
      next.shutdownRequested = s.shutdownRequested)
    (monitors : next.monitors = Function.update s.monitors child.object entry)
    (requested : s.stopRequested = true → next.stopRequested = true)
    (current : next.child = s.child ∧ next.stopping = s.stopping ∨
      stage ≠ .waiting ∧ s.child = some child ∧ next.child = none ∧ next.stopping = false)
    (reaped : ∀ other ∈ next.reaped, other ∈ s.reaped ∨
      other = child.object ∧ ∀ later, s.child = some later → later.object ≠ other)
    (after : ∀ later stage, entry = some (later, stage) → later = child ∧
      (stage ≠ .waiting → child.object ∉ s.alive) ∧
      ∀ other, next.child = some other → other.object = child.object →
        other = child ∧ stage.forgot = false) : Supervised next := by
  obtain ⟨isObject, below, exited, -⟩ := inv.watched object child stage watches
  subst isObject
  obtain ⟨alive, nextObject, holder, history, starting, shutdownRequested⟩ := same
  have phase : next.phase = s.phase := by
    unfold Daemon.phase
    rw [holder]
  -- the child that this monitor watches has one
  have apart : ∀ other : Child, s.monitors other.object = none → other.object ≠ child.object := by
    intro other unwatched isChild
    rw [isChild, watches] at unwatched
    cases unwatched
  have still : ∀ later, next.child = some later → s.child = some later := by
    intro later isCurrent
    rcases current with ⟨sameChild, -⟩ | ⟨-, -, forgotten, -⟩
    · exact sameChild.symm.trans isCurrent
    · rw [forgotten] at isCurrent
      cases isCurrent
  constructor
  case fresh =>
    rw [alive, nextObject]
    exact inv.fresh
  case running =>
    rw [alive, phase]
    intro other runs
    obtain ⟨later, isCurrent | isSpawned, isOther⟩ := inv.running other runs
    · rcases current with ⟨sameChild, -⟩ | ⟨late, isChild, -, -⟩
      · exact ⟨later, .inl (sameChild.trans isCurrent), isOther⟩
      · rw [isChild] at isCurrent
        obtain rfl := some.inj isCurrent
        exact absurd (isOther ▸ runs) (exited late)
    · exact ⟨later, .inr isSpawned, isOther⟩
  case current =>
    rw [nextObject]
    exact fun later isCurrent => inv.current later (still later isCurrent)
  case held =>
    have held := inv.held
    rw [phase]
    cases inPhase : s.phase with
    | idle =>
      rw [inPhase] at held
      refine ⟨starting.trans held.1, ?_⟩
      rcases current with ⟨-, stopping⟩ | ⟨-, -, -, stopping⟩
      · exact stopping.trans held.2
      · exact stopping
    | blocked =>
      rw [inPhase] at held
      exact held
    | spawning =>
      rw [inPhase] at held
      obtain ⟨stopping, gone, free⟩ := held
      rcases current with ⟨sameChild, sameStopping⟩ | ⟨-, isChild, -⟩
      · exact ⟨sameStopping.trans stopping, sameChild.trans gone, history ▸ free⟩
      · rw [gone] at isChild
        cases isChild
    | spawned later =>
      rw [inPhase] at held
      obtain ⟨stopping, gone, unwatched, known, unreaped⟩ := held
      rcases current with ⟨sameChild, sameStopping⟩ | ⟨-, isChild, -⟩
      · refine ⟨sameStopping.trans stopping, sameChild.trans gone, ?_, nextObject ▸ known, ?_⟩
        · rw [monitors, update_of_ne (apart later unwatched)]
          exact unwatched
        · intro isReaped
          rcases reaped _ isReaped with prev | ⟨isChild, -⟩
          · exact unreaped prev
          · exact apart later unwatched isChild
      · rw [gone] at isChild
        cases isChild
    | saving later | watching later =>
      rw [inPhase] at held
      obtain ⟨lowered, stopping, isCurrent, unwatched⟩ := held
      rcases current with ⟨sameChild, sameStopping⟩ | ⟨-, isChild, -⟩
      · refine ⟨starting.trans lowered, sameStopping.trans stopping, sameChild.trans isCurrent, ?_⟩
        rw [monitors, update_of_ne (apart later unwatched)]
        exact unwatched
      · rw [isCurrent] at isChild
        obtain rfl := some.inj isChild
        exact absurd rfl (apart later unwatched)
    | stopping later =>
      rw [inPhase] at held
      obtain ⟨lowered, latch, which⟩ := held
      refine ⟨starting.trans lowered, requested latch, ?_⟩
      rcases current with ⟨sameChild, sameStopping⟩ | ⟨-, -, gone, lowered⟩
      · rw [sameChild, sameStopping]
        exact which
      · exact .inr ⟨gone, lowered⟩
  case watched =>
    rw [monitors, nextObject, alive]
    intro other later stage' watches'
    by_cases isChild : other = child.object
    · subst isChild
      rw [update_self] at watches'
      obtain ⟨rfl, exited, forgot⟩ := after later stage' watches'
      exact ⟨rfl, below, exited, forgot⟩
    · rw [update_of_ne isChild] at watches'
      obtain ⟨isOther, below, exited, forgot⟩ := inv.watched other later stage' watches'
      exact ⟨isOther, below, exited, fun third isCurrent => forgot third (still third isCurrent)⟩
  case gone =>
    rw [nextObject]
    intro other isReaped
    rcases reaped other isReaped with prev | ⟨rfl, forgotten⟩
    · exact ⟨(inv.gone other prev).1,
        fun later isCurrent => (inv.gone other prev).2 later (still later isCurrent)⟩
    · exact ⟨below, fun later isCurrent => forgotten later (still later isCurrent)⟩
  case latched =>
    rw [history]
    exact fun latched => requested (inv.latched latched)
  case shut =>
    rw [history, shutdownRequested, phase, holder]
    intro down
    obtain ⟨isShut, gone, idle, other⟩ := inv.shut down
    refine ⟨isShut, ?_, idle, other⟩
    cases isCurrent : next.child with
    | none => rfl
    | some later =>
      rw [still later isCurrent] at gone
      cases gone
  case closing =>
    rw [holder, shutdownRequested]
    exact inv.closing
  case quiet =>
    rw [history]
    exact inv.quiet

/-- **A step of a monitor.** -/
theorem Supervised.monitorStep (inv : Supervised s) {stage : ReapStage}
    (watches : s.monitors object = some (child, stage))
    (taken : s.monitorStep restarts child ok stage = some next) : Supervised next := by
  obtain ⟨rfl, -, exited, unforgotten⟩ := inv.watched object child stage watches
  have dead : stage ≠ .waiting → child.object ∉ s.alive := exited
  -- the monitor goes on to a stage before its child is forgotten
  have pre : ∀ {later : ReapStage}, later.forgot = false → child.object ∉ s.alive →
      ∀ (third : Child) (stage' : ReapStage), some (child, later) = some (third, stage') →
        third = child ∧ (stage' ≠ .waiting → child.object ∉ s.alive) ∧
          ∀ other, s.child = some other → other.object = child.object →
            other = child ∧ stage'.forgot = false := by
    intro later early gone third stage' same
    obtain ⟨rfl, rfl⟩ := Prod.mk.inj (some.inj same)
    exact ⟨rfl, fun _ => gone, fun other isCurrent isObject =>
      ⟨(unforgotten other isCurrent isObject).1, early⟩⟩
  -- or to one after
  have past : stage.forgot = true → ∀ (later : ReapStage) (third : Child) (stage' : ReapStage),
      some (child, later) = some (third, stage') →
        third = child ∧ (stage' ≠ .waiting → child.object ∉ s.alive) ∧
          ∀ other, s.child = some other → other.object = child.object →
            other = child ∧ stage'.forgot = false := by
    intro late later third stage' same
    obtain ⟨rfl, rfl⟩ := Prod.mk.inj (some.inj same)
    refine ⟨rfl, fun _ => dead ?_, fun other isCurrent isObject => ?_⟩
    · rintro rfl
      cases late
    · rw [(unforgotten other isCurrent isObject).2] at late
      cases late
  have ends : ∀ (third : Child) (stage' : ReapStage), none = some (third, stage') →
      third = child ∧ (stage' ≠ .waiting → child.object ∉ s.alive) ∧
        ∀ other, s.child = some other → other.object = child.object →
          other = child ∧ stage'.forgot = false := nofun
  cases stage with
  | waiting =>
    obtain ⟨gone, ⟨⟩⟩ := Option.ite_none_left_eq_some.mp taken
    exact inv.of_monitor watches ⟨rfl, rfl, rfl, rfl, rfl, rfl⟩ rfl id (.inl ⟨rfl, rfl⟩)
      (fun _ reaped => .inl reaped) (pre rfl gone)
  | reaping =>
    cases taken
    unfold reap
    split
    all_goals
      exact inv.of_monitor watches ⟨rfl, rfl, rfl, rfl, rfl, rfl⟩ rfl id (.inl ⟨rfl, rfl⟩)
        (fun _ reaped => .inl reaped) (pre rfl (dead nofun))
  | accounting wasStopping =>
    simp only [Daemon.monitorStep] at taken
    split at taken
    · cases taken
      exact inv.of_monitor watches ⟨rfl, rfl, rfl, rfl, rfl, rfl⟩ rfl id (.inl ⟨rfl, rfl⟩)
        (fun _ reaped => .inl reaped) (pre rfl (dead nofun))
    · split at taken
      all_goals
        cases taken
        exact inv.of_monitor watches ⟨rfl, rfl, rfl, rfl, rfl, rfl⟩ rfl id (.inl ⟨rfl, rfl⟩)
          (fun _ reaped => .inl reaped) (pre rfl (dead nofun))
  | outboxFailed wasStopping =>
    cases taken
    exact inv.of_monitor watches ⟨rfl, rfl, rfl, rfl, rfl, rfl⟩ rfl (fun _ => rfl) (.inl ⟨rfl, rfl⟩)
      (fun _ reaped => .inl reaped) (pre rfl (dead nofun))
  | forgetting wasStopping =>
    cases taken
    unfold forget
    split
    · next isChild =>
      refine inv.of_monitor watches ⟨rfl, rfl, rfl, rfl, rfl, rfl⟩ rfl id
        (.inr ⟨nofun, isChild, rfl, rfl⟩) (fun _ reaped => .inl reaped) fun third stage' same => ?_
      obtain ⟨rfl, rfl⟩ := Prod.mk.inj (some.inj same)
      exact ⟨rfl, fun _ => dead nofun, nofun⟩
    · next other =>
      refine inv.of_monitor watches ⟨rfl, rfl, rfl, rfl, rfl, rfl⟩ rfl id (.inl ⟨rfl, rfl⟩)
        (fun _ reaped => .inl reaped) fun third stage' same => ?_
      obtain ⟨rfl, rfl⟩ := Prod.mk.inj (some.inj same)
      refine ⟨rfl, fun _ => dead nofun, fun later isCurrent isObject => absurd ?_ other⟩
      rw [(unforgotten later isCurrent isObject).1] at isCurrent
      exact isCurrent
  | clearing wasStopping =>
    cases taken
    exact inv.of_monitor watches ⟨rfl, rfl, rfl, rfl, rfl, rfl⟩ rfl id (.inl ⟨rfl, rfl⟩)
      (fun _ reaped => .inl reaped) (past rfl _)
  | signalling wasStopping isCurrent =>
    have signals : ∀ other ∈ child.object :: s.reaped, other ∈ s.reaped ∨
        other = child.object ∧ ∀ later, s.child = some later → later.object ≠ other := by
      intro other mem
      rcases mem_cons.mp mem with rfl | prev
      · exact .inr ⟨rfl, fun later isCurrent isObject => by
          cases (unforgotten later isCurrent isObject).2⟩
      · exact .inl prev
    simp only [Daemon.monitorStep] at taken
    split at taken
    · cases taken
      exact inv.of_monitor watches ⟨rfl, rfl, rfl, rfl, rfl, rfl⟩ rfl id (.inl ⟨rfl, rfl⟩) signals
        (past rfl _)
    · cases taken
      exact inv.of_monitor watches ⟨rfl, rfl, rfl, rfl, rfl, rfl⟩ rfl id (.inl ⟨rfl, rfl⟩) signals ends
  | deciding wasStopping =>
    simp only [Daemon.monitorStep] at taken
    split at taken
    · cases taken
      exact inv.of_monitor watches ⟨rfl, rfl, rfl, rfl, rfl, rfl⟩ rfl id (.inl ⟨rfl, rfl⟩)
        (fun _ reaped => .inl reaped) (past rfl _)
    · cases taken
      exact inv.of_monitor watches ⟨rfl, rfl, rfl, rfl, rfl, rfl⟩ rfl id (.inl ⟨rfl, rfl⟩)
        (fun _ reaped => .inl reaped) ends
  | restarting =>
    cases taken
    exact inv.of_monitor watches ⟨rfl, rfl, rfl, rfl, rfl, rfl⟩ rfl id (.inl ⟨rfl, rfl⟩)
      (fun _ reaped => .inl reaped) ends

/-! ### Runs -/

theorem starts_not_shutdown (starts : call.starts = some (cfg, auto)) : call ≠ .shutdown := by
  rintro rfl
  cases starts

/-- **A step of the daemon keeps the invariant.** -/
theorem Supervised.step (inv : Supervised s)
    (taken : s.step restarts event = some next) : Supervised next := by
  have entry : ∀ (call : LifecycleCall) {start : Daemon}, Supervised start → start.holder = none →
      Supervised (start.goto call call.entry) := by
    intro call start inv free
    have idle : start.phase = .idle := by
      unfold Daemon.phase
      rw [free]
    have flags := inv.idle idle
    have notSpawned := unspawned idle fun _ => nofun
    cases call with
    | start cfg auto | stop | «switch» cfg =>
      exact inv.goto flags (fun child spawned => absurd spawned (notSpawned child))
        (fun _ => ⟨rfl, nofun⟩) nofun
    | shutdown =>
      exact inv.goto flags (fun child spawned => absurd spawned (notSpawned child))
        (fun _ => ⟨rfl, nofun⟩) fun _ late => absurd rfl late
  cases event with
  | call call =>
    obtain ⟨enabled, ⟨⟩⟩ := Option.ite_none_right_eq_some.mp taken
    exact entry call inv enabled.1
  | restart cfg =>
    obtain ⟨enabled, ⟨⟩⟩ := Option.ite_none_right_eq_some.mp taken
    refine @entry (.start cfg true) { s with restarts := s.restarts.erase cfg } ?_ enabled.1
    exact inv.of_frame ⟨rfl, rfl, rfl, rfl, rfl⟩ (fun _ same => same) inv.held inv.latched inv.shut
      inv.closing inv.quiet
  | proceed ok =>
    simp only [Daemon.step, lifecycleStep] at taken
    split at taken
    · cases taken
    · next call stage holds =>
      split at taken
      · exact inv.startStep holds nofun taken
      · exact inv.stopStep holds taken
      · exact inv.stopStep holds taken
      · split at taken
        · next stops =>
          cases taken
          exact inv.stopStep holds stops
        · exact inv.startStep holds nofun taken
  | spawn pid starttime logPath =>
    simp only [Daemon.step] at taken
    split at taken
    · next call holds =>
      obtain ⟨⟨cfg, auto⟩, starts, rfl⟩ := map_eq_some_iff.mp taken
      exact inv.spawnReturns (phase_of_holder holds) (starts_not_shutdown starts) _ _ _
    · cases taken
  | exit object =>
    obtain ⟨-, ⟨⟩⟩ := Option.ite_none_right_eq_some.mp taken
    have fewer : ∀ other ∈ s.alive.erase object, other ∈ s.alive := fun other mem =>
      mem_of_mem_erase mem
    exact { inv with
      fresh := fun other runs => inv.fresh other (fewer other runs)
      running := fun other runs => inv.running other (fewer other runs)
      watched := fun other child stage watches =>
        let ⟨isObject, below, exited, forgot⟩ := inv.watched other child stage watches
        ⟨isObject, below, fun late runs => exited late (fewer other runs), forgot⟩ }
  | monitor object ok =>
    simp only [Daemon.step] at taken
    split at taken
    · next child stage watches => exact inv.monitorStep watches taken
    · cases taken

end Transactions

/-! ### The record of the current child, and what is restarted -/

def Recorded (s : Daemon) (child : Child) : Prop :=
  (∃ cfg, s.config = some cfg ∧ s.store = some (child.record cfg)) ∧
    ∀ object other wasStopping, s.monitors object ≠ some (other, .clearing wasStopping)

/-- What holds as long as no start saves its record while a monitor is about to remove the state
file, and installs no child past a restart of another configuration. -/
structure Faithful (s : Daemon) : Prop where
  known : ∀ child, Settled s.history child → child.object < s.nextObject
  settled : ∀ child, s.child = some child → Settled s.history child → s.Recorded child
  watching : ∀ child, s.phase = .watching child → s.Recorded child
  unsettled : ∀ child, s.phase = .spawned child ∨ s.phase = .saving child ∨
    s.phase = .watching child → ¬Settled s.history child
  restarts : ∀ cfg ∈ s.restarts, s.config = some cfg
  auto : ∀ cfg stage, s.holder = some (.start cfg true, stage) → s.config = some cfg
  last : (∀ child, s.phase ≠ .spawned child) → lastStarted s.history = s.config
  spawnedLast : ∀ call child, s.holder = some (call, .spawned child) →
    ∃ cfg auto, call.starts = some (cfg, auto) ∧ lastStarted s.history = some cfg
  installed : ∀ call child, s.holder = some (call, .saving child) →
    ∃ cfg auto, call.starts = some (cfg, auto) ∧ s.config = some cfg
  faithful : RestartsLast s.history

section Careful

variable {s next : Daemon} {call : LifecycleCall} {cfg : ServeConfig} {auto ok : Bool}
  {child : Child} {moments : List Moment}

theorem settled_silent {history : List Moment} (silent : ∀ moment ∈ moments, moment.silent) :
    Settled (history ++ moments) child ↔ Settled history child := by
  induction moments using reverseRecOn with
  | nil => rw [append_nil]
  | append_singleton moments moment ih =>
    rw [← append_assoc, settled_snoc, ih fun other mem => silent other (mem_append_left _ mem)]
    have quiet := silent moment (mem_append_right _ (mem_singleton_self _))
    constructor
    · rintro (prev | ⟨_, rfl⟩ | ⟨_, rfl⟩)
      · exact prev
      · cases quiet
      · cases quiet
    · exact .inl

theorem lastStarted_silent {history : List Moment} (silent : ∀ moment ∈ moments, moment.silent) :
    lastStarted (history ++ moments) = lastStarted history := by
  induction moments using reverseRecOn with
  | nil => rw [append_nil]
  | append_singleton moments moment ih =>
    rw [← append_assoc, lastStarted_snoc, ih fun other mem => silent other (mem_append_left _ mem)]
    have quiet := silent moment (mem_append_right _ (mem_singleton_self _))
    cases moment with
    | startMade | returned => rfl
    | adopted | spawned => cases quiet

theorem restartsLast_silent {history : List Moment} (faithful : RestartsLast history)
    (silent : ∀ moment ∈ moments, moment.silent) : RestartsLast (history ++ moments) := by
  induction moments using reverseRecOn with
  | nil => rwa [append_nil]
  | append_singleton moments moment ih =>
    rw [← append_assoc]
    refine RestartsLast.snoc (ih fun other mem => silent other (mem_append_left _ mem)) ?_
    rintro child cfg rfl
    cases silent _ (mem_append_right _ (mem_singleton_self _))

/-- What most steps of the holder do: no child is on its way after them. -/
structure QuietStep (s next : Daemon) : Prop where
  frame : next.child = s.child ∧ next.config = s.config ∧ next.store = s.store ∧
    next.monitors = s.monitors ∧ next.nextObject = s.nextObject ∧ next.restarts = s.restarts
  history : ∃ moments, next.history = s.history ++ moments ∧ ∀ moment ∈ moments, moment.silent
  calm : next.phase.calm = true
  holder : ∀ call stage, next.holder = some (call, stage) → ∃ prev, s.holder = some (call, prev)

theorem Faithful.of_quietStep (kept : Faithful s) (step : QuietStep s next)
    (other : ∀ child, s.phase ≠ .spawned child) : Faithful next := by
  obtain ⟨sameChild, sameConfig, store, monitors, nextObject, restarts⟩ := step.frame
  obtain ⟨moments, history, silent⟩ := step.history
  have calm := step.calm
  constructor
  case known =>
    rw [history, nextObject]
    exact fun child settled => kept.known child ((settled_silent silent).mp settled)
  case settled =>
    rw [history, sameChild]
    intro child isCurrent settled
    have recorded := kept.settled child isCurrent ((settled_silent silent).mp settled)
    unfold Recorded
    rwa [sameConfig, store, monitors]
  case watching =>
    intro child watching
    rw [watching] at calm
    cases calm
  case unsettled =>
    rintro child (phase | phase | phase)
    all_goals
      rw [phase] at calm
      cases calm
  case restarts =>
    rw [restarts, sameConfig]
    exact kept.restarts
  case auto =>
    rw [sameConfig]
    intro cfg stage holds
    obtain ⟨prev, held⟩ := step.holder _ stage holds
    exact kept.auto cfg prev held
  case last =>
    intro _
    rw [history, lastStarted_silent silent, sameConfig]
    exact kept.last other
  case spawnedLast | installed =>
    intro call child holds
    rw [phase_of_holder holds] at calm
    cases calm
  case faithful =>
    rw [history]
    exact restartsLast_silent kept.faithful silent

theorem QuietStep.trans {mid : Daemon} (first : QuietStep s mid) (second : QuietStep mid next) :
    QuietStep s next := by
  obtain ⟨child₁, config₁, store₁, monitors₁, nextObject₁, restarts₁⟩ := first.frame
  obtain ⟨child₂, config₂, store₂, monitors₂, nextObject₂, restarts₂⟩ := second.frame
  obtain ⟨moments₁, history₁, silent₁⟩ := first.history
  obtain ⟨moments₂, history₂, silent₂⟩ := second.history
  refine ⟨⟨child₂.trans child₁, config₂.trans config₁, store₂.trans store₁,
    monitors₂.trans monitors₁, nextObject₂.trans nextObject₁, restarts₂.trans restarts₁⟩,
    ⟨moments₁ ++ moments₂, ?_, ?_⟩, second.calm, ?_⟩
  · rw [history₂, history₁, append_assoc]
  · intro moment mem
    rcases mem_append.mp mem with prev | later
    · exact silent₁ moment prev
    · exact silent₂ moment later
  · intro call stage holds
    obtain ⟨prev, held⟩ := second.holder call stage holds
    exact first.holder call prev held

theorem quiet_goto (stage : CallStage) {prev : CallStage} (holds : s.holder = some (call, prev))
    (calm : stage.phase.calm = true) : QuietStep s (s.goto call stage) where
  frame := ⟨rfl, rfl, rfl, rfl, rfl, rfl⟩
  history := ⟨[], (append_nil _).symm, nofun⟩
  calm := calm
  holder := fun other _ same => by
    obtain ⟨rfl, -⟩ := Prod.mk.inj (some.inj same)
    exact ⟨prev, holds⟩

theorem quiet_finish (answer : LifecycleAnswer) (other : ∀ child, answer ≠ .started child) :
    QuietStep s (s.finish call answer) where
  frame := ⟨rfl, rfl, rfl, rfl, rfl, rfl⟩
  history := by
    refine ⟨[.returned call answer], rfl, fun moment mem => ?_⟩
    rw [mem_singleton.mp mem]
    cases answer with
    | started child => exact absurd rfl (other child)
    | _ => rfl
  calm := rfl
  holder := nofun

theorem quiet_admissionLoop (holds : s.holder = some (call, prev)) :
    QuietStep s (s.admissionLoop call cfg auto) := by
  unfold Daemon.admissionLoop
  split
  · split
    · exact quiet_finish _ fun _ => nofun
    · exact quiet_finish _ fun _ => nofun
  · split
    · exact quiet_goto _ holds rfl
    · split
      · exact quiet_finish _ fun _ => nofun
      · exact { quiet_goto .spawning holds rfl with }

theorem quiet_admission (holds : s.holder = some (call, prev))
    (calm : prev.phase.calm = true) : QuietStep s (s.admission call cfg auto) := by
  unfold Daemon.admission
  split
  · refine quiet_finish _ fun child => ?_
    split <;> nofun
  · split
    · split
      · exact quiet_finish _ fun _ => nofun
      · exact quiet_admissionLoop holds
    · refine @QuietStep.trans s _ { s with
        stopRequested := false
        history := s.history ++ [.startMade cfg] } ?_ (quiet_admissionLoop holds)
      constructor
      case frame => exact ⟨rfl, rfl, rfl, rfl, rfl, rfl⟩
      case history =>
        refine ⟨[.startMade cfg], rfl, fun moment mem => ?_⟩
        rw [mem_singleton.mp mem]
        rfl
      case calm =>
        show s.phase.calm = true
        rwa [phase_of_holder holds]
      case holder => exact fun _ _ same => ⟨_, same⟩

theorem quiet_stopped (already : Bool) (holds : s.holder = some (call, prev)) :
    QuietStep s (s.stopped call already) := by
  unfold Daemon.stopped
  split
  · exact quiet_goto _ holds rfl
  · exact quiet_finish _ fun _ => nofun

theorem quiet_stopFailed (holds : s.holder = some (call, prev)) :
    QuietStep s (s.stopFailed call child) := by
  unfold Daemon.stopFailed Daemon.stopRaised
  split
  · exact { quiet_goto .reopening holds rfl with }
  · exact { quiet_finish .raised (s := s) (fun _ => nofun) with }

theorem quiet_halt (holds : s.holder = some (call, prev)) : QuietStep s (s.halt call) := by
  unfold Daemon.halt
  dsimp only
  split
  · exact { quiet_goto .halting holds rfl with }
  · split
    · have step := quiet_stopped (s := { s with stopRequested := true }) true holds
      exact { step with }
    · next child _ => exact { quiet_goto (.preparing child) holds rfl with }

theorem quiet_stopStep (holds : s.holder = some (call, stage))
    (taken : s.stopStep call ok stage = some next) : QuietStep s next := by
  cases stage with
  | latching =>
    cases taken
    exact { quiet_goto .halting holds rfl with }
  | halting =>
    cases taken
    exact quiet_halt holds
  | preparing child =>
    cases ok with
    | true =>
      cases taken
      exact { quiet_goto (.signalling child) holds rfl with }
    | false =>
      cases taken
      exact quiet_goto _ holds rfl
  | signalling child =>
    simp only [Daemon.stopStep] at taken
    split at taken
    · cases taken
      exact quiet_stopped _ holds
    · split at taken
      all_goals
        cases taken
        exact quiet_goto _ holds rfl
  | waiting child killed =>
    simp only [Daemon.stopStep] at taken
    split at taken
    · cases taken
      exact quiet_stopped _ holds
    · obtain ⟨-, ⟨⟩⟩ := Option.ite_none_left_eq_some.mp taken
      cases killed
      all_goals exact quiet_goto _ holds rfl
  | killing child =>
    cases taken
    cases ok
    all_goals exact quiet_goto _ holds rfl
  | failing child =>
    cases taken
    exact quiet_stopFailed holds
  | reopening =>
    cases taken
    exact { quiet_finish .raised (s := s) (fun _ => nofun) with }
  | admission | admissionLoop | spawning | spawnFailed | spawned | saving | watching => cases taken

theorem Faithful.install (kept : Faithful s) (holds : s.holder = some (call, .spawned child))
    (starts : call.starts = some (cfg, auto))
    (careful : auto = false → ∀ waiting ∈ s.restarts, waiting = cfg) :
    Faithful (s.install call cfg child) := by
  have fresh : ¬Settled s.history child := kept.unsettled child (.inl (phase_of_holder holds))
  have same : auto = true → s.config = some cfg := by
    rintro rfl
    cases call with
    | start other auto =>
      obtain ⟨rfl, rfl⟩ := Prod.mk.inj (some.inj starts)
      exact kept.auto _ _ holds
    | stop | shutdown => cases starts
    | «switch» other => cases (Prod.mk.inj (some.inj starts)).2
  constructor
  case known => exact kept.known
  case settled =>
    intro later isCurrent settled
    rw [← some.inj isCurrent] at settled
    exact absurd settled fresh
  case watching => nofun
  case unsettled =>
    rintro later (phase | phase | phase)
    · cases phase
    · rw [← CallPhase.saving.inj phase]
      exact fresh
    · cases phase
  case restarts =>
    intro waiting mem
    cases auto with
    | false => exact congrArg some (careful rfl waiting mem).symm
    | true => exact (same rfl).symm.trans (kept.restarts waiting mem)
  case auto =>
    intro other stage held
    obtain ⟨rfl, -⟩ := Prod.mk.inj (some.inj held)
    exact congrArg (Option.map Prod.fst) starts.symm
  case last =>
    intro _
    obtain ⟨other, _, isStart, last⟩ := kept.spawnedLast call child holds
    rw [starts] at isStart
    obtain ⟨rfl, -⟩ := Prod.mk.inj (some.inj isStart)
    exact last
  case spawnedLast => nofun
  case installed =>
    intro other later held
    obtain ⟨rfl, -⟩ := Prod.mk.inj (some.inj held)
    exact ⟨cfg, auto, starts, rfl⟩
  case faithful => exact kept.faithful

theorem Faithful.save (kept : Faithful s) (inv : Supervised s)
    (holds : s.holder = some (call, .saving child)) (isConfig : s.config = some cfg)
    (careful : ∀ object other wasStopping, s.monitors object ≠ some (other, .clearing wasStopping)) :
    Faithful ({ s with store := some (child.record cfg) }.goto call (.watching child)) := by
  have phase := phase_of_holder holds
  have held := inv.held
  rw [phase] at held
  have fresh : ¬Settled s.history child := kept.unsettled child (.inr (.inl phase))
  constructor
  case known => exact kept.known
  case settled =>
    intro later isCurrent settled
    have same : s.child = some later := isCurrent
    rw [held.2.2.1] at same
    rw [← some.inj same] at settled
    exact absurd settled fresh
  case watching =>
    intro later watching
    rw [← CallPhase.watching.inj watching]
    exact ⟨⟨cfg, isConfig, rfl⟩, careful⟩
  case unsettled =>
    rintro later (phase | phase | phase)
    · cases phase
    · cases phase
    · rw [← CallPhase.watching.inj phase]
      exact fresh
  case restarts => exact kept.restarts
  case auto =>
    intro other stage same
    obtain ⟨rfl, -⟩ := Prod.mk.inj (some.inj same)
    exact kept.auto other _ holds
  case last =>
    intro _
    exact kept.last (unspawned phase fun _ => nofun)
  case spawnedLast | installed => nofun
  case faithful => exact kept.faithful

theorem Faithful.watch (kept : Faithful s) (inv : Supervised s)
    (holds : s.holder = some (call, .watching child)) : Faithful (s.watch call child) := by
  have phase := phase_of_holder holds
  have held := inv.held
  rw [phase] at held
  obtain ⟨cfg, record⟩ := kept.watching child phase
  have settled : ∀ later, Settled (s.watch call child).history later →
      Settled s.history later ∨ later = child := by
    intro later isSettled
    rcases settled_snoc.mp isSettled with prev | ⟨_, same⟩ | ⟨_, same⟩
    · exact .inl prev
    · exact .inr (LifecycleAnswer.started.inj (Moment.returned.inj same).2).symm
    · cases same
  constructor
  case known =>
    intro later isSettled
    rcases settled later isSettled with prev | rfl
    · exact kept.known later prev
    · exact inv.current later held.2.2.1
  case settled =>
    intro later isCurrent _
    have same : s.child = some later := isCurrent
    rw [held.2.2.1] at same
    rw [← some.inj same]
    refine ⟨cfg, fun object other wasStopping watches => ?_⟩
    change update s.monitors child.object _ object = _ at watches
    by_cases isChild : object = child.object
    · rw [isChild, update_self] at watches
      cases watches
    · rw [update_of_ne isChild] at watches
      exact record object other wasStopping watches
  case watching => nofun
  case unsettled =>
    rintro later (phase | phase | phase)
    all_goals cases phase
  case restarts => exact kept.restarts
  case auto => nofun
  case last =>
    intro _
    refine (@lastStarted_snoc _ (.returned call (.started child))).trans ?_
    exact kept.last (unspawned phase fun _ => nofun)
  case spawnedLast | installed => nofun
  case faithful => exact kept.faithful.snoc fun _ _ => nofun

theorem Faithful.spawnReturns (kept : Faithful s) (inv : Supervised s)
    (holds : s.holder = some (call, .spawning)) (starts : call.starts = some (cfg, auto))
    (pid : Nat) (starttime : Option Nat) (logPath : Option String) :
    Faithful (s.spawnReturns call cfg auto pid starttime logPath) := by
  have phase := phase_of_holder holds
  have held := inv.held
  rw [phase] at held
  have settled : ∀ later, Settled (s.spawnReturns call cfg auto pid starttime logPath).history
      later → Settled s.history later := by
    intro later isSettled
    rcases settled_snoc.mp isSettled with prev | ⟨_, same⟩ | ⟨_, same⟩
    · exact prev
    · cases same
    · cases same
  have last : lastStarted s.history = s.config := kept.last (unspawned phase fun _ => nofun)
  have wanted : auto = true → s.config = some cfg := by
    rintro rfl
    cases call with
    | start other auto =>
      obtain ⟨rfl, rfl⟩ := Prod.mk.inj (some.inj starts)
      exact kept.auto _ _ holds
    | stop | shutdown => cases starts
    | «switch» other => cases (Prod.mk.inj (some.inj starts)).2
  constructor
  case known => exact fun later isSettled => Nat.lt_succ_of_lt (kept.known later (settled later isSettled))
  case settled =>
    intro later isCurrent _
    have same : s.child = some later := isCurrent
    rw [held.2.1] at same
    cases same
  case watching => nofun
  case unsettled =>
    rintro later (phase | phase | phase)
    · intro isSettled
      have below := kept.known later (settled later isSettled)
      rw [← CallPhase.spawned.inj phase] at below
      exact Nat.lt_irrefl _ below
    all_goals cases phase
  case restarts => exact kept.restarts
  case auto =>
    intro other stage same
    obtain ⟨rfl, -⟩ := Prod.mk.inj (some.inj same)
    exact kept.auto other _ holds
  case last => exact fun other => absurd rfl (other _)
  case spawnedLast =>
    intro other later same
    obtain ⟨rfl, -⟩ := Prod.mk.inj (some.inj same)
    refine ⟨cfg, auto, starts, ?_⟩
    refine lastStarted_snoc.trans ?_
    cases auto with
    | false => rfl
    | true => exact last.trans (wanted rfl)
  case installed => nofun
  case faithful =>
    refine kept.faithful.snoc fun later other same => ?_
    obtain ⟨-, rfl, rfl⟩ := Moment.spawned.inj same
    exact last.trans (wanted rfl)

theorem Faithful.of_monitor (kept : Faithful s) (inv : Supervised s) {stage : ReapStage}
    (watches : s.monitors object = some (child, stage)) {entry : Option (Child × ReapStage)}
    (same : next.config = s.config ∧ next.nextObject = s.nextObject ∧ next.holder = s.holder ∧
      next.history = s.history)
    (monitors : next.monitors = Function.update s.monitors child.object entry)
    (restarts : ∀ waiting ∈ next.restarts, waiting ∈ s.restarts ∨ s.config = some waiting)
    (still : ∀ later, next.child = some later → s.child = some later)
    (store : next.store = s.store ∨ ∃ wasStopping, stage = .clearing wasStopping)
    (clears : ∀ later wasStopping, entry = some (later, .clearing wasStopping) →
      s.child = some child ∧ next.child = none) : Faithful next := by
  obtain ⟨rfl, -⟩ := inv.watched object child stage watches
  obtain ⟨sameConfig, nextObject, holder, history⟩ := same
  have phase : next.phase = s.phase := by
    unfold Daemon.phase
    rw [holder]
  have recorded : ∀ later, s.Recorded later →
      (∀ other wasStopping, entry ≠ some (other, .clearing wasStopping)) → next.Recorded later := by
    rintro later ⟨⟨cfg, isConfig, isStored⟩, unmoved⟩ quiet
    refine ⟨⟨cfg, sameConfig.trans isConfig, ?_⟩, fun object other wasStopping watches' => ?_⟩
    · rcases store with sameStore | ⟨wasStopping, rfl⟩
      · exact sameStore.trans isStored
      · exact absurd watches (unmoved _ _ _)
    · rw [monitors] at watches'
      by_cases isChild : object = child.object
      · rw [isChild, update_self] at watches'
        exact quiet other wasStopping watches'
      · rw [update_of_ne isChild] at watches'
        exact unmoved object other wasStopping watches'
  constructor
  case known =>
    rw [history, nextObject]
    exact kept.known
  case settled =>
    rw [history]
    intro later isCurrent settled
    refine recorded later (kept.settled later (still later isCurrent) settled) fun other was same => ?_
    rw [(clears other was same).2] at isCurrent
    cases isCurrent
  case watching =>
    rw [phase]
    intro later watching
    refine recorded later (kept.watching later watching) fun other was same => ?_
    have held := inv.held
    rw [watching] at held
    have isCurrent := (clears other was same).1
    rw [held.2.2.1] at isCurrent
    cases isCurrent
    rw [held.2.2.2] at watches
    cases watches
  case unsettled =>
    rw [history, phase]
    exact kept.unsettled
  case restarts =>
    rw [sameConfig]
    intro waiting mem
    rcases restarts waiting mem with prev | isConfig
    · exact kept.restarts waiting prev
    · exact isConfig
  case auto =>
    rw [holder, sameConfig]
    exact kept.auto
  case last =>
    rw [phase, history, sameConfig]
    exact kept.last
  case spawnedLast =>
    rw [holder, history]
    exact kept.spawnedLast
  case installed =>
    rw [holder, sameConfig]
    exact kept.installed
  case faithful =>
    rw [history]
    exact kept.faithful

/-- **A step of a monitor.** -/
theorem Faithful.monitorStep (kept : Faithful s) (inv : Supervised s) {stage : ReapStage} (watches : s.monitors object = some (child, stage))
    (taken : s.monitorStep restarts child ok stage = some next) : Faithful next := by
  have stays : ∀ waiting ∈ s.restarts, waiting ∈ s.restarts ∨ s.config = some waiting :=
    fun _ mem => .inl mem
  cases stage with
  | waiting =>
    obtain ⟨-, ⟨⟩⟩ := Option.ite_none_left_eq_some.mp taken
    exact kept.of_monitor inv watches ⟨rfl, rfl, rfl, rfl⟩ rfl stays (fun _ same => same) (.inl rfl)
      fun _ _ => nofun
  | reaping =>
    cases taken
    unfold reap
    split
    all_goals
      exact kept.of_monitor inv watches ⟨rfl, rfl, rfl, rfl⟩ rfl stays (fun _ same => same) (.inl rfl)
        fun _ _ => nofun
  | accounting wasStopping =>
    simp only [Daemon.monitorStep] at taken
    split at taken
    · cases taken
      exact kept.of_monitor inv watches ⟨rfl, rfl, rfl, rfl⟩ rfl stays (fun _ same => same) (.inl rfl)
        fun _ _ => nofun
    · split at taken
      all_goals
        cases taken
        exact kept.of_monitor inv watches ⟨rfl, rfl, rfl, rfl⟩ rfl stays (fun _ same => same)
          (.inl rfl) fun _ _ => nofun
  | outboxFailed wasStopping =>
    cases taken
    exact kept.of_monitor inv watches ⟨rfl, rfl, rfl, rfl⟩ rfl stays (fun _ same => same) (.inl rfl)
      fun _ _ => nofun
  | forgetting wasStopping =>
    cases taken
    unfold forget
    split
    · next isChild =>
      exact kept.of_monitor inv watches ⟨rfl, rfl, rfl, rfl⟩ rfl stays nofun
        (.inl rfl) fun _ _ _ => ⟨isChild, rfl⟩
    · exact kept.of_monitor inv watches ⟨rfl, rfl, rfl, rfl⟩ rfl stays (fun _ same => same) (.inl rfl)
        fun _ _ => nofun
  | clearing wasStopping =>
    cases taken
    exact kept.of_monitor inv watches ⟨rfl, rfl, rfl, rfl⟩ rfl stays (fun _ same => same)
      (.inr ⟨_, rfl⟩) fun _ _ => nofun
  | signalling wasStopping isCurrent | deciding wasStopping =>
    simp only [Daemon.monitorStep] at taken
    split at taken
    all_goals
      cases taken
      exact kept.of_monitor inv watches ⟨rfl, rfl, rfl, rfl⟩ rfl stays (fun _ same => same) (.inl rfl)
        fun _ _ => nofun
  | restarting =>
    cases taken
    refine kept.of_monitor inv watches ⟨rfl, rfl, rfl, rfl⟩ rfl (fun waiting mem => ?_)
      (fun _ same => same) (.inl rfl) fun _ _ => nofun
    rcases mem_append.mp mem with prev | last
    · exact .inl prev
    · exact .inr (mem_toList.mp last)

/-! ### Careful runs -/

/-- A step that meets the condition: no start saves its record while a monitor that has forgotten its
child is about to remove the state file, and no explicit start installs its child while a restart of
another configuration waits for the lifecycle lock. -/
def Careful (s : Daemon) : Event → Prop
  | .proceed _ =>
      match s.holder with
      | some (_, .saving _) =>
          ∀ object child wasStopping, s.monitors object ≠ some (child, .clearing wasStopping)
      | some (call, .spawned _) =>
          ∀ cfg, call.starts = some (cfg, false) → ∀ waiting ∈ s.restarts, waiting = cfg
      | _ => True
  | _ => True

/-- **A careful step of a start.** -/
theorem Faithful.startStep (kept : Faithful s) (inv : Supervised s)
    (holds : s.holder = some (call, stage)) (starts : call.starts = some (cfg, auto))
    (careful : Careful s (.proceed ok))
    (taken : s.startStep call cfg auto ok stage = some next) : Faithful next := by
  have phase := phase_of_holder holds
  have quiet : ∀ {next : Daemon}, (∀ child, stage.phase ≠ .spawned child) → QuietStep s next →
      Faithful next := fun other step =>
    kept.of_quietStep step fun child spawned => other child (phase.symm.trans spawned)
  simp only [Careful, holds] at careful
  cases stage with
  | admission =>
    cases taken
    exact quiet (fun _ => nofun) (quiet_admission holds rfl)
  | admissionLoop =>
    have held := inv.held
    rw [phase] at held
    exact held.elim
  | spawning =>
    cases ok with
    | true => cases taken
    | false =>
      cases taken
      exact quiet (fun _ => nofun) (quiet_goto _ holds rfl)
  | spawnFailed =>
    cases taken
    exact quiet (fun _ => nofun)
      { quiet_finish .raised (s := s) (fun _ => nofun) with }
  | spawned child =>
    cases taken
    refine kept.install holds starts fun isFalse => ?_
    subst isFalse
    exact careful cfg starts
  | saving child =>
    cases ok with
    | true =>
      cases taken
      obtain ⟨other, _, isStart, isConfig⟩ := kept.installed call child holds
      rw [starts] at isStart
      obtain ⟨rfl, -⟩ := Prod.mk.inj (some.inj isStart)
      exact kept.save inv holds isConfig careful
    | false =>
      cases taken
      exact quiet (fun _ => nofun) (quiet_finish _ fun _ => nofun)
  | watching child =>
    cases ok with
    | true =>
      cases taken
      exact kept.watch inv holds
    | false =>
      cases taken
      exact quiet (fun _ => nofun) (quiet_finish _ fun _ => nofun)
  | latching | halting | preparing | signalling | waiting | killing | failing | reopening =>
    cases taken

theorem entry_calm (call : LifecycleCall) : call.entry.phase = .idle := by
  cases call with
  | start | stop | shutdown | «switch» => rfl

theorem Faithful.enter (kept : Faithful s) (call : LifecycleCall) (free : s.holder = none)
    (left : List ServeConfig) (fewer : ∀ waiting ∈ left, waiting ∈ s.restarts)
    (auto : ∀ cfg, call = .start cfg true → s.config = some cfg) :
    Faithful ({ s with restarts := left }.goto call call.entry) := by
  have idle : s.phase = .idle := by
    unfold Daemon.phase
    rw [free]
  have calm : ({ s with restarts := left }.goto call call.entry).phase = .idle := entry_calm call
  constructor
  case known => exact kept.known
  case settled => exact kept.settled
  case watching =>
    rw [calm]
    exact nofun
  case unsettled =>
    rw [calm]
    rintro child (phase | phase | phase)
    all_goals cases phase
  case restarts => exact fun waiting member => kept.restarts waiting (fewer waiting member)
  case auto =>
    intro cfg stage same
    exact auto cfg (congrArg Prod.fst (some.inj same))
  case last =>
    intro _
    exact kept.last fun child spawned => by
      rw [idle] at spawned
      cases spawned
  case spawnedLast | installed =>
    intro other child same
    have phase := phase_of_holder same
    rw [calm] at phase
    cases phase
  case faithful => exact kept.faithful

/-- **A careful step of the daemon.** -/
theorem Faithful.step (kept : Faithful s) (inv : Supervised s)
    (careful : Careful s event) (taken : s.step restarts event = some next) : Faithful next := by
  cases event with
  | call call =>
    obtain ⟨enabled, ⟨⟩⟩ := Option.ite_none_right_eq_some.mp taken
    refine kept.enter call enabled.1 s.restarts (fun _ mem => mem) fun cfg same => ?_
    rw [same] at enabled
    exact absurd enabled.2 Bool.false_ne_true
  | restart cfg =>
    obtain ⟨enabled, ⟨⟩⟩ := Option.ite_none_right_eq_some.mp taken
    refine kept.enter (.start cfg true) enabled.1 _
      (fun _ mem => mem_of_mem_erase mem) fun other same => ?_
    obtain ⟨rfl, -⟩ := LifecycleCall.start.inj same
    exact kept.restarts _ enabled.2
  | proceed ok =>
    have stops : ∀ {call : LifecycleCall} {stage : CallStage}, s.holder = some (call, stage) →
        s.stopStep call ok stage = some next → Faithful next := by
      intro call stage holds stops
      refine kept.of_quietStep (quiet_stopStep holds stops) fun child spawned => ?_
      rw [phase_of_holder holds] at spawned
      cases stage with
      | spawned => cases stops
      | _ => cases spawned
    simp only [Daemon.step, lifecycleStep] at taken
    split at taken
    · cases taken
    · next call stage holds =>
      split at taken
      · exact kept.startStep inv holds rfl careful taken
      · exact stops holds taken
      · exact stops holds taken
      · split at taken
        · next stopped =>
          cases taken
          exact stops holds stopped
        · exact kept.startStep inv holds rfl careful taken
  | spawn pid starttime logPath =>
    simp only [Daemon.step] at taken
    split at taken
    · next call holds =>
      obtain ⟨⟨cfg, auto⟩, starts, rfl⟩ := map_eq_some_iff.mp taken
      exact kept.spawnReturns inv holds starts _ _ _
    · cases taken
  | exit object =>
    obtain ⟨-, ⟨⟩⟩ := Option.ite_none_right_eq_some.mp taken
    exact { kept with }
  | monitor object ok =>
    simp only [Daemon.step] at taken
    split at taken
    · next child stage watches => exact kept.monitorStep inv watches taken
    · cases taken

end Careful

/-! ### Runs -/

structure Sound (s : Daemon) : Prop where
  /-- At most one process that the daemon spawned or adopted runs. -/
  single : ∀ first ∈ s.alive, ∀ second ∈ s.alive, first = second
  /-- The state file holds the record of the current child once its start has returned. -/
  kept : ∀ child, s.child = some child → Settled s.history child →
    ∃ cfg, s.config = some cfg ∧ s.store = some (child.record cfg)
  /-- Nothing is spawned after a stop without a start, nor at all after a shutdown. -/
  quiet : NoLateSpawn s.history
  /-- A restart runs what was started explicitly last. -/
  faithful : RestartsLast s.history

section Runs

variable {s : Daemon} {restarts : Bool} {events : List Event}
  {previous : Option (Nat × Option Nat × Option String × ServeConfig)}

theorem adopted_watched {pid : Nat} {starttime : Option Nat} {logPath : Option String}
    {cfg : ServeConfig} {child : Child} {stage : ReapStage}
    (watches : (boot (some (pid, starttime, logPath, cfg))).monitors object = some (child, stage)) :
    object = 0 ∧ child = ⟨0, pid, starttime, logPath⟩ ∧ stage = .waiting := by
  simp only [boot] at watches
  by_cases isAdopted : object = 0
  · rw [isAdopted, update_self] at watches
    obtain ⟨rfl, rfl⟩ := Prod.mk.inj (some.inj watches)
    exact ⟨isAdopted, rfl, rfl⟩
  · rw [update_of_ne isAdopted] at watches
    cases watches

theorem supervised_boot : Supervised (boot previous) := by
  cases previous with
  | none =>
    constructor
    case held => exact ⟨rfl, rfl⟩
    case quiet =>
      intro pre mid after call already child cfg auto split
      have empty := congrArg length split
      simp [boot] at empty
    case latched =>
      rintro ⟨pre, mid, call, already, split, -⟩
      have empty := congrArg length split
      simp [boot] at empty
    case shut =>
      rintro ⟨already, mem⟩
      cases mem
    all_goals nofun
  | some adopted =>
    obtain ⟨pid, starttime, logPath, cfg⟩ := adopted
    constructor
    case fresh =>
      intro object runs
      rw [mem_singleton.mp runs]
      exact Nat.zero_lt_one
    case running =>
      intro object runs
      exact ⟨_, .inl rfl, (mem_singleton.mp runs).symm⟩
    case current =>
      rintro child ⟨⟩
      exact Nat.zero_lt_one
    case held => exact ⟨rfl, rfl⟩
    case watched =>
      intro object child stage watches
      obtain ⟨rfl, rfl, rfl⟩ := adopted_watched watches
      refine ⟨rfl, Nat.zero_lt_one, fun late => absurd rfl late, fun other same _ => ?_⟩
      exact ⟨(some.inj same).symm, rfl⟩
    case quiet =>
      have isNil : NoLateSpawn [] := fun _ _ _ _ _ _ _ _ split => by
        cases append_eq_nil_iff.mp split.symm with | intro _ absurd => cases absurd
      exact @NoLateSpawn.snoc _ (.adopted _ cfg) isNil fun _ _ _ => nofun
    case latched =>
      rintro ⟨pre, mid, call, already, split, -⟩
      have mem : .returned call (.stopped already) ∈ (boot _).history :=
        split ▸ mem_append_right pre mem_cons_self
      cases mem_singleton.mp mem
    case shut =>
      rintro ⟨already, mem⟩
      cases mem_singleton.mp mem
    all_goals nofun

theorem faithful_boot : Faithful (boot previous) := by
  cases previous with
  | none =>
    have unsettled : ∀ child, ¬Settled (boot none).history child := by
      rintro child (⟨_, mem⟩ | ⟨_, mem⟩)
      · cases mem
      · cases mem
    constructor
    case known => exact fun child settled => absurd settled (unsettled child)
    case unsettled => exact fun child _ => unsettled child
    case last => exact fun _ => rfl
    case faithful =>
      intro pre after child cfg split
      cases append_eq_nil_iff.mp split.symm with | intro _ absurd => cases absurd
    all_goals nofun
  | some adopted =>
    obtain ⟨pid, starttime, logPath, cfg⟩ := adopted
    constructor
    case known =>
      rintro child (⟨_, mem⟩ | ⟨_, mem⟩)
      · cases mem_singleton.mp mem
      · obtain ⟨rfl, -⟩ := Moment.adopted.inj (mem_singleton.mp mem)
        exact Nat.zero_lt_one
    case settled =>
      rintro child ⟨⟩ -
      refine ⟨⟨cfg, rfl, rfl⟩, fun object other wasStopping watches => ?_⟩
      cases (adopted_watched watches).2.2
    case unsettled =>
      rintro child (phase | phase | phase)
      all_goals cases phase
    case last => exact fun _ => rfl
    case faithful =>
      have isNil : RestartsLast [] := fun _ _ _ _ split => by
        cases append_eq_nil_iff.mp split.symm with | intro _ absurd => cases absurd
      exact @RestartsLast.snoc _ (.adopted _ cfg) isNil fun _ _ => nofun
    all_goals nofun

theorem Supervised.single (inv : Supervised s) {first second : Nat} (runs : first ∈ s.alive)
    (runs' : second ∈ s.alive) : first = second := by
  have held := inv.held
  obtain ⟨child, place, rfl⟩ := inv.running first runs
  obtain ⟨child', place', rfl⟩ := inv.running second runs'
  have apart : ∀ spawned current, s.phase = .spawned spawned → s.child ≠ some current := by
    intro spawned current phase isCurrent
    rw [phase] at held
    rw [held.2.1] at isCurrent
    cases isCurrent
  rcases place with isCurrent | isSpawned
  · rcases place' with isCurrent' | isSpawned'
    · rw [isCurrent] at isCurrent'
      rw [some.inj isCurrent']
    · exact absurd isCurrent (apart child' child isSpawned')
  · rcases place' with isCurrent' | isSpawned'
    · exact absurd isCurrent' (apart child child' isSpawned)
    · rw [isSpawned] at isSpawned'
      rw [CallPhase.spawned.inj isSpawned']

theorem run_snoc : run restarts (boot previous) (events ++ [event]) =
      (run restarts (boot previous) events).bind (step restarts · event) := by
  unfold run
  rw [foldlM_append]
  cases foldlM (step restarts) (boot previous) events with
  | none => rfl
  | some mid => exact bind_pure (step restarts mid event)

theorem supervised_run (taken : run restarts (boot previous) events = some s) : Supervised s := by
  induction events using reverseRecOn generalizing s with
  | nil =>
    cases taken
    exact supervised_boot
  | append_singleton events event ih =>
    rw [run_snoc] at taken
    obtain ⟨mid, prev, last⟩ := bind_eq_some_iff.mp taken
    exact (ih prev).step last

theorem faithful_run (taken : run restarts (boot previous) events = some s)
    (careful : ∀ pre event mid, pre ++ [event] <+: events →
      run restarts (boot previous) pre = some mid → Careful mid event) : Faithful s := by
  induction events using reverseRecOn generalizing s with
  | nil =>
    cases taken
    exact faithful_boot
  | append_singleton events event ih =>
    rw [run_snoc] at taken
    obtain ⟨mid, prev, last⟩ := bind_eq_some_iff.mp taken
    have kept := ih prev fun pre event mid isFront =>
      careful pre event mid (isFront.trans (prefix_append _ _))
    exact kept.step (supervised_run prev) (careful events event mid prefix_rfl prev) last

/-- **The supervisor.** In every run one process runs at a time and nothing is spawned after a stop;
in a run whose steps are careful the state file also holds the record of the current child, and an
auto-restart runs what was started last. -/
theorem supervision (taken : run restarts (boot previous) events = some s) :
    (∀ first ∈ s.alive, ∀ second ∈ s.alive, first = second) ∧ NoLateSpawn s.history ∧
      ((∀ pre event mid, pre ++ [event] <+: events →
        run restarts (boot previous) pre = some mid → Careful mid event) → Sound s) := by
  have inv := supervised_run taken
  have single : ∀ first ∈ s.alive, ∀ second ∈ s.alive, first = second :=
    fun first runs second runs' => inv.single runs runs'
  refine ⟨single, inv.quiet, fun careful => ?_⟩
  have kept := faithful_run taken careful
  exact {
    single := single
    kept := fun child isCurrent settled => (kept.settled child isCurrent settled).1
    quiet := inv.quiet
    faithful := kept.faithful }

theorem careful_cons (first : Careful s event)
    (rest : ∀ next, s.step restarts event = some next → ∀ pre later mid,
      pre ++ [later] <+: events → run restarts next pre = some mid → Careful mid later) :
    ∀ pre later mid, pre ++ [later] <+: event :: events →
      run restarts s pre = some mid → Careful mid later := by
  intro pre later mid isFront taken
  cases pre with
  | nil =>
    obtain ⟨rfl, -⟩ := cons_prefix_cons.mp isFront
    cases taken
    exact first
  | cons head pre =>
    obtain ⟨rfl, after⟩ := cons_prefix_cons.mp isFront
    obtain ⟨next, step, taken⟩ := bind_eq_some_iff.mp taken
    exact rest next step pre later mid after taken

end Runs

/-! ### Runs that are careful, and runs that are not -/

/-- A start up to its return, where the process gets `pid`. -/
def Event.started (cfg : ServeConfig) (pid : Nat) : List Event :=
  [.call (.start cfg false), .proceed true, .spawn pid none none, .proceed true, .proceed true,
    .proceed true]

/-- A start that nothing comes in between. -/
theorem supervision_started : ∃ s, run true (boot none) (Event.started ⟨"a", 1, []⟩ 10) = some s ∧
    s.child = some ⟨0, 10, none, none⟩ ∧ Sound s := by
  refine ⟨_, rfl, rfl, (@supervision _ true (Event.started ⟨"a", 1, []⟩ 10) none rfl).2.2 ?_⟩
  refine careful_cons trivial fun next step => ?_
  cases step
  refine careful_cons trivial fun next step => ?_
  cases step
  refine careful_cons trivial fun next step => ?_
  cases step
  refine careful_cons (fun _ _ _ => nofun) fun next step => ?_
  cases step
  refine careful_cons (fun _ _ _ => nofun) fun next step => ?_
  cases step
  refine careful_cons trivial fun next step => ?_
  intro pre later mid isFront
  cases append_eq_nil_iff.mp (prefix_nil.mp isFront) with | intro _ absurd => cases absurd

/-- The monitor of a serve that exited has forgotten it and is about to remove the state file when
another serve is started: the removal takes the record of the new one. -/
def recordLost : List Event :=
  Event.started ⟨"a", 1, []⟩ 10 ++ .exit 0 :: List.replicate 4 (.monitor 0 true) ++
    Event.started ⟨"b", 1, []⟩ 11 ++ [.monitor 0 true]

/-- The restart of a serve that crashed waits for the lifecycle lock while another serve is started,
which crashes in turn: the restart then starts the earlier one. -/
def restartStale : List Event :=
  Event.started ⟨"a", 1, []⟩ 10 ++ .exit 0 :: List.replicate 8 (.monitor 0 true) ++
    Event.started ⟨"b", 1, []⟩ 11 ++ .exit 1 :: List.replicate 6 (.monitor 1 true) ++
    [.restart ⟨"a", 1, []⟩, .proceed true, .spawn 12 none none]

/-- **Careless runs.** -/
theorem supervision_careless :
    (∃ s, run true (boot none) recordLost = some s ∧ s.child = some ⟨1, 11, none, none⟩ ∧
      Settled s.history ⟨1, 11, none, none⟩ ∧ s.store = none) ∧
    ∃ s, run true (boot none) restartStale = some s ∧ ¬RestartsLast s.history := by
  constructor
  · refine ⟨_, rfl, rfl, .inl ⟨.start ⟨"b", 1, []⟩ false, ?_⟩, rfl⟩
    decide
  · refine ⟨_, rfl, fun faithful => ?_⟩
    have last := faithful [.startMade ⟨"a", 1, []⟩, .spawned ⟨0, 10, none, none⟩ ⟨"a", 1, []⟩ false,
      .returned (.start ⟨"a", 1, []⟩ false) (.started ⟨0, 10, none, none⟩),
      .startMade ⟨"b", 1, []⟩, .spawned ⟨1, 11, none, none⟩ ⟨"b", 1, []⟩ false,
      .returned (.start ⟨"b", 1, []⟩ false) (.started ⟨1, 11, none, none⟩)] []
      ⟨2, 12, none, none⟩ ⟨"a", 1, []⟩ rfl
    revert last
    decide


end Daemon

end FreeToken
