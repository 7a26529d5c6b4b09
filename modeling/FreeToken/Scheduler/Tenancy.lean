/-
**Who holds what: the rule for what the managers keep over a run.**

A request that has a row of the page table holds resources of the managers. A run of the scheduler
is, for the managers, a sequence of a few kinds of calls for such requests.
-/

import FreeToken.Lib.Outcome
import FreeToken.Scheduler.ControlRun

namespace FreeToken

inductive Stage where
  | resting | allocated | restored | fed
  deriving DecidableEq

/-- A request with how far a launch has come with it. -/
abbrev Tenant := Stage × Req

/-- An assertion about the managers and the requests that hold resources, inside a drain or not. -/
abbrev Holding := Bool → CacheManager → TableManager → List Tenant → Prop

namespace Scheduler

/-- What the addition of a request or of a chunk leaves: its request holds resources, or what held
them before still does. -/
def Placed (I : Holding) (was ts : List Tenant) (res : PrefillAdder × Option Req) : Prop :=
  match res.2 with
  | some req => I false res.1.cacheManager res.1.tableManager ((.resting, req) :: ts)
  | none => I false res.1.cacheManager res.1.tableManager (was ++ ts)

/-- **The obligations on an assertion and on the errors.** An unfinished commit is made under the
condition `C`. -/
structure Keeps (cfg : SchedulerConfig) (C : CacheManager → Req → Prop) (I : Holding)
    (E : Err → Prop) : Prop where
  perm : ∀ {draining cm tm first second}, first.Perm second → I draining cm tm first →
    I draining cm tm second
  admission : ∀ {adder : PrefillAdder} {ts pending}, pending.chunkedReq = none →
    I false adder.cacheManager adder.tableManager ts →
    Outcome (adder.tryAddOne pending none) (Placed I [] ts) E
  extend : ∀ {adder : PrefillAdder} {ts pending chunk}, ContinuationOf pending chunk →
    I false adder.cacheManager adder.tableManager ((.resting, chunk) :: ts) →
    Outcome (adder.tryAddOne pending (some chunk)) (Placed I [(.resting, chunk)] ts) E
  slideExtend : ∀ {cm tm req ts}, I false cm tm ((.resting, req) :: ts) →
    I false (cm.freeSwaOfExtend req).1 tm ((.resting, (cm.freeSwaOfExtend req).2) :: ts)
  slideDecode : ∀ {cm tm req ts}, req.deviceLen = req.cachedLen + 1 →
    I false cm tm ((.resting, req) :: ts) →
    I false (cm.freeSwaOfDecode req).1 tm ((.resting, (cm.freeSwaOfDecode req).2) :: ts)
  count : ∀ {cm tm req ts}, I false cm tm ((.resting, req) :: ts) →
    I false cm tm ((.resting, { req with decodeBatchIdx := req.decodeBatchIdx + 1 }) :: ts)
  allocate : ∀ {cm tm reqs ts}, (∀ req ∈ reqs, req.cachedLen < req.deviceLen) →
    I false cm tm (reqs.map (Prod.mk .resting) ++ ts) →
    Outcome (cm.allocatePaged reqs)
      (fun next => I false next tm (reqs.map (Prod.mk .allocated) ++ ts)) E
  restore : ∀ {cm tm req ts}, I false cm tm ((.allocated, req) :: ts) →
    I false (restoreLinearState cm req).1 tm ((.restored, (restoreLinearState cm req).2) :: ts)
  freeze : ∀ {cm tm req ts}, I false cm tm ((.allocated, req) :: ts) →
    I false (cm.snapshotAnchor req).1 tm ((.restored, (cm.snapshotAnchor req).2) :: ts)
  pass : ∀ {cm tm req ts}, I false cm tm ((.allocated, req) :: ts) →
    I false cm tm ((.restored, req) :: ts)
  feed : ∀ {cm tm req ts} (isPrefill : Bool),
    (isPrefill = false → req.deviceLen = req.cachedLen + 1) →
    I false cm tm ((.restored, req) :: ts) →
    I false (forwardState isPrefill tm cm req).1 tm
      ((.fed, (forwardState isPrefill tm cm req).2) :: ts)
  sample : ∀ {cm tm req ts} (token : Token), I false cm tm ((.fed, req) :: ts) →
    I false cm (tm.writeTokens (req.tableIdx.getD 0) req.deviceLen [token]) ((.fed, req) :: ts)
  complete : ∀ {cm tm req ts}, I false cm tm ((.fed, req) :: ts) →
    I false cm tm ((.resting, req.completeOne) :: ts)
  openRegion : ∀ {cm tm ts}, I false cm tm ts → I true cm.openLazyFreeRegion tm ts
  closeRegion : ∀ {cm tm ts}, I true cm tm ts → I false cm.closeLazyFreeRegion tm ts
  append : ∀ {cm tm req ts} (token : Token) (finished : Bool), req.chunked = false →
    I true cm tm ((.resting, req) :: ts) →
    Outcome (req.appendHost token)
      (fun given => I true cm tm ((.resting, noteAnchor cfg given token finished) :: ts)) E
  commit : ∀ {cm tm req ts}, req.chunked = false → req.cachedLen ≤ req.inputIds.length →
    C cm req → I true cm tm ((.resting, req) :: ts) →
    Outcome (cm.cacheReq req false)
      (fun res => I true res.1 tm ((.resting, res.2) :: ts)) E
  finish : ∀ {draining cm tm req ts tableIdx}, req.tableIdx = some tableIdx →
    req.cachedLen ≤ req.inputIds.length → I draining cm tm ((.resting, req) :: ts) →
    Outcome (cm.cacheReq req true) (fun res => I draining res.1 (tm.free tableIdx) ts) E
  mark : ∀ {cm tm req ts}, I false cm tm ((.resting, req) :: ts) →
    I false cm tm ((.resting, { req with aborted := true }) :: ts)

/-! ### The requests that hold resources -/

/-- A request holds resources while it has a row, unless it is a chunk whose resources went on to
the next one. -/
def Houses (s : Scheduler) (name : Nat) : Prop :=
  name < s.nextReq ∧ (s.reqs name).tableIdx.isSome ∧
    ((s.reqs name).chunked = false ∨ (s.reqs name).aborted = true ∨
      ∃ pending ∈ s.pendingList, pending.chunkedReq = some name)

def atRest (reqs : Nat → Req) (names : List Nat) : List Tenant :=
  names.map fun name => (.resting, reqs name)

/-- The assertion about the requests that hold resources and one that was taken off the lists. -/
def HousedWith (I : Holding) (extra : Option Nat) (s : Scheduler) : Prop :=
  ∃ names : List Nat, names.Nodup ∧ (∀ name, name ∈ names ↔ s.Houses name ∨ extra = some name) ∧
    I s.todo.isSome s.cacheManager s.tableManager (atRest s.reqs names)

abbrev Housed (I : Holding) (s : Scheduler) : Prop := HousedWith I none s

/-- The request that the next step of the drain commits. -/
def committing (cfg : SchedulerConfig) (s : Scheduler) : Option Req :=
  match s.todo, s.lastData with
  | some (name :: _), some data =>
      let req := s.reqs name
      if req.chunked ∨ req.aborted ∨ name ∈ s.finishedReqs ∨ data.batch.isPrefill = false then none
      else
        let given := { req with inputIds := req.inputIds ++ [data.nextTokens name] }
        let v := verdict cfg given (data.nextTokens name)
        if v.finished ∨ req.tableIdx = none then none
        else some (noteAnchor cfg given (data.nextTokens name) v.finished)
  | _, _ => none

variable {cfg : SchedulerConfig} {C : CacheManager → Req → Prop} {I : Holding} {E : Err → Prop}
  {s next : Scheduler}

@[simp] theorem atRest_cons (reqs : Nat → Req) (name : Nat) (names : List Nat) :
    atRest reqs (name :: names) = (.resting, reqs name) :: atRest reqs names := rfl

theorem atRest_congr {first second : Nat → Req} {names : List Nat}
    (same : ∀ name ∈ names, first name = second name) :
    atRest first names = atRest second names :=
  List.map_congr_left fun name mem => by rw [same name mem]

theorem atRest_perm {reqs : Nat → Req} {first second : List Nat} (perm : first.Perm second) :
    (atRest reqs first).Perm (atRest reqs second) := perm.map _

theorem HousedWith.split (keeps : Keeps cfg C I E) {extra : Option Nat}
    (housed : HousedWith I extra s) {name : Nat} (here : s.Houses name ∨ extra = some name) :
    ∃ others : List Nat, (name :: others).Nodup ∧
      (∀ other, other ∈ others ↔ (s.Houses other ∨ extra = some other) ∧ other ≠ name) ∧
      I s.todo.isSome s.cacheManager s.tableManager
        ((.resting, s.reqs name) :: atRest s.reqs others) := by
  obtain ⟨names, nodup, who, holds⟩ := housed
  have mem := (who name).mpr here
  have perm := List.perm_cons_erase mem
  have apart : (name :: names.erase name).Nodup := perm.nodup_iff.mp nodup
  refine ⟨names.erase name, apart, fun other => ?_, keeps.perm (atRest_perm perm) holds⟩
  rw [nodup.mem_erase_iff, who other]
  exact ⟨fun ⟨ne, is⟩ => ⟨is, ne⟩, fun ⟨is, ne⟩ => ⟨ne, is⟩⟩

theorem HousedWith.of_same {extra last : Option Nat} (housed : HousedWith I extra s)
    (todo : next.todo.isSome = s.todo.isSome) (cm : next.cacheManager = s.cacheManager)
    (tm : next.tableManager = s.tableManager)
    (reqs : ∀ name, s.Houses name ∨ extra = some name → next.reqs name = s.reqs name)
    (who : ∀ name, next.Houses name ∨ last = some name ↔ s.Houses name ∨ extra = some name) :
    HousedWith I last next := by
  obtain ⟨names, nodup, held, holds⟩ := housed
  refine ⟨names, nodup, fun name => (held name).trans (who name).symm, ?_⟩
  rw [todo, cm, tm, atRest_congr fun name mem => reqs name ((held name).mp mem)]
  exact holds

theorem Houses.congr {name : Nat} (reqs : next.reqs name = s.reqs name)
    (nextReq : next.nextReq = s.nextReq)
    (pending : (∃ pending ∈ next.pendingList, pending.chunkedReq = some name) ↔
      ∃ pending ∈ s.pendingList, pending.chunkedReq = some name) : next.Houses name ↔ s.Houses name := by
  unfold Houses
  rw [reqs, nextReq, pending]

theorem HousedWith.of_frame {extra : Option Nat} (housed : HousedWith I extra s)
    (todo : next.todo.isSome = s.todo.isSome) (cm : next.cacheManager = s.cacheManager)
    (tm : next.tableManager = s.tableManager) (reqs : next.reqs = s.reqs)
    (nextReq : next.nextReq = s.nextReq) (pending : next.pendingList = s.pendingList) :
    HousedWith I extra next :=
  housed.of_same todo cm tm (fun name _ => congrFun reqs name) fun name =>
    or_congr (Houses.congr (congrFun reqs name) nextReq (by rw [pending])) Iff.rfl

theorem HousedWith.extra (housed : Housed I s) {name : Nat} (held : s.Houses name) :
    HousedWith I (some name) s := by
  refine housed.of_same rfl rfl rfl (fun _ _ => rfl) fun other => ?_
  constructor
  · rintro (is | same)
    · exact .inl is
    · exact .inl (Option.some.inj same ▸ held)
  · rintro (is | absurd)
    · exact .inl is
    · cases absurd

end Scheduler

end FreeToken
