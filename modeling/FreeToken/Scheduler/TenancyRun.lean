/-
**The rule over a run.**
-/

import FreeToken.Scheduler.Tenancy

namespace FreeToken

open List Function

variable {name : Nat} {taken rest : List PendingReq} {others : List Nat} {cm : CacheManager}

namespace Scheduler

variable {cfg : SchedulerConfig} {C : CacheManager → Req → Prop} {I : Holding} {E : Err → Prop}
  {s next : Scheduler}

/-! ### Requests that end -/

theorem freeReqResources_housed (keeps : Keeps cfg C I E)
    (housed : HousedWith I (some name) s) (seated : (s.reqs name).tableIdx.isSome)
    (covered : (s.reqs name).cachedLen ≤ (s.reqs name).inputIds.length) :
    Outcome (s.freeReqResources name) (Housed I) E := by
  obtain ⟨tableIdx, here⟩ := Option.isSome_iff_exists.mp seated
  obtain ⟨others, nodup, who, holds⟩ := housed.split keeps (.inr rfl)
  have apart := (nodup_cons.mp nodup).1
  unfold freeReqResources
  rw [here]
  refine (keeps.finish here covered holds).bind fun res kept => Outcome.pure ?_
  refine ⟨others, (nodup_cons.mp nodup).2, fun other => ?_, ?_⟩
  · rw [who other]
    unfold Houses
    dsimp only [setReq]
    by_cases same : other = name
    · subst same
      rw [update_self]
      simp
    · rw [update_of_ne same]
      constructor
      · rintro ⟨is | equal, -⟩
        · exact .inl is
        · exact absurd (Option.some.inj equal).symm same
      · rintro (is | absurd)
        · exact ⟨.inl is, same⟩
        · cases absurd
  · have same : atRest (update s.reqs name { res.2 with tableIdx := none }) others =
        atRest s.reqs others :=
      atRest_congr fun other mem => update_of_ne (ne_of_mem_of_not_mem mem apart) _ _
    change I _ _ _ (atRest (update s.reqs name _) others)
    rw [same]
    exact kept

theorem takeAborted_chunks (uid : Nat) (name : Nat) :
    (∃ pending ∈ s.pendingList, pending.chunkedReq = some name) →
      (∃ pending ∈ (s.takeAborted uid).1.pendingList, pending.chunkedReq = some name) ∨
        (s.takeAborted uid).2 = some name := by
  rintro ⟨pending, mem, chunk⟩
  have frame : ∀ list : List PendingReq, pending ∈ list → ∀ (dm : DecodeManager),
      ∃ other ∈ ({ s with pendingList := list, decodeManager := dm } : Scheduler).pendingList,
        other.chunkedReq = some name := fun list lt _ => ⟨pending, lt, chunk⟩
  unfold takeAborted
  rcases abortPending_spec uid s.pendingList with
    ⟨front, first, back, split, -, -, run⟩ | ⟨-, run⟩
  · rw [run]
    rw [split] at mem
    cases taken : first.chunkedReq with
    | none =>
      refine .inl ⟨pending, ?_, chunk⟩
      rcases mem_append.mp mem with lt | lt
      · exact mem_append_left _ lt
      · rcases mem_cons.mp lt with rfl | lt
        · rw [taken] at chunk
          cases chunk
        · exact mem_append_right _ lt
    | some other =>
      rcases mem_append.mp mem with lt | lt
      · exact .inl ⟨pending, mem_append_left _ lt, chunk⟩
      · rcases mem_cons.mp lt with rfl | lt
        · exact .inr (taken.symm.trans chunk)
        · exact .inl ⟨pending, mem_append_right _ lt, chunk⟩
  · rw [run]
    exact .inl ⟨pending, mem, chunk⟩

theorem freeAborted_housed (keeps : Keeps cfg C I E)
    (housed : HousedWith I (some name) s) (known : name < s.nextReq)
    (seated : (s.reqs name).tableIdx.isSome)
    (covered : (s.reqs name).cachedLen ≤ (s.reqs name).inputIds.length) (receiving : s.todo = none) :
    Outcome (s.freeAborted (some name)) (Housed I) E := by
  unfold freeAborted
  dsimp only
  split
  · obtain ⟨others, nodup, who, holds⟩ := housed.split keeps (.inr rfl)
    have apart := (nodup_cons.mp nodup).1
    refine Outcome.pure ⟨name :: others, nodup, fun other => ?_, ?_⟩
    · rw [mem_cons, who other]
      unfold Houses
      dsimp only [setReq]
      by_cases same : other = name
      · subst same
        rw [update_self]
        exact ⟨fun _ => .inl ⟨known, seated, .inr (.inl rfl)⟩, fun _ => .inl rfl⟩
      · rw [update_of_ne same]
        constructor
        · rintro (equal | ⟨is | equal, -⟩)
          · exact absurd equal same
          · exact .inl is
          · exact absurd (Option.some.inj equal).symm same
        · rintro (is | absurd)
          · exact .inr ⟨.inl is, same⟩
          · cases absurd
    · rw [receiving] at holds
      change I s.todo.isSome _ _ (atRest (update s.reqs name _) (name :: others))
      rw [receiving, atRest_cons, update_self, atRest_congr fun other mem =>
        update_of_ne (ne_of_mem_of_not_mem mem apart) _ _]
      exact keeps.mark holds
  · exact freeReqResources_housed keeps housed seated covered

theorem Control.covered (control : Control s) (known : name < s.nextReq)
    (seated : (s.reqs name).tableIdx.isSome)
    (given : (s.reqs name).chunked = false → (s.undelivered name).length ≤ 1) :
    (s.reqs name).cachedLen ≤ (s.reqs name).inputIds.length := by
  obtain ⟨device, ids⟩ := control.lengths name known seated (by simp)
  cases whole : (s.reqs name).chunked with
  | true =>
    rw [whole] at ids
    simp only [if_true] at ids
    omega
  | false =>
    rw [whole] at ids
    have := given whole
    simp only [Bool.false_eq_true, if_false] at ids
    omega

theorem undelivered_receiving (receiving : s.ongoing = none) (name : Nat) :
    (s.undelivered name).length ≤ 1 := by
  unfold undelivered inForward sampledIn
  rw [receiving]
  cases s.lastData with
  | none => split <;> simp
  | some data => split <;> simp

theorem processAbort_eq (s : Scheduler) (uid : Nat) : ∃ tombstones : List Nat, s.processAbort uid =
      ((({ s with abortTombstones := tombstones } : Scheduler).takeAborted uid).1.freeAborted
        (({ s with abortTombstones := tombstones } : Scheduler).takeAborted uid).2 >>= fun freed =>
          pure { freed with
            pendingAbortAcks := if uid ∈ freed.pendingAbortAcks then freed.pendingAbortAcks
              else freed.pendingAbortAcks ++ [uid] }) := by
  refine ⟨entomb s.abortTombstones uid, ?_⟩
  unfold processAbort
  generalize entomb s.abortTombstones uid = tombstones
  rfl

theorem processAbort_housed (keeps : Keeps cfg C I E) (control : Control s) (phase : Phase s)
    (housed : Housed I s) (receiving : s.todo = none) (uid : Nat) :
    Outcome (s.processAbort uid) (Housed I) E := by
  obtain ⟨tombstones, same⟩ := processAbort_eq s uid
  rw [same]
  let start : Scheduler := { s with abortTombstones := tombstones }
  have startControl : Control start :=
    control.of_cores rfl (fun _ _ => rfl) rfl rfl rfl rfl rfl rfl rfl
  have idle := (phase.receiving receiving).1
  have startHoused : Housed I start := housed.of_frame rfl rfl rfl rfl rfl rfl
  have chunks := @takeAborted_chunks start uid
  have took := takeAborted_spec startControl uid
  have coveredAt : ∀ name, name < start.nextReq → (start.reqs name).tableIdx.isSome →
      (start.reqs name).cachedLen ≤ (start.reqs name).inputIds.length :=
    fun name known seated => startControl.covered known seated
      fun _ => undelivered_receiving idle name
  have freed : Outcome ((start.takeAborted uid).1.freeAborted (start.takeAborted uid).2)
      (Housed I) E := by
    generalize (start.takeAborted uid).2 = found at chunks took
    generalize (start.takeAborted uid).1 = taken at chunks took
    have pendingOf : ∀ (list : List PendingReq), list.Sublist start.pendingList →
        taken.pendingList = list → ∀ other, found ≠ some other →
        ((∃ pending ∈ list, pending.chunkedReq = some other) ↔
          ∃ pending ∈ start.pendingList, pending.chunkedReq = some other) := by
      intro list sub same other differs
      constructor
      · rintro ⟨pending, mem, chunk⟩
        exact ⟨pending, sub.subset mem, chunk⟩
      · intro pre
        rcases chunks other pre with kept | absurd
        · rwa [same] at kept
        · exact (differs absurd).elim
    cases took with
    | none list sub gone notRunning =>
      refine Outcome.pure (startHoused.of_same rfl rfl rfl (fun _ _ => rfl) fun name => ?_)
      exact or_congr (Houses.congr rfl rfl (pendingOf list sub rfl name (by simp))) Iff.rfl
    | chunk list pending name sub mem same chunk gone alone =>
      obtain ⟨known, continuation⟩ := startControl.continuation pending mem name chunk
      have held : start.Houses name :=
        ⟨known, continuation.seated, .inr (.inr ⟨pending, mem, chunk⟩)⟩
      refine freeAborted_housed keeps ((startHoused.extra held).of_same rfl rfl rfl
        (fun _ _ => rfl) fun other => ?_) known continuation.seated
        (coveredAt name known continuation.seated) receiving
      by_cases equal : some name = some other
      · simp only [equal, or_true]
      · simp only [equal, or_false]
        exact Houses.congr rfl rfl (pendingOf list sub rfl other equal)
    | running list name sub gone mem same =>
      obtain ⟨known, decodes, live, seated⟩ := startControl.running name mem
      have whole := canDecode_not_chunked decodes
      have held : start.Houses name := ⟨known, seated, .inl whole⟩
      refine freeAborted_housed keeps ((startHoused.extra held).of_same rfl rfl rfl
        (fun _ _ => rfl) fun other => ?_) known seated (coveredAt name known seated) receiving
      by_cases equal : some name = some other
      · simp only [equal, or_true]
      · simp only [equal, or_false]
        exact Houses.congr rfl rfl (pendingOf list sub rfl other equal)
  refine freed.bind fun res kept => Outcome.pure ?_
  exact kept.of_frame rfl rfl rfl rfl rfl rfl

theorem processOneMsg_housed (keeps : Keeps cfg C I E) (control : Control s) (phase : Phase s)
    (housed : Housed I s) (receiving : s.todo = none) (msg : Msg) :
    Outcome (s.processOneMsg cfg msg) (Housed I) E := by
  cases msg with
  | user msg =>
    refine Outcome.pure ?_
    unfold processUser
    dsimp only
    split
    · exact housed.of_frame rfl rfl rfl rfl rfl rfl
    · split
      · exact housed.of_frame rfl rfl rfl rfl rfl rfl
      · refine housed.of_same rfl rfl rfl (fun _ _ => rfl) fun name => or_congr ?_ Iff.rfl
        exact Houses.congr rfl rfl (by simp)
  | abort uid => exact processAbort_housed keeps control phase housed receiving uid

/-! ### A pass -/

theorem run_outcome {J : Pass → List PendingReq → List PendingReq → Prop}
    (each : ∀ pass taken pending rest, J pass taken (pending :: rest) →
      Outcome (pass.adder.tryAddOne pending (pending.chunkedReq.map pass.reqs))
        (fun res => match res.2 with
          | some req => J (pass.add res.1 pending req) (taken ++ [pending]) rest
          | none => J { pass with adder := res.1 } taken (pending :: rest)) E) :
    ∀ (list taken : List PendingReq) (pass : Pass), J pass taken list → Outcome (pass.run list)
        (fun res => ∃ done rest, list = done ++ rest ∧ J res (taken ++ done) rest) E := by
  intro list
  induction list with
  | nil =>
    intro taken pass holds
    exact ⟨[], [], rfl, by rwa [append_nil]⟩
  | cons pending list ih =>
    intro taken pass holds
    refine (each pass taken pending list holds).bind fun res after => ?_
    obtain ⟨adder, req⟩ := res
    cases req with
    | none => exact Outcome.pure ⟨[], pending :: list, rfl, by rwa [append_nil]⟩
    | some req =>
      refine (ih _ _ after).imp fun last found => ?_
      obtain ⟨done, rest, rfl, final⟩ := found
      exact ⟨pending :: done, rest, rfl, by simpa using final⟩

/-- Inside a pass: the new requests hold resources, and of the old ones those that did, but for the
chunks that were continued. -/
def PassHoused (I : Holding) (s : Scheduler) (pass : Pass) (taken : List PendingReq) : Prop :=
  ∃ names : List Nat, names.Nodup ∧ (∀ name, name ∈ names ↔ name ∈ pass.batch ∨
      s.Houses name ∧ ∀ pending ∈ taken, pending.chunkedReq ≠ some name) ∧
    I false pass.adder.cacheManager pass.adder.tableManager (atRest pass.reqs names)

theorem tryAddOne_housed (keeps : Keeps cfg C I E) (control : Control s) {pass : Pass} {pending : PendingReq}
    (split : s.pendingList = taken ++ pending :: rest) (of : PassOf s.nextReq s.reqs taken pass)
    (housed : PassHoused I s pass taken) :
    Outcome (pass.adder.tryAddOne pending (pending.chunkedReq.map pass.reqs))
      (fun res => match res.2 with
        | some req => PassHoused I s (pass.add res.1 pending req) (taken ++ [pending])
        | none => PassHoused I s { pass with adder := res.1 } taken) E := by
  obtain ⟨names, nodup, who, holds⟩ := housed
  have inBatch : ∀ name ∈ pass.batch, s.nextReq ≤ name ∧ name < pass.nextReq := by
    intro name mem
    rw [of.batch, mem_range'_1] at mem
    rw [of.nextReq]
    exact mem
  have listed : pending ∈ s.pendingList := by
    rw [split]
    simp
  have below : ∀ name ∈ names, name < pass.nextReq := by
    intro name mem
    rcases (who name).mp mem with new | ⟨old, -⟩
    · exact (inBatch name new).2
    · exact old.1.trans_le (of.nextReq ▸ Nat.le_add_right _ _)
  have fresh : pass.nextReq ∉ names := fun mem => (below _ mem).false
  have added : ∀ (adder : PrefillAdder) (req : Req) (others : List Nat),
      (∀ name ∈ others, name ∈ names) →
      atRest (pass.add adder pending req).reqs (pass.nextReq :: others) =
        (.resting, req) :: atRest pass.reqs others := by
    intro adder req others sub
    rw [atRest_cons]
    refine congrArg₂ _ (congrArg _ (update_self ..)) (atRest_congr fun name mem => ?_)
    exact update_of_ne (below name (sub name mem)).ne _ _
  cases chunk : pending.chunkedReq with
  | none =>
    refine (keeps.admission chunk holds).imp fun res placed => ?_
    obtain ⟨adder, req⟩ := res
    cases req with
    | none => exact ⟨names, nodup, who, placed⟩
    | some req =>
      refine ⟨pass.nextReq :: names, nodup_cons.mpr ⟨fresh, nodup⟩, fun name => ?_, ?_⟩
      · rw [mem_cons, who name]
        simp only [Pass.add, mem_append, mem_singleton, or_imp, forall_and, forall_eq, chunk]
        simp only [ne_eq, reduceCtorEq, not_false_eq_true, and_true]
        tauto
      · rw [added adder req names fun _ same => same]
        exact placed
  | some old =>
    obtain ⟨known, continuation⟩ := control.continuation pending listed old chunk
    have same : pass.reqs old = s.reqs old := of.old old known
    have apart : ∀ other ∈ taken, other.chunkedReq ≠ some old := by
      intro other mem equal
      have distinctChunks := control.chunksDistinct
      rw [split, filterMap_append, filterMap_cons, chunk] at distinctChunks
      refine (nodup_append.mp distinctChunks).2.2 old
        (mem_filterMap.mpr ⟨other, mem, equal⟩) old mem_cons_self rfl
    have held : s.Houses old := ⟨known, continuation.seated, .inr (.inr ⟨pending, listed, chunk⟩)⟩
    have mem := (who old).mpr (.inr ⟨held, apart⟩)
    have perm := perm_cons_erase mem
    have split' := keeps.perm (atRest_perm perm) holds
    rw [atRest_cons] at split'
    rw [show (Option.some old).map pass.reqs = some (pass.reqs old) from rfl]
    refine (keeps.extend (same ▸ continuation) split').imp fun res placed => ?_
    obtain ⟨adder, req⟩ := res
    cases req with
    | none =>
      refine ⟨names, nodup, who, keeps.perm (atRest_perm perm.symm) ?_⟩
      exact placed
    | some req =>
      have notErased : pass.nextReq ∉ names.erase old := fun lt =>
        fresh (mem_of_mem_erase lt)
      refine ⟨pass.nextReq :: names.erase old,
        nodup_cons.mpr ⟨notErased, nodup.erase old⟩, fun name => ?_, ?_⟩
      · rw [mem_cons, nodup.mem_erase_iff, who name]
        simp only [Pass.add, mem_append, mem_singleton, or_imp, forall_and,
          forall_eq, chunk, Option.some.injEq, ne_eq]
        have oldNotNew : name ∈ pass.batch → name ≠ old := fun new equal => by
          have := (inBatch name new).1
          omega
        constructor
        · rintro (rfl | ⟨ne, new | ⟨is, others⟩⟩)
          · exact .inl (.inr rfl)
          · exact .inl (.inl new)
          · exact .inr ⟨is, others, fun equal => ne equal.symm⟩
        · rintro ((new | rfl) | ⟨is, others, ne⟩)
          · exact .inr ⟨oldNotNew new, .inl new⟩
          · exact .inl rfl
          · exact .inr ⟨fun equal => ne equal.symm, .inr ⟨is, others⟩⟩
      · rw [added adder req _ fun _ lt => mem_of_mem_erase lt]
        exact placed

theorem pass_housed (keeps : Keeps cfg C I E) (control : Control s) (housed : Housed I s)
    (receiving : s.todo = none) :
    Outcome ((startPass cfg s).run s.pendingList)
      (fun pass => ∃ taken rest, s.pendingList = taken ++ rest ∧
        PassOf s.nextReq s.reqs taken pass ∧ PassHoused I s pass taken) E := by
  have rule := run_outcome (E := E) (J := fun pass taken rest => s.pendingList = taken ++ rest ∧
    PassOf s.nextReq s.reqs taken pass ∧ PassHoused I s pass taken)
    (fun pass taken pending rest holds => ?_) s.pendingList [] (startPass cfg s) ⟨rfl, ?_, ?_⟩
  · refine rule.imp fun pass found => ?_
    obtain ⟨done, rest, split, -, of, last⟩ := found
    exact ⟨done, rest, split, of, last⟩
  · obtain ⟨split, of, lt⟩ := holds
    have listed : pending ∈ s.pendingList := by
      rw [split]
      simp
    have chunkSame : pending.chunkedReq.map pass.reqs = pending.chunkedReq.map s.reqs := by
      cases found : pending.chunkedReq with
      | none => rfl
      | some name =>
        exact congrArg some (of.old name (control.continuation pending listed name found).1)
    refine Outcome.of_eq (fun res tried => ?_) fun err failed =>
      (tryAddOne_housed keeps control split of lt).error failed
    have after := (tryAddOne_housed keeps control split of lt).ok tried
    obtain ⟨adder, req⟩ := res
    cases req with
    | none => exact ⟨split, of.stop adder, after⟩
    | some req =>
      have launched := PrefillAdder.tryAddOne_launched tried
      rw [chunkSame] at launched
      exact ⟨by rw [split, append_assoc, singleton_append], of.add launched, after⟩
  · exact PassOf.start rfl rfl rfl rfl rfl
  · obtain ⟨names, nodup, who, holds⟩ := housed
    refine ⟨names, nodup, fun name => ?_, ?_⟩
    · rw [who name]
      simp [startPass]
    · rw [receiving] at holds
      exact holds

theorem afterPass_holds (control : Control s) {pass : Pass}
    (split : s.pendingList = taken ++ rest) (of : PassOf s.nextReq s.reqs taken pass) (name : Nat) :
    (s.afterPass pass rest).Houses name ↔ name ∈ pass.batch ∨
      s.Houses name ∧ ∀ pending ∈ taken, pending.chunkedReq ≠ some name := by
  have sameLength : taken.length = pass.batch.length := by rw [of.batch, length_range']
  have inBatch : ∀ name, name ∈ pass.batch ↔ s.nextReq ≤ name ∧ name < pass.nextReq := by
    intro name
    rw [of.batch, of.nextReq, mem_range'_1]
  have more : s.nextReq ≤ pass.nextReq := of.nextReq ▸ Nat.le_add_right _ _
  have zipped : ∀ name ∈ pass.batch, ∃ pending ∈ taken, (pending, name) ∈ taken.zip pass.batch := by
    intro name mem
    obtain ⟨i, bound, rfl⟩ := mem_iff_getElem.mp mem
    refine ⟨taken.get ⟨i, sameLength ▸ bound⟩, get_mem _ _, ?_⟩
    rw [mem_iff_getElem]
    exact ⟨i, by simpa [sameLength] using bound, by simp⟩
  have chunks : ∀ name, (∃ pending ∈ pass.chunkedList, pending.chunkedReq = some name) ↔
      name ∈ pass.batch ∧ (pass.reqs name).chunked = true := by
    intro name
    rw [of.chunkedList]
    constructor
    · rintro ⟨pending, mem, chunk⟩
      obtain ⟨entry, inZip, made⟩ := mem_filterMap.mp mem
      split at made
      · next chunked =>
        cases made
        cases chunk
        exact ⟨(of_mem_zip (show (entry.1, entry.2) ∈ _ from inZip)).2, chunked⟩
      · cases made
    · rintro ⟨mem, chunked⟩
      obtain ⟨pending, -, inZip⟩ := zipped name mem
      exact ⟨{ pending with chunkedReq := some name },
        mem_filterMap.mpr ⟨(pending, name), inZip, if_pos chunked⟩, rfl⟩
  have once : ∀ first ∈ taken, ∀ second ∈ rest, ∀ name, first.chunkedReq = some name →
      second.chunkedReq ≠ some name := by
    intro first inTaken second inRest name chunk also
    have distinctChunks := control.chunksDistinct
    rw [split, filterMap_append] at distinctChunks
    exact (nodup_append.mp distinctChunks).2.2 name
      (mem_filterMap.mpr ⟨first, inTaken, chunk⟩) name
      (mem_filterMap.mpr ⟨second, inRest, also⟩) rfl
  have listed : ∀ name, (∃ pending ∈ pass.chunkedList ++ rest, pending.chunkedReq = some name) ↔
      (name ∈ pass.batch ∧ (pass.reqs name).chunked = true) ∨
        ∃ pending ∈ rest, pending.chunkedReq = some name := by
    intro name
    rw [← chunks name]
    simp only [mem_append, or_and_right, exists_or]
  refine Iff.symm ?_
  change _ ↔ name < pass.nextReq ∧ (pass.reqs name).tableIdx.isSome ∧
    ((pass.reqs name).chunked = false ∨ (pass.reqs name).aborted = true ∨
      ∃ pending ∈ pass.chunkedList ++ rest, pending.chunkedReq = some name)
  rw [listed name]
  by_cases new : name ∈ pass.batch
  · obtain ⟨pending, -, inZip⟩ := zipped name new
    have launched := of.launched _ inZip
    refine ⟨fun _ => ⟨((inBatch name).mp new).2, launched.seated, ?_⟩, fun _ => .inl new⟩
    cases chunked : (pass.reqs name).chunked with
    | false => exact .inl rfl
    | true => exact .inr (.inr (.inl ⟨new, rfl⟩))
  · simp only [new, false_or, false_and]
    have oldReq : name < s.nextReq → pass.reqs name = s.reqs name := of.old name
    constructor
    · rintro ⟨⟨known, seated, why⟩, others⟩
      rw [oldReq known]
      refine ⟨known.trans_le more, seated, ?_⟩
      rcases why with whole | aborted | ⟨pending, mem, chunk⟩
      · exact .inl whole
      · exact .inr (.inl aborted)
      · rw [split] at mem
        rcases mem_append.mp mem with inTaken | inRest
        · exact absurd chunk (others pending inTaken)
        · exact .inr (.inr ⟨pending, inRest, chunk⟩)
    · rintro ⟨known, seated, why⟩
      have old : name < s.nextReq := by
        by_contra beyond
        exact new ((inBatch name).mpr ⟨not_lt.mp beyond, known⟩)
      rw [oldReq old] at seated why
      refine ⟨⟨old, seated, ?_⟩, fun first inTaken chunk => ?_⟩
      · rcases why with whole | aborted | ⟨pending, mem, chunk⟩
        · exact .inl whole
        · exact .inr (.inl aborted)
        · exact .inr (.inr ⟨pending, split ▸ mem_append_right _ mem, chunk⟩)
      · obtain ⟨-, continuation⟩ := control.continuation first
          (split ▸ mem_append_left _ inTaken) name chunk
        rcases why with whole | aborted | ⟨pending, mem, also⟩
        · rw [continuation.chunked] at whole
          cases whole
        · rw [continuation.aborted] at aborted
          cases aborted
        · exact once first inTaken pending mem name chunk also

theorem PassHoused.afterPass (control : Control s) (receiving : s.todo = none) {pass : Pass} (split : s.pendingList = taken ++ rest)
    (of : PassOf s.nextReq s.reqs taken pass) (lt : PassHoused I s pass taken) :
    Housed I (s.afterPass pass rest) := by
  obtain ⟨names, nodup, who, holds⟩ := lt
  refine ⟨names, nodup, fun name => ?_, ?_⟩
  · rw [who name, afterPass_holds control split of name]
    simp
  · change I s.todo.isSome _ _ _
    rw [receiving]
    exact holds

/-! ### The launch of a batch -/

def Boarded (I : Holding) (stage : Stage) (batch others : List Nat) (s : Scheduler) : Prop :=
  I false s.cacheManager s.tableManager
    ((batch.map s.reqs).map (Prod.mk stage) ++ atRest s.reqs others)

theorem forReqs_rule (keeps : Keeps cfg C I E) {body : CacheManager → Req → CacheManager × Req}
    {pre after : Stage} {P : Req → Prop} {tm : TableManager}
    (one : ∀ {cm req ts}, P req → I false cm tm ((pre, req) :: ts) →
      I false (body cm req).1 tm ((after, (body cm req).2) :: ts)) :
    ∀ (reqs : List Req) (cm : CacheManager) (ts : List Tenant), (∀ req ∈ reqs, P req) →
      I false cm tm (reqs.map (Prod.mk pre) ++ ts) →
      I false (forReqs body cm reqs).1 tm ((forReqs body cm reqs).2.map (Prod.mk after) ++ ts) := by
  intro reqs
  induction reqs with
  | nil => exact fun _ _ _ holds => holds
  | cons req rest ih =>
    intro cm ts guard holds
    have first := one (guard req mem_cons_self) holds
    have moved := keeps.perm perm_middle.symm first
    have last := ih _ _ (fun other mem => guard other (mem_cons_of_mem _ mem)) moved
    exact keeps.perm perm_middle last

theorem Boarded.loop (keeps : Keeps cfg C I E) {body : CacheManager → Req → CacheManager × Req}
    {pre after : Stage} {P : Req → Prop} {batch others : List Nat}
    (one : ∀ {cm req ts}, P req → I false cm s.tableManager ((pre, req) :: ts) →
      I false (body cm req).1 s.tableManager ((after, (body cm req).2) :: ts))
    (nodup : (batch ++ others).Nodup) (guard : ∀ name ∈ batch, P (s.reqs name))
    (boarded : Boarded I pre batch others s) :
    Boarded I after batch others (forBatch body s batch) := by
  obtain ⟨batchDistinct, -, apart⟩ := nodup_append.mp nodup
  obtain ⟨frame, values, kept⟩ := forBatch_spec body batch s batchDistinct
  have rest : atRest (forBatch body s batch).reqs others = atRest s.reqs others :=
    atRest_congr fun name mem => kept name fun inBatch => apart name inBatch name mem rfl
  unfold Boarded
  rw [values, rest, frame]
  exact forReqs_rule keeps one (batch.map s.reqs) s.cacheManager _ (by simpa using guard) boarded

theorem Boarded.of_frame {stage : Stage} {batch others : List Nat}
    (boarded : Boarded I stage batch others s) (cm : next.cacheManager = s.cacheManager)
    (tm : next.tableManager = s.tableManager) (reqs : next.reqs = s.reqs) :
    Boarded I stage batch others next := by
  unfold Boarded
  rw [cm, tm, reqs]
  exact boarded

theorem Boarded.window (keeps : Keeps cfg C I E) {batch : Batch}
    (nodup : (batch.reqs ++ others).Nodup)
    (decodes : batch.isPrefill = false → ∀ name ∈ batch.reqs,
      (s.reqs name).deviceLen = (s.reqs name).cachedLen + 1)
    (boarded : Boarded I .resting batch.reqs others s) :
    Boarded I .resting batch.reqs others (s.prepareWindow cfg batch) := by
  have start : Boarded I .resting batch.reqs others
      ({ s with forwardIter := s.forwardIter + 1 } : Scheduler) := boarded.of_frame rfl rfl rfl
  unfold prepareWindow
  dsimp only
  split
  · unfold freeSwaOutOfWindowExtend
    split
    · exact start
    · exact start.loop keeps (P := fun _ => True) (fun _ => keeps.slideExtend) nodup
        fun _ _ => trivial
  · next prefill =>
    have slid : Boarded I .resting batch.reqs others
        (({ s with forwardIter := s.forwardIter + 1 } : Scheduler).maybeFreeSwaOutOfWindow cfg
          batch.reqs) := by
      unfold maybeFreeSwaOutOfWindow
      split
      · exact start
      · exact start.loop keeps keeps.slideDecode nodup (decodes (by simpa using prefill))
    exact slid.loop keeps (P := fun _ => True) (fun _ => keeps.count) nodup fun _ _ => trivial

theorem Boarded.prepare (keeps : Keeps cfg C I E) {batch : Batch}
    (nodup : (batch.reqs ++ others).Nodup)
    (extends_ : ∀ name ∈ batch.reqs, (s.reqs name).cachedLen < (s.reqs name).deviceLen)
    (decodes : batch.isPrefill = false → ∀ name ∈ batch.reqs,
      (s.reqs name).deviceLen = (s.reqs name).cachedLen + 1)
    (boarded : Boarded I .resting batch.reqs others s) :
    Outcome (s.prepareBatch cfg batch) (fun next => Boarded I .allocated batch.reqs others next ∧
        ∀ name, (next.reqs name).core = (s.reqs name).core) E := by
  have cores := (prepareWindow_sameCores cfg s (nodup_append.mp nodup).1).cores
  have windowed : Boarded I .resting batch.reqs others (s.prepareWindow cfg batch) :=
    boarded.window keeps nodup decodes
  refine (keeps.allocate (fun req mem => ?_) windowed).bind fun cm held => Outcome.pure
    ⟨held, cores⟩
  obtain ⟨name, inBatch, rfl⟩ := mem_map.mp mem
  rw [Req.cachedLen_of_core (cores name), Req.deviceLen_of_core (cores name)]
  exact extends_ name inBatch

theorem sampled_housed (keeps : Keeps cfg C I E) (nextTokens : Nat → Token)
    {reqs : Nat → Req} : ∀ (names : List Nat) (tm : TableManager) (ts : List Tenant),
      (∀ name ∈ names, (Stage.fed, reqs name) ∈ ts) → I false cm tm ts →
      I false cm (writeSampled nextTokens reqs tm names) ts := by
  intro names
  induction names with
  | nil => exact fun _ _ _ holds => holds
  | cons name rest ih =>
    intro tm ts lt holds
    refine ih _ _ (fun other mem => lt other (mem_cons_of_mem _ mem)) ?_
    split
    · have perm := perm_cons_erase (lt name mem_cons_self)
      exact keeps.perm perm.symm (keeps.sample _ (keeps.perm perm holds))
    · exact holds

theorem Boarded.forward (keeps : Keeps cfg C I E) {batch : Batch}
    (nextTokens : Nat → Token) (nodup : (batch.reqs ++ others).Nodup)
    (decodes : batch.isPrefill = false → ∀ name ∈ batch.reqs,
      (s.reqs name).deviceLen = (s.reqs name).cachedLen + 1)
    (boarded : Boarded I .allocated batch.reqs others s) :
    Boarded I .resting batch.reqs others (s.forward cfg batch nextTokens) := by
  have batchDistinct := (nodup_append.mp nodup).1
  have restored : Boarded I .restored batch.reqs others
        (if batch.isPrefill then s.forBatch restoreLinearState batch.reqs
          else if cfg.toolcallAnchorId.isSome then s.snapshotToolcallAnchor batch.reqs else s) ∧
      ∀ name, ((if batch.isPrefill then s.forBatch restoreLinearState batch.reqs
          else if cfg.toolcallAnchorId.isSome then s.snapshotToolcallAnchor batch.reqs
          else s).reqs name).core = (s.reqs name).core := by
    have passed : Boarded I .restored batch.reqs others s := by
      have rule : I false (forReqs (fun cm req => (cm, req)) s.cacheManager
          (batch.reqs.map s.reqs)).1 s.tableManager
          ((forReqs (fun cm req => (cm, req)) s.cacheManager
            (batch.reqs.map s.reqs)).2.map (Prod.mk .restored) ++ atRest s.reqs others) :=
        forReqs_rule keeps (P := fun _ => True) (fun _ => keeps.pass) _ _ _ (fun _ _ => trivial)
          boarded
      rw [forReqs_pure (fun req => req), map_id'] at rule
      exact rule
    split
    · exact ⟨boarded.loop keeps (P := fun _ => True) (fun _ => keeps.restore) nodup
        fun _ _ => trivial, forBatch_part Req.core restoreLinearState_core s batchDistinct⟩
    · split
      · unfold snapshotToolcallAnchor
        split
        · exact ⟨boarded.loop keeps (P := fun _ => True) (fun _ => keeps.freeze) nodup
            fun _ _ => trivial,
            forBatch_part Req.core (fun _ _ => CacheManager.snapshotAnchor_core) s batchDistinct⟩
        · exact ⟨passed, fun _ => rfl⟩
      · exact ⟨passed, fun _ => rfl⟩
  rw [forward_eq]
  refine Boarded.of_frame (s := (s.beforeComplete cfg batch nextTokens).forBatch
    (fun cm req => (cm, req.completeOne)) batch.reqs) ?_ rfl rfl rfl
  refine (show Boarded I .fed batch.reqs others _ from ?_).loop keeps (P := fun _ => True)
    (fun _ => keeps.complete) nodup fun _ _ => trivial
  unfold beforeComplete
  generalize (if batch.isPrefill then s.forBatch restoreLinearState batch.reqs
    else if cfg.toolcallAnchorId.isSome then s.snapshotToolcallAnchor batch.reqs
    else s) = mid at restored ⊢
  obtain ⟨midBoarded, midCores⟩ := restored
  have fed : Boarded I .fed batch.reqs others
      (mid.forBatch (forwardState batch.isPrefill mid.tableManager) batch.reqs) := by
    refine midBoarded.loop keeps (fun guard => keeps.feed batch.isPrefill guard) nodup
      fun name mem prefill => ?_
    rw [Req.deviceLen_of_core (midCores name), Req.cachedLen_of_core (midCores name)]
    exact decodes prefill name mem
  refine sampled_housed keeps nextTokens batch.reqs _ _ (fun name mem => ?_) fed
  exact mem_append_left _ (by simpa using ⟨name, mem, rfl⟩)

theorem Housed.board (keeps : Keeps cfg C I E) (housed : Housed I s) (receiving : s.todo = none)
    {batch : List Nat} (nodup : batch.Nodup) (held : ∀ name ∈ batch, s.Houses name) :
    ∃ others, (batch ++ others).Nodup ∧ (∀ name, name ∈ batch ++ others ↔ s.Houses name) ∧
      Boarded I .resting batch others s := by
  obtain ⟨names, namesDistinct, who, holds⟩ := housed
  have lt : batch ⊆ names := fun name mem => (who name).mpr (.inl (held name mem))
  have perm : names.Perm (batch ++ names.diff batch) := by
    have sub := subperm_ext_iff.mp (subperm_of_subset nodup lt)
    exact (subperm_append_diff_self_of_count_le sub).symm
  refine ⟨names.diff batch, perm.nodup_iff.mp namesDistinct, fun name => ?_, ?_⟩
  · rw [← perm.mem_iff, who name]
    simp
  · rw [receiving] at holds
    have moved := keeps.perm (atRest_perm perm) holds
    unfold atRest at moved
    rw [map_append] at moved
    unfold Boarded
    rw [map_map]
    exact moved

theorem schedule_housed (keeps : Keeps cfg C I E) (control : Control s) (housed : Housed I s)
    (receiving : s.todo = none) :
    Outcome (s.scheduleNextBatch cfg) (fun res => Housed I res.1 ∧ res.1.todo = none ∧
        ∀ batch admissions, res.2 = some (batch, admissions) →
          (∀ name ∈ batch.reqs, res.1.Houses name) ∧
          (∀ name ∈ batch.reqs, (res.1.reqs name).cachedLen < (res.1.reqs name).deviceLen) ∧
          (batch.isPrefill = false → ∀ name ∈ batch.reqs,
            (res.1.reqs name).deviceLen = (res.1.reqs name).cachedLen + 1)) E := by
  have passed : Outcome ((startPass cfg s).run s.pendingList) _ E :=
    pass_housed keeps control housed receiving
  have found : ∀ pass, (startPass cfg s).run s.pendingList = .ok pass → ∀ taken rest,
      s.pendingList = taken ++ rest → PassOf s.nextReq s.reqs taken pass →
      PassHoused I s pass taken := by
    intro pass run taken rest split of
    obtain ⟨done, others, splitToo, ofToo, lt⟩ := passed.ok run
    have length : done.length = taken.length := by
      have := congrArg length (ofToo.batch.symm.trans of.batch)
      simpa using this
    rwa [append_inj_left (splitToo.symm.trans split) length] at lt
  refine Outcome.of_eq (fun res done => ?_) fun err failed => ?_
  · obtain ⟨mid, chosen⟩ := res
    cases scheduleNextBatch_ok control done with
    | prefill taken rest pass some_ split of run =>
      refine ⟨(found pass run taken rest split of).afterPass control receiving split of,
        receiving, ?_⟩
      intro batch admissions same
      obtain ⟨rfl, rfl⟩ := Prod.mk.inj (Option.some.inj same)
      refine ⟨fun name mem => (afterPass_holds control split of name).mpr (.inl mem), ?_,
        fun absurd => by cases absurd⟩
      intro name mem
      have sameLength : taken.length = pass.batch.length := by rw [of.batch, length_range']
      obtain ⟨i, bound, rfl⟩ := mem_iff_getElem.mp mem
      have zipped : (taken.get ⟨i, sameLength ▸ bound⟩, pass.batch[i]) ∈ taken.zip pass.batch := by
        rw [mem_iff_getElem]
        exact ⟨i, by simpa [sameLength] using bound, by simp⟩
      exact (of.launched _ zipped).extends_
    | other pass of run batch decode =>
      have lt := found pass run [] s.pendingList rfl of
      refine ⟨lt.afterPass control receiving rfl of, receiving, ?_⟩
      intro batch admissions same
      rw [decode] at same
      split at same
      · cases same
      · obtain ⟨rfl, rfl⟩ := Prod.mk.inj (Option.some.inj same)
        have facts : ∀ name ∈ s.decodeManager.byUid pass.reqs,
            (s.afterPass pass s.pendingList).Houses name ∧
              (pass.reqs name).deviceLen = (pass.reqs name).cachedLen + 1 := by
          intro name mem
          have running := (mem_insertionSort _).mp mem
          obtain ⟨known, decodes, -, seated⟩ := control.running name running
          have whole := canDecode_not_chunked decodes
          refine ⟨(afterPass_holds control rfl of name).mpr
            (.inr ⟨⟨known, seated, .inl whole⟩, fun _ absurd => by cases absurd⟩), ?_⟩
          rw [of.old name known]
          exact (control.lengths name known seated (by simp)).deviceLen
        refine ⟨fun name mem => (facts name mem).1, fun name mem => ?_,
          fun _ name mem => (facts name mem).2⟩
        have := (facts name mem).2
        change (pass.reqs name).cachedLen < (pass.reqs name).deviceLen
        omega
  · have prefill : s.schedulePrefill cfg = .error err := by
      unfold scheduleNextBatch at failed
      cases scheduled : s.schedulePrefill cfg with
      | error other =>
        rw [scheduled] at failed
        exact congrArg Except.error (Except.error.inj failed)
      | ok res =>
        rw [scheduled] at failed
        obtain ⟨mid, batch⟩ := res
        cases batch with
        | some batch => cases failed
        | none =>
          change (if mid.decodeManager.runningReqs = [] then _ else _ : Except Err _) = _ at failed
          split at failed <;> cases failed
    unfold schedulePrefill at prefill
    split at prefill
    · cases prefill
    · cases run : (startPass cfg s).run s.pendingList with
      | error other =>
        change (startPass cfg s).run s.pendingList >>= _ = _ at prefill
        rw [run] at prefill
        rw [← Except.error.inj prefill]
        exact passed.error run
      | ok pass =>
        change (startPass cfg s).run s.pendingList >>= _ = _ at prefill
        rw [run] at prefill
        change (if pass.batch = [] then _ else _ : Except Err _) = _ at prefill
        split at prefill <;> cases prefill

theorem Houses.of_core (core : ∀ {α : Type} (part : Req → α),
      (∀ req : Req, part req.core = part req) → (∀ req : Req, part req.completeOne = part req) →
      part (next.reqs name) = part (s.reqs name))
    (nextReq : next.nextReq = s.nextReq) (pending : next.pendingList = s.pendingList) :
    next.Houses name ↔ s.Houses name := by
  unfold Houses
  rw [nextReq, pending, core Req.tableIdx (fun _ => rfl) fun _ => rfl,
    core Req.chunked (fun _ => rfl) fun _ => rfl, core Req.aborted (fun _ => rfl) fun _ => rfl]

theorem launchBatch_housed (keeps : Keeps cfg C I E) (control : Control s) (phase : Phase s)
    (housed : Housed I s) (receiving : s.todo = none) (nextTokens : Nat → Token) :
    Outcome (s.launchBatch cfg nextTokens) (fun next => Housed I next ∧ next.todo = none) E := by
  have idle := (phase.receiving receiving).1
  refine (schedule_housed keeps control housed receiving).bind_eq fun res done facts => ?_
  obtain ⟨mid, chosen⟩ := res
  obtain ⟨midHoused, midReceiving, batchFacts⟩ := facts
  cases chosen with
  | none => exact Outcome.pure ⟨midHoused.of_frame rfl rfl rfl rfl rfl rfl, midReceiving⟩
  | some chosen =>
    obtain ⟨batch, admissions⟩ := chosen
    obtain ⟨held, extends_, decodes⟩ := batchFacts batch admissions rfl
    have nodup := ((scheduleNextBatch_ok control done).chosen control idle).distinct
    obtain ⟨others, apart, who, boarded⟩ := midHoused.board keeps midReceiving nodup held
    refine (boarded.prepare keeps apart extends_ decodes).bind_eq fun prepared ok facts =>
      Outcome.pure ?_
    obtain ⟨allocated, cores⟩ := facts
    let admitted : List Reply := admissions.map fun entry =>
      .promptAdmitted entry.1 entry.2.1 entry.2.2
    have forwarded : Forwarded mid batch nextTokens admitted _ :=
      prepare_forwarded nextTokens nodup ok
    have sent : Boarded I .allocated batch.reqs others (prepared.sendResult admitted) :=
      allocated.of_frame rfl rfl rfl
    have rested : Boarded I .resting batch.reqs others
        ((prepared.sendResult admitted).forward cfg batch nextTokens) := by
      refine sent.forward keeps nextTokens apart fun prefill name mem => ?_
      change (prepared.reqs name).deviceLen = (prepared.reqs name).cachedLen + 1
      rw [Req.deviceLen_of_core (cores name), Req.cachedLen_of_core (cores name)]
      exact decodes prefill name mem
    refine ⟨⟨batch.reqs ++ others, apart, fun name => (who name).trans ?_, ?_⟩,
      forwarded.todo.trans midReceiving⟩
    · simp only [reduceCtorEq, or_false]
      refine (Houses.of_core (fun part reads completes => ?_) forwarded.nextReq
        forwarded.pendingList).symm
      by_cases mem : name ∈ batch.reqs
      · exact (Req.part_of_core (forwarded.completed name mem) part reads).trans
          (completes _)
      · exact Req.part_of_core (forwarded.others name mem) part reads
    · have todo : ((prepared.sendResult admitted).forward cfg batch nextTokens).todo = none :=
        forwarded.todo.trans midReceiving
      rw [todo]
      unfold Boarded at rested
      rw [map_map] at rested
      unfold atRest
      rw [map_append]
      exact rested

theorem launch_housed (keeps : Keeps cfg C I E) (control : Control s) (phase : Phase s)
    (housed : Housed I s) (receiving : s.todo = none) (nextTokens : Nat → Token) :
    Outcome (s.launch cfg nextTokens) (Housed I) E := by
  refine (launchBatch_housed keeps control phase housed receiving nextTokens).bind
    fun launched facts => ?_
  obtain ⟨held, todo⟩ := facts
  split
  · exact Outcome.pure (held.of_frame rfl rfl rfl rfl rfl rfl)
  · obtain ⟨names, nodup, who, holds⟩ := held
    rw [todo] at holds
    refine Outcome.pure ⟨names, nodup, fun name => (who name).trans ?_, keeps.openRegion holds⟩
    exact or_congr (Houses.congr rfl rfl Iff.rfl).symm Iff.rfl

/-! ### The drain -/

theorem freeIfSeated_housed (keeps : Keeps cfg C I E) (housed : Housed I s)
    (held : (s.reqs name).tableIdx.isSome → s.Houses name)
    (covered : (s.reqs name).tableIdx.isSome →
      (s.reqs name).cachedLen ≤ (s.reqs name).inputIds.length) :
    Outcome (s.freeReqResources name) (Housed I) E := by
  cases unseated : (s.reqs name).tableIdx with
  | none =>
    unfold freeReqResources
    rw [unseated]
    exact Outcome.pure housed
  | some tableIdx =>
    have seated : (s.reqs name).tableIdx.isSome := by
      rw [unseated]
      rfl
    exact freeReqResources_housed keeps (housed.extra (held seated)) seated (covered seated)

theorem finishReq_housed (keeps : Keeps cfg C I E) (housed : Housed I s)
    (held : (s.reqs name).tableIdx.isSome → s.Houses name)
    (covered : (s.reqs name).tableIdx.isSome →
      (s.reqs name).cachedLen ≤ (s.reqs name).inputIds.length) :
    Outcome (s.finishReq name) (Housed I) E := by
  have start : Housed I { s with decodeManager := s.decodeManager.removeReq name } :=
    housed.of_frame rfl rfl rfl rfl rfl rfl
  refine (freeIfSeated_housed keeps start held covered).bind fun freed kept => Outcome.pure ?_
  exact kept.of_frame rfl rfl rfl rfl rfl rfl

theorem setReq_housed {req : Req} (nodup : (name :: others).Nodup)
    (who : ∀ other, other ∈ others ↔ s.Houses other ∧ other ≠ name) (known : name < s.nextReq)
    (seated : req.tableIdx.isSome) (whole : req.chunked = false)
    {reply : List Reply}
    (holds : I s.todo.isSome cm s.tableManager ((.resting, req) :: atRest s.reqs others)) :
    Housed I ({ s with
      cacheManager := cm
      reply := reply
      reqs := Function.update s.reqs name req } : Scheduler) := by
  have apart := (nodup_cons.mp nodup).1
  refine ⟨name :: others, nodup, fun other => ?_, ?_⟩
  · rw [mem_cons, who other]
    unfold Houses
    dsimp only
    by_cases same : other = name
    · subst same
      rw [update_self]
      exact ⟨fun _ => .inl ⟨known, seated, .inl whole⟩, fun _ => .inl rfl⟩
    · rw [update_of_ne same]
      constructor
      · rintro (equal | ⟨is, -⟩)
        · exact absurd equal same
        · exact .inl is
      · rintro (is | absurd)
        · exact .inr ⟨is, same⟩
        · cases absurd
  · dsimp only
    rw [atRest_cons, update_self, atRest_congr fun other mem =>
      update_of_ne (ne_of_mem_of_not_mem mem apart) _ _]
    exact holds

theorem deliver_housed (keeps : Keeps cfg C I E) {isPrefill : Bool} {token : Token}
    (housed : Housed I s) (draining : s.todo.isSome = true) (held : s.Houses name)
    (whole : (s.reqs name).chunked = false)
    (covered : (s.reqs name).cachedLen ≤ (s.reqs name).inputIds.length + 1)
    (meets : ∀ finished, (verdict cfg { s.reqs name with
        inputIds := (s.reqs name).inputIds ++ [token] } token).finished = false →
      isPrefill = true → finished = false →
      C s.cacheManager (noteAnchor cfg { s.reqs name with
        inputIds := (s.reqs name).inputIds ++ [token] } token finished)) :
    Outcome (s.deliver cfg isPrefill name token) (Housed I) E := by
  obtain ⟨others, nodup, who, holds⟩ := housed.split keeps (.inl held)
  have onlyHeld : ∀ other, other ∈ others ↔ s.Houses other ∧ other ≠ name := fun other => by
    rw [who other]
    simp
  rw [draining] at holds
  refine Outcome.bind_eq (Q := fun given => ∀ finished, I true s.cacheManager s.tableManager
    ((.resting, noteAnchor cfg given token finished) :: atRest s.reqs others)) ?_ ?_
  · refine Outcome.of_eq (fun given done finished => ?_) fun err failed =>
      (keeps.append token false whole holds).error failed
    exact (keeps.append token finished whole holds).ok done
  · intro given done kept
    obtain ⟨-, -, rfl⟩ := appendHost_ok done
    dsimp only
    generalize verdict cfg _ token = v at meets ⊢
    have sameCore := noteAnchor_core cfg { s.reqs name with
      inputIds := (s.reqs name).inputIds ++ [token] } token v.finished
    have keptNow := kept v.finished
    have condition := meets v.finished
    generalize noteAnchor cfg _ token v.finished = req at sameCore keptNow condition ⊢
    have seated : req.tableIdx.isSome := by
      rw [Req.tableIdx_of_core sameCore]
      exact held.2.1
    have reqWhole : req.chunked = false := (Req.chunked_of_core sameCore).trans whole
    have reqCovered : req.cachedLen ≤ req.inputIds.length := by
      rw [Req.cachedLen_of_core sameCore, Req.inputIds_of_core sameCore]
      simpa using covered
    rw [← draining] at keptNow
    have after : ∀ reply, Housed I ({ s.setReq name req with reply := reply } : Scheduler) :=
      fun reply => setReq_housed nodup onlyHeld held.1 seated reqWhole keptNow
    have here : ∀ reply, ({ s.setReq name req with reply := reply } : Scheduler).reqs name = req :=
      fun _ => update_self ..
    split
    · refine finishReq_housed keeps (after _) (fun _ => ?_) fun _ => ?_
      · refine ⟨held.1, ?_, .inl ?_⟩
        · rw [here]
          exact seated
        · rw [here]
          exact reqWhole
      · rw [here]
        exact reqCovered
    · next goesOn =>
      have goesOn : v.finished = false := by simpa using goesOn
      split
      · next both =>
        rw [draining] at keptNow
        refine (keeps.commit reqWhole reqCovered (condition goesOn both.1 goesOn) keptNow).bind_eq
          fun res committed last => Outcome.pure ?_
        obtain ⟨cm, final⟩ := res
        have finalCore := CacheManager.cacheReq_core committed
        rw [← draining] at last
        have placed : Housed I ({ s with
            cacheManager := cm
            reply := s.reply ++ [tokenReply req token v]
            reqs := update s.reqs name final } : Scheduler) :=
          setReq_housed nodup onlyHeld held.1 (Req.tableIdx_of_core finalCore ▸ seated)
            ((Req.chunked_of_core finalCore).trans reqWhole) last
        have twice : update (update s.reqs name req) name final =
            update s.reqs name final := update_idem ..
        refine placed.of_frame rfl rfl rfl ?_ rfl rfl
        exact twice
      · exact Outcome.pure (after _)

theorem drainReq_housed (keeps : Keeps cfg C I E) (control : Control s) (housed : Housed I s) {rest : List Nat} {data : ForwardData} (todo : s.todo = some (name :: rest))
    (last : s.lastData = some data)
    (meets : ∀ req, s.committing cfg = some req → C s.cacheManager req) :
    Outcome (({ s with todo := some rest } : Scheduler).drainReq cfg data name) (Housed I) E := by
  have start : Housed I ({ s with todo := some rest } : Scheduler) :=
    housed.of_frame (by rw [todo]; rfl) rfl rfl rfl rfl rfl
  have queued : name ∈ s.queue := by
    unfold queue
    rw [todo]
    exact mem_cons_self
  have known := control.queued name queued
  have heldIf : (s.reqs name).tableIdx.isSome →
      (s.reqs name).chunked = false ∨ (s.reqs name).aborted = true →
      ({ s with todo := some rest } : Scheduler).Houses name := fun seated why =>
    ⟨known, seated, why.elim .inl fun aborted => .inr (.inl aborted)⟩
  have forwardOnly : ∀ (batch : Option ForwardData) (mem : Prop) [Decidable mem],
      (if mem then sampledIn batch name else []).length ≤ 1 := by
    intro batch mem _
    split
    · unfold sampledIn
      cases batch <;> simp
    · simp
  unfold drainReq
  dsimp only
  split
  · next chunked =>
    split
    · next aborted =>
      refine freeIfSeated_housed keeps start (fun seated => heldIf seated (.inr aborted))
        fun seated => control.covered known seated fun whole => ?_
      rw [chunked] at whole
      cases whole
    · exact Outcome.pure start
  · next whole =>
    have whole : (s.reqs name).chunked = false := by simpa using whole
    split
    · next aborted =>
      refine finishReq_housed keeps start (fun seated => heldIf seated (.inl whole))
        fun seated => control.covered known seated fun _ => ?_
      have notLaunched : name ∉ s.inForward := fun mem => by
        have := (control.launched name mem).2
        rw [aborted] at this
        cases this
      unfold undelivered
      rw [if_neg notLaunched, append_nil]
      exact forwardOnly _ _
    · next live =>
      have live : (s.reqs name).aborted = false := by simpa using live
      split
      · exact Outcome.pure start
      · next goesOn =>
        have seated : (s.reqs name).tableIdx.isSome := by
          rcases unseated : (s.reqs name).tableIdx with _ | idx
          · exact absurd (control.ended name queued whole live unseated) goesOn
          · rfl
        refine deliver_housed keeps start rfl (heldIf seated (.inl whole)) whole ?_ ?_
        · obtain ⟨device, ids⟩ := control.lengths name known seated (by simp)
          rw [whole] at ids
          have first := forwardOnly s.lastData (name ∈ s.queue)
          have second := forwardOnly s.ongoing (name ∈ s.inForward)
          simp only [Bool.false_eq_true, if_false] at ids
          unfold undelivered at ids
          rw [length_append] at ids
          dsimp only
          omega
        · intro finished unfinished prefill not
          refine meets _ ?_
          unfold committing
          rw [todo, last]
          dsimp only
          rw [if_neg, if_neg, unfinished, not]
          · rintro (ends | unseated)
            · rw [unfinished] at ends
              cases ends
            · rw [unseated] at seated
              cases seated
          · rintro (chunked | aborted | ended | decode)
            · rw [whole] at chunked
              cases chunked
            · rw [live] at aborted
              cases aborted
            · exact goesOn ended
            · rw [prefill] at decode
              cases decode

theorem finishDrain_frame (s : Scheduler) : s.finishDrain.reqs = s.reqs ∧
    s.finishDrain.nextReq = s.nextReq ∧ s.finishDrain.pendingList = s.pendingList ∧
    s.finishDrain.tableManager = s.tableManager ∧ s.finishDrain.todo = none ∧
    s.finishDrain.cacheManager = s.cacheManager.closeLazyFreeRegion :=
  ⟨rfl, rfl, rfl, rfl, rfl, rfl⟩

theorem drain_housed (keeps : Keeps cfg C I E) (control : Control s)
    (housed : Housed I s) (draining : s.todo.isSome = true)
    (meets : ∀ req, s.committing cfg = some req → C s.cacheManager req) :
    Outcome (s.drain cfg) (Housed I) E := by
  unfold drain
  split
  · next name rest data todo last => exact drainReq_housed keeps control housed todo last meets
  · obtain ⟨reqs, nextReq, pending, tm, todo, cm⟩ := finishDrain_frame s
    obtain ⟨names, nodup, who, holds⟩ := housed
    rw [draining] at holds
    suffices Housed I s.finishDrain from this
    generalize s.finishDrain = done at reqs nextReq pending tm todo cm
    refine ⟨names, nodup, fun name => (who name).trans ?_, ?_⟩
    · exact or_congr (Houses.congr (congrFun reqs name) nextReq (by rw [pending])).symm Iff.rfl
    · rw [todo, cm, tm, reqs]
      exact keeps.closeRegion holds
  · next receiving =>
    rw [receiving] at draining
    cases draining

/-! ### A run -/

def Always (cfg : SchedulerConfig) (start : Scheduler) (events : List Event)
    (P : Scheduler → Event → Prop) : Prop :=
  ∀ pre event after s, events = pre ++ event :: after → Run cfg start pre s → P s event

/-- Every commit of a drain is made under the condition `C`. -/
def Commits (cfg : SchedulerConfig) (C : CacheManager → Req → Prop) (s : Scheduler) : Event → Prop
  | .drain => ∀ req, s.committing cfg = some req → C s.cacheManager req
  | _ => True

/-- A step keeps such an assertion, and an error that it raises is one that a call may raise. -/
theorem Keeps.step (keeps : Keeps cfg C I E) (control : Control s) (phase : Phase s)
    (housed : Housed I s) {event : Event} (enabled : s.enabled event = true)
    (meets : Commits cfg C s event) : Outcome (s.step cfg event) (Housed I) E := by
  cases event with
  | recv msg =>
    exact processOneMsg_housed keeps control phase housed (by simpa [Scheduler.enabled] using enabled)
      msg
  | launch nextTokens =>
    exact launch_housed keeps control phase housed (by simpa [Scheduler.enabled] using enabled)
      nextTokens
  | drain => exact drain_housed keeps control housed enabled meets

/-- **An assertion that every call keeps holds in every state that is reached.** -/
theorem Keeps.run (keeps : Keeps cfg C I E) {maxRunningReqs : Nat}
    (fresh : I false cm (TableManager.new maxRunningReqs) []) {events : List Event}
    (run : Run cfg (Scheduler.new cm maxRunningReqs) events s)
    (meets : Always cfg (Scheduler.new cm maxRunningReqs) events (Commits cfg C)) : Housed I s := by
  induction run with
  | nil => exact ⟨[], nodup_nil, by simp [Houses, Scheduler.new], fresh⟩
  | @snoc events s next event run enabled step ih =>
    obtain ⟨control, phase⟩ := control_run run
    have housed := ih fun pre other after state split =>
      meets pre other (after ++ [event]) state (by rw [split, append_assoc]; rfl)
    exact (keeps.step control phase housed enabled (meets events event [] s rfl run)).ok step

end Scheduler

end FreeToken
