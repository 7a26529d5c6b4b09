/-
**Generators that may raise.**

* `Generator ε α`: the events that a computation yields, and what it returns unless it raises;
* `Generator.Meets.bind`, `pure`, `emit`, `mono`: the rules of sequence and of consequence.
-/

import Mathlib.Tactic.Common

namespace FreeToken

open List

/-- What was yielded, and the value returned; without a value the computation has raised. -/
structure Generator (ε α : Type) where
  events : List ε
  result : Option α
  deriving DecidableEq, Repr

namespace Generator

variable {ε α β : Type}

protected def bind (first : Generator ε α) (next : α → Generator ε β) : Generator ε β :=
  match first.result with
  | none => ⟨first.events, none⟩
  | some value => ⟨first.events ++ (next value).events, (next value).result⟩

instance : Monad (Generator ε) where
  pure value := ⟨[], some value⟩
  bind := Generator.bind

/-- `yield`. -/
def emit (event : ε) : Generator ε Unit := ⟨[event], some ()⟩

/-- `if condition: yield`. -/
def emitIf (condition : Bool) (event : ε) : Generator ε Unit :=
  ⟨if condition then [event] else [], some ()⟩

def lift (value : Option α) : Generator ε α := ⟨[], value⟩

@[simp] theorem result_lift (value : Option α) : (lift value : Generator ε α).result = value := rfl

@[simp] theorem events_lift (value : Option α) : (lift value : Generator ε α).events = [] := rfl

section Rules

variable {comp : Generator ε α} {next : α → Generator ε β} {seen : List ε}
  {Q R : List ε → α → Prop} {post : List ε → β → Prop}

theorem bind_some {value : α} (ret : comp.result = some value) :
    comp >>= next = ⟨comp.events ++ (next value).events, (next value).result⟩ := by
  show Generator.bind comp next = _
  unfold Generator.bind
  rw [ret]

theorem bind_none (raised : comp.result = none) : comp >>= next = ⟨comp.events, none⟩ := by
  show Generator.bind comp next = _
  unfold Generator.bind
  rw [raised]

theorem result_bind : (comp >>= next).result =
    comp.result.bind fun value => (next value).result := by
  cases ret : comp.result with
  | none => rw [bind_none ret, Option.bind_none]
  | some value => rw [bind_some ret, Option.bind_some]

/-- After the history `seen`, the computation returns in a history that satisfies `post`, or raises
in one that satisfies `raised`. -/
def Meets (seen : List ε) (comp : Generator ε α) (post : List ε → α → Prop)
    (raised : List ε → Prop) : Prop :=
  match comp.result with
  | some value => post (seen ++ comp.events) value
  | none => raised (seen ++ comp.events)

namespace Meets

variable {raised : List ε → Prop}

theorem returns (meets : Meets seen comp Q raised) {value : α}
    (ret : comp.result = some value) : Q (seen ++ comp.events) value := by
  unfold Meets at meets
  rw [ret] at meets
  exact meets

theorem raises (meets : Meets seen comp Q raised) (stopped : comp.result = none) :
    raised (seen ++ comp.events) := by
  unfold Meets at meets
  rw [stopped] at meets
  exact meets

theorem of_result (good : ∀ value, comp.result = some value → Q (seen ++ comp.events) value)
    (bad : comp.result = none → raised (seen ++ comp.events)) :
    Meets seen comp Q raised := by
  unfold Meets
  cases ret : comp.result with
  | none => exact bad ret
  | some value => exact good value ret

theorem pure {value : α} (holds : Q seen value) : Meets seen (Pure.pure value) Q raised := by
  show Q (seen ++ []) value
  rw [append_nil]
  exact holds

theorem emit {event : ε} {R : List ε → Unit → Prop} (holds : R (seen ++ [event]) ()) :
    Meets seen (Generator.emit event) R raised :=
  holds

theorem emitIf {condition : Bool} {event : ε} {R : List ε → Unit → Prop} (silent : R seen ())
    (holds : R (seen ++ [event]) ()) : Meets seen (Generator.emitIf condition event) R raised := by
  cases condition with
  | false =>
    show R (seen ++ []) ()
    rw [append_nil]
    exact silent
  | true => exact holds

theorem lift {value : Option α} (good : ∀ got, value = some got → Q seen got)
    (bad : value = none → raised seen) : Meets seen (Generator.lift value) Q raised := by
  apply of_result
  · intro got same
    rw [events_lift, append_nil]
    exact good got same
  · intro same
    rw [events_lift, append_nil]
    exact bad same

theorem bind (first : Meets seen comp Q raised)
    (rest : ∀ seen value, Q seen value → Meets seen (next value) post raised) :
    Meets seen (comp >>= next) post raised := by
  cases ret : comp.result with
  | none =>
    apply of_result
    · intro value same
      rw [bind_none ret] at same
      cases same
    · intro _
      rw [bind_none ret]
      exact first.raises ret
  | some value =>
    have later := rest _ value (first.returns ret)
    unfold Meets at later ⊢
    rw [bind_some ret, ← append_assoc]
    exact later

theorem mono (meets : Meets seen comp Q raised)
    (weaker : ∀ seen value, Q seen value → R seen value) :
    Meets seen comp R raised :=
  of_result (fun value ret => weaker _ value (meets.returns ret)) meets.raises

end Meets

end Rules

/-- A generator around a loop over items. -/
def each {ι σ : Type} (step : σ → ι → Generator ε σ) (self : σ) : List ι → Generator ε σ
  | [] => pure self
  | item :: items => do
      let self ← step self item
      each step self items

theorem each_cons {ι σ : Type} {step : σ → ι → Generator ε σ} {self later : σ} {item : ι}
    (ret : (step self item).result = some later) (items : List ι) :
    each step self (item :: items) = ⟨(step self item).events ++ (each step later items).events,
      (each step later items).result⟩ :=
  bind_some ret

theorem each_append {ι σ : Type} (step : σ → ι → Generator ε σ) (self : σ) (items more : List ι) :
    each step self (items ++ more) =
      each step self items >>= fun later => each step later more := by
  induction items generalizing self with
  | nil => rfl
  | cons item items ih =>
    show (step self item >>= fun later => each step later (items ++ more)) =
      (step self item >>= fun later => each step later items) >>= _
    cases ret : (step self item).result with
    | none => rw [bind_none ret, bind_none ret, bind_none rfl]
    | some later =>
      rw [bind_some ret, bind_some ret, ih later]
      cases middle : (each step later items).result with
      | none => rw [bind_none middle, bind_none rfl]
      | some last => rw [bind_some middle, bind_some rfl, append_assoc]

end Generator

/-! ### Frames that have to be encoded -/

/-- Frames that are all encoded before the first of them is yielded, each with the variables at that
point: they are what an exception leaves. -/
abbrev Attempt (ε σ : Type) := List (ε × σ)

namespace Attempt

variable {ε σ : Type} (encodes : ε → Bool)

/-- A frame that is yielded by itself. -/
def single (frame : ε) (self : σ) : Generator (Attempt ε σ) Unit := Generator.emit [(frame, self)]

/-- The frames of a computation go into a list, which is yielded when it is complete. -/
def collect {α : Type} (comp : Generator (Attempt ε σ) α) : Generator (Attempt ε σ) α :=
  ⟨[comp.events.flatten], comp.result⟩

/-- The frames up to the first one that cannot be encoded, and that one. -/
def yielded : List (Attempt ε σ) → List ε × Option (ε × σ)
  | [] => ([], none)
  | attempt :: attempts =>
      match attempt.find? fun frame => !encodes frame.1 with
      | some refused => ([], some refused)
      | none => (attempt.map Prod.fst ++ (yielded attempts).1, (yielded attempts).2)

variable {encodes}

theorem yielded_cons {attempt : Attempt ε σ} (all : ∀ frame ∈ attempt, encodes frame.1 = true)
    (attempts : List (Attempt ε σ)) : yielded encodes (attempt :: attempts) =
      (attempt.map Prod.fst ++ (yielded encodes attempts).1, (yielded encodes attempts).2) := by
  have none : attempt.find? (fun frame => !encodes frame.1) = none :=
    find?_eq_none.mpr fun frame mem => by simp [all frame mem]
  rw [yielded, none]

theorem yielded_refused {frame : ε × σ} (refused : encodes frame.1 = false)
    (attempt : Attempt ε σ) (attempts : List (Attempt ε σ)) :
    yielded encodes ((frame :: attempt) :: attempts) = ([], some frame) := by
  have found : (frame :: attempt).find? (fun frame => !encodes frame.1) = some frame :=
    find?_cons_of_pos (by simp [refused])
  rw [yielded, found]

theorem yielded_append {attempts : List (Attempt ε σ)}
    (all : ∀ frame ∈ attempts.flatten, encodes frame.1 = true) (more : List (Attempt ε σ)) :
    yielded encodes (attempts ++ more) =
      (attempts.flatten.map Prod.fst ++ (yielded encodes more).1, (yielded encodes more).2) := by
  induction attempts with
  | nil => rfl
  | cons attempt attempts ih =>
    rw [flatten_cons, forall_mem_append] at all
    rw [cons_append, yielded_cons all.1, ih all.2, flatten_cons, map_append, append_assoc]

theorem yielded_all {attempts : List (Attempt ε σ)}
    (all : ∀ frame ∈ attempts.flatten, encodes frame.1 = true) :
    yielded encodes attempts = (attempts.flatten.map Prod.fst, none) := by
  have whole := yielded_append all []
  rw [append_nil, yielded, append_nil] at whole
  exact whole

/-- All frames of a computation can be encoded, and what it returns satisfies `post`. -/
structure Safe {α : Type} (encodes : ε → Bool) (post : α → Prop)
    (comp : Generator (Attempt ε σ) α) : Prop where
  frames : ∀ frame ∈ comp.events.flatten, encodes frame.1 = true
  returns : ∀ value ∈ comp.result, post value

namespace Safe

variable {α β : Type} {first : Generator (Attempt ε σ) α} {next : α → Generator (Attempt ε σ) β}
  {Q : α → Prop} {post : β → Prop}

theorem pure {value : α} (holds : Q value) :
    Safe encodes Q (Pure.pure value : Generator (Attempt ε σ) α) :=
  ⟨nofun, fun _ same => Option.some.inj same ▸ holds⟩

theorem emit {attempt : Attempt ε σ} (all : ∀ frame ∈ attempt, encodes frame.1 = true) :
    Safe encodes (fun _ => True) (Generator.emit attempt) :=
  ⟨fun frame mem => all frame (by simpa [Generator.emit] using mem), fun _ _ => trivial⟩

theorem single {frame : ε} {self : σ} (all : encodes frame = true) :
    Safe encodes (fun _ => True) (single frame self) :=
  emit fun _ mem => (mem_singleton.mp mem) ▸ all

theorem bind (safe : Safe encodes Q first)
    (rest : ∀ value, Q value → Safe encodes post (next value)) :
    Safe encodes post (first >>= next) := by
  cases ret : first.result with
  | none =>
    rw [Generator.bind_none ret]
    exact ⟨safe.frames, fun _ none => absurd none (by simp)⟩
  | some value =>
    have later := rest value (safe.returns value ret)
    rw [Generator.bind_some ret]
    refine ⟨?_, later.returns⟩
    rw [flatten_append]
    exact forall_mem_append.mpr ⟨safe.frames, later.frames⟩

theorem collect (safe : Safe encodes Q first) : Safe encodes Q (collect first) :=
  ⟨fun frame mem => safe.frames frame (by simpa [Attempt.collect] using mem), safe.returns⟩

theorem each {ι : Type} {step : σ → ι → Generator (Attempt ε σ) σ} {items : List ι}
    {Clean : σ → Prop} (turn : ∀ self, ∀ item ∈ items, Clean self →
      Safe encodes Clean (step self item)) {self : σ} (clean : Clean self) :
    Safe encodes Clean (Generator.each step self items) := by
  induction items generalizing self with
  | nil => exact .pure clean
  | cons item items ih =>
    exact bind (turn self item mem_cons_self clean) fun later laterClean =>
      ih (fun self other mem => turn self other (mem_cons_of_mem _ mem)) laterClean

end Safe

end Attempt

end FreeToken
