/-
**Fallible computations and what they lead to.**
-/



namespace FreeToken

variable {ε α β : Type}

/-- The result satisfies `Q`, or the error satisfies `E`. -/
def Outcome (comp : Except ε α) (Q : α → Prop) (E : ε → Prop) : Prop :=
  match comp with
  | .ok value => Q value
  | .error err => E err

namespace Outcome

variable {comp : Except ε α} {Q R : α → Prop} {E F : ε → Prop}

theorem ok {value : α} (outcome : Outcome comp Q E) (done : comp = .ok value) : Q value := by
  rw [done] at outcome
  exact outcome

theorem error {err : ε} (outcome : Outcome comp Q E) (failed : comp = .error err) : E err := by
  rw [failed] at outcome
  exact outcome

theorem of_eq (good : ∀ value, comp = .ok value → Q value)
    (bad : ∀ err, comp = .error err → E err) : Outcome comp Q E := by
  cases comp with
  | ok value => exact good value rfl
  | error err => exact bad err rfl

theorem of_ok {value : α} (done : comp = .ok value) (holds : Q value) : Outcome comp Q E := by
  rw [done]
  exact holds

theorem pure {value : α} (holds : Q value) : Outcome (Pure.pure value : Except ε α) Q E := holds

theorem mono (outcome : Outcome comp Q E) (weaker : ∀ value, Q value → R value)
    (errors : ∀ err, E err → F err) : Outcome comp R F :=
  of_eq (fun value done => weaker value (outcome.ok done))
    fun err failed => errors err (outcome.error failed)

theorem imp (outcome : Outcome comp Q E) (weaker : ∀ value, Q value → R value) : Outcome comp R E :=
  outcome.mono weaker fun _ same => same

theorem bind {next : α → Except ε β} {S : β → Prop} (first : Outcome comp Q E)
    (rest : ∀ value, Q value → Outcome (next value) S E) : Outcome (comp >>= next) S E := by
  cases comp with
  | ok value => exact rest value first
  | error err => exact first

theorem bind_eq {next : α → Except ε β} {S : β → Prop} (first : Outcome comp Q E)
    (rest : ∀ value, comp = .ok value → Q value → Outcome (next value) S E) :
    Outcome (comp >>= next) S E := by
  cases comp with
  | ok value => exact rest value rfl first
  | error err => exact first

end Outcome

end FreeToken
