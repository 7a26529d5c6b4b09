/-
**Page arithmetic and the slices the page table is read with.**
-/

import Mathlib.Data.List.TakeDrop
import Mathlib.Data.List.Range
import Mathlib.Data.Nat.ModEq
import Mathlib.Tactic.Ring
import Mathlib.Tactic.Linarith

namespace FreeToken

inductive Err where
  | assertion (msg : String)
  | runtime (msg : String)
  | notImplemented (msg : String)
  | index (msg : String)
  | value (msg : String)
  deriving DecidableEq, Repr

/-- `assert condition, message`. -/
def ensure (condition : Prop) [Decidable condition] (msg : String) : Except Err Unit :=
  if condition then .ok () else .error (.assertion msg)

theorem ensure_ok {condition : Prop} [Decidable condition] {msg : String} {done : Unit}
    (passed : ensure condition msg = .ok done) : condition := by
  unfold ensure at passed
  split at passed
  · assumption
  · cases passed

theorem ensure_of {condition : Prop} [Decidable condition] (holds : condition) (msg : String) :
    ensure condition msg = .ok () := if_pos holds

theorem bind_eq_ok {α β : Type} {first : Except Err α} {next : α → Except Err β} {res : β} :
    (first >>= next) = .ok res ↔ ∃ value, first = .ok value ∧ next value = .ok res := by
  cases first with
  | error _ => simp [bind, Except.bind]
  | ok value => simp [bind, Except.bind]

theorem pure_eq_ok {α : Type} {value res : α} :
    (pure value : Except Err α) = .ok res ↔ value = res := by
  simp [pure, Except.pure]

def divCeil (a b : Nat) : Nat := (a + b - 1) / b

/-- Aligns `a` to the previous multiple of `b`. -/
def alignDown (a b : Nat) : Nat := a / b * b

/-- `align_down` where the first argument may have become negative. -/
def alignDownInt (a : Int) (b : Nat) : Int := a / b * b

theorem alignDown_le (a b : Nat) : alignDown a b ≤ a := Nat.div_mul_le_self a b

theorem dvd_alignDown (a b : Nat) : b ∣ alignDown a b := Dvd.intro_left _ rfl

theorem le_alignDown {a b c : Nat} (aligned : b ∣ c) (below : c ≤ a) : c ≤ alignDown a b := by
  obtain ⟨k, rfl⟩ := aligned
  rcases Nat.eq_zero_or_pos b with rfl | pos
  · simp
  · have : k ≤ a / b := (Nat.le_div_iff_mul_le pos).mpr (by rw [Nat.mul_comm]; exact below)
    rw [alignDown, Nat.mul_comm]
    exact Nat.mul_le_mul_right _ this

theorem lt_alignDown_add (a : Nat) {b : Nat} (pos : 0 < b) : a < alignDown a b + b := by
  have := Nat.lt_div_mul_add (a := a) pos
  exact this

theorem dvd_min {a b c : Nat} (left : a ∣ b) (right : a ∣ c) : a ∣ min b c := by
  rcases min_choice b c with first | second
  · rw [first]
    exact left
  · rw [second]
    exact right

/-- `xs[i:j]`. -/
def slice {α : Type} (xs : List α) (i j : Nat) : List α := (xs.take j).drop i

@[simp] theorem slice_length {α : Type} (xs : List α) (i j : Nat) :
    (slice xs i j).length = min j xs.length - i := by
  simp [slice]

/-- `[X * page_size, ..., X * page_size + page_size - 1]` for each page, a page being named by its
first slot. -/
def pageToToken (ps : Nat) (pages : List Nat) : List Nat :=
  pages.flatMap fun page => (List.range ps).map (page + ·)

/-- `indices[::page_size]`. -/
def stride (ps : Nat) (indices : List Nat) : List Nat :=
  (List.range (divCeil indices.length ps)).filterMap fun i => indices[i * ps]?

end FreeToken
