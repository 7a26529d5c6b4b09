/-
**Prefix codes and their tables.**
-/

import Mathlib.Algebra.Order.BigOperators.Group.List
import Mathlib.Tactic.Ring

namespace FreeToken.PrefixCode

open List

variable {α β : Type}

/-- A symbol with its code and the length of the code. Among the words of `L` bits, those that begin
with a code are an interval, from its `base` on. -/
structure Code (α : Type) where
  symbol : α
  code : Nat
  length : Nat
  deriving DecidableEq, Repr

namespace Code

variable (L : Nat) (code : Code α)

def base : Nat := code.code <<< (L - code.length)
def span : Nat := 1 <<< (L - code.length)

def Covers (v : Nat) : Prop := code.base L ≤ v ∧ v < code.base L + code.span L

instance (v : Nat) : Decidable (code.Covers L v) := inferInstanceAs (Decidable (_ ∧ _))

theorem base_eq : code.base L = code.code * 2 ^ (L - code.length) := Nat.shiftLeft_eq ..

theorem span_eq : code.span L = 2 ^ (L - code.length) := by
  unfold span
  rw [Nat.shiftLeft_eq, one_mul]

end Code

/-- The intervals follow one another without gaps. -/
inductive Consecutive (L : Nat) : Nat → List (Code α) → Prop
  | nil (base : Nat) : Consecutive L base []
  | cons {code : Code α} {codes : List (Code α)} (short : code.length ≤ L)
      (later : Consecutive L (code.base L + code.span L) codes) :
      Consecutive L (code.base L) (code :: codes)

def spans (L : Nat) (codes : List (Code α)) : Nat := (codes.map fun code => code.span L).sum

/-- The table, written interval by interval. -/
def fill (L : Nat) (entry : Code α → β) (codes : List (Code α)) (table : Nat → β) : Nat → β :=
  codes.foldl (fun table code v => if code.Covers L v then entry code else table v) table

theorem fill_cases (L : Nat) (entry : Code α → β) (codes : List (Code α)) (table : Nat → β) (v : Nat) :
    fill L entry codes table v = table v ∨ ∃ code ∈ codes, fill L entry codes table v = entry code := by
  unfold fill
  induction codes generalizing table with
  | nil => exact .inl rfl
  | cons code codes ih =>
    rw [foldl_cons]
    rcases ih fun v => if code.Covers L v then entry code else table v with kept | ⟨other, isCode, same⟩
    · rw [kept]
      split
      · exact .inr ⟨code, mem_cons_self, rfl⟩
      · exact .inl rfl
    · exact .inr ⟨other, mem_cons_of_mem _ isCode, same⟩

section Intervals

variable {L base : Nat} {codes : List (Code α)} {code : Code α}

theorem spans_cons : spans L (code :: codes) = code.span L + spans L codes := by
  unfold spans
  rw [map_cons, sum_cons]

theorem Consecutive.uncons (consecutive : Consecutive L base (code :: codes)) :
    base = code.base L ∧ code.length ≤ L ∧ Consecutive L (code.base L + code.span L) codes := by
  cases consecutive with
  | cons short later => exact ⟨rfl, short, later⟩

theorem Consecutive.within (consecutive : Consecutive L base codes) (mem : code ∈ codes) :
    code.length ≤ L ∧ base ≤ code.base L ∧ code.base L + code.span L ≤ base + spans L codes := by
  induction consecutive with
  | nil => exact absurd mem not_mem_nil
  | @cons head codes short later ih =>
    rw [spans_cons]
    rcases mem_cons.mp mem with rfl | mem
    · exact ⟨short, le_rfl, by omega⟩
    · obtain ⟨shorter, lower, upper⟩ := ih mem
      exact ⟨shorter, by omega, by omega⟩

theorem Consecutive.fits (consecutive : Consecutive L 0 codes) (kraft : spans L codes ≤ 2 ^ L)
    (mem : code ∈ codes) : code.code < 2 ^ code.length := by
  obtain ⟨short, -, upper⟩ := consecutive.within mem
  rw [zero_add, code.base_eq, code.span_eq, ← Nat.succ_mul] at upper
  have whole : 2 ^ code.length * 2 ^ (L - code.length) = 2 ^ L := by
    rw [← pow_add, Nat.add_sub_cancel' short]
  have below : (code.code + 1) * 2 ^ (L - code.length) ≤ 2 ^ code.length * 2 ^ (L - code.length) :=
    upper.trans (kraft.trans whole.ge)
  exact le_of_mul_le_mul_right below (Nat.two_pow_pos _)

theorem Consecutive.apart {pre after : List (Code α)}
    (consecutive : Consecutive L base (pre ++ code :: after)) {v : Nat}
    (covers : code.Covers L v) :
    (∀ other ∈ pre, ¬other.Covers L v) ∧ ∀ other ∈ after, ¬other.Covers L v := by
  induction pre generalizing base with
  | nil =>
    obtain ⟨-, -, later⟩ := Consecutive.uncons consecutive
    refine ⟨nofun, fun other mem covered => ?_⟩
    have lower := (later.within mem).2.1
    unfold Code.Covers at covers covered
    omega
  | cons head pre ih =>
    obtain ⟨-, -, later⟩ := Consecutive.uncons consecutive
    obtain ⟨prev, behind⟩ := ih later
    refine ⟨fun other mem => ?_, behind⟩
    rcases mem_cons.mp mem with rfl | mem
    · intro covered
      have lower := (later.within (mem_append_right pre mem_cons_self)).2.1
      unfold Code.Covers at covers covered
      omega
    · exact prev other mem

/-- No code then begins another. -/
theorem Consecutive.prefix_free {pre after : List (Code α)}
    (consecutive : Consecutive L base (pre ++ code :: after)) {other : Code α}
    (mem : other ∈ pre ++ after) (shorter : other.length ≤ code.length) :
    code.code >>> (code.length - other.length) ≠ other.code := by
  intro same
  have short := (consecutive.within (mem_append_right pre mem_cons_self)).1
  have covers : code.Covers L (code.base L) :=
    ⟨le_rfl, Nat.lt_add_of_pos_right (by rw [code.span_eq]; exact Nat.two_pow_pos _)⟩
  have covered : other.Covers L (code.base L) := by
    have exponent : L - other.length = (code.length - other.length) + (L - code.length) := by omega
    have whole := Nat.div_add_mod code.code (2 ^ (code.length - other.length))
    have rest := Nat.mod_lt code.code (Nat.two_pow_pos (code.length - other.length))
    rw [Nat.shiftRight_eq_div_pow] at same
    rw [same] at whole
    unfold Code.Covers
    rw [other.base_eq, other.span_eq, code.base_eq, exponent, pow_add, ← Nat.mul_assoc, ← Nat.add_mul]
    refine ⟨Nat.mul_le_mul_right _ ?_, Nat.mul_lt_mul_of_pos_right ?_ (Nat.two_pow_pos _)⟩
    · rw [Nat.mul_comm]
      omega
    · rw [Nat.mul_comm]
      omega
  obtain ⟨prev, behind⟩ := consecutive.apart covers
  rcases mem_append.mp mem with mem | mem
  · exact prev other mem covered
  · exact behind other mem covered

theorem Consecutive.other {other : Code α} (consecutive : Consecutive L base codes)
    (isCode : code ∈ codes) (isOther : other ∈ codes) (ne : other.symbol ≠ code.symbol) :
    (other.length ≤ code.length → code.code >>> (code.length - other.length) ≠ other.code) ∧
      ∀ v, code.Covers L v → ¬other.Covers L v := by
  obtain ⟨pre, after, rfl⟩ := append_of_mem isCode
  have elsewhere : other ∈ pre ∨ other ∈ after := by
    rcases mem_append.mp isOther with early | late
    · exact .inl early
    · rcases mem_cons.mp late with rfl | late
      · exact absurd rfl ne
      · exact .inr late
  refine ⟨consecutive.prefix_free (mem_append.mpr elsewhere), fun v covers => ?_⟩
  exact elsewhere.elim ((consecutive.apart covers).1 other) ((consecutive.apart covers).2 other)

theorem Consecutive.covered (consecutive : Consecutive L base codes) {v : Nat} (low : base ≤ v)
    (high : v < base + spans L codes) : ∃ code ∈ codes, code.Covers L v := by
  induction consecutive with
  | nil => exact absurd (high.trans_le (le_of_eq (add_zero _))) (not_lt.mpr low)
  | @cons head codes short later ih =>
    rw [spans_cons] at high
    by_cases here : v < head.base L + head.span L
    · exact ⟨head, mem_cons_self, low, here⟩
    · obtain ⟨code, isCode, covers⟩ := ih (by omega) (by omega)
      exact ⟨code, mem_cons_of_mem _ isCode, covers⟩

theorem fill_other {entry : Code α → β} {table : Nat → β} {v : Nat}
    (other : ∀ code ∈ codes, ¬code.Covers L v) : fill L entry codes table v = table v := by
  induction codes generalizing table with
  | nil => rfl
  | cons head codes ih =>
    change fill L entry codes _ v = _
    rw [ih fun code mem => other code (mem_cons_of_mem _ mem)]
    exact if_neg (other head mem_cons_self)

/-- What the table holds. -/
theorem fill_apply {entry : Code α → β} {table : Nat → β} {v : Nat}
    (consecutive : Consecutive L base codes) (mem : code ∈ codes) (covers : code.Covers L v) :
    fill L entry codes table v = entry code := by
  obtain ⟨pre, after, rfl⟩ := append_of_mem mem
  obtain ⟨-, behind⟩ := consecutive.apart covers
  unfold fill
  rw [foldl_append, foldl_cons]
  change fill L entry after _ v = _
  rw [fill_other behind]
  exact if_pos covers

end Intervals

/-! ### Trees -/

inductive CodeTree (α : Type) where
  | leaf (symbol : α)
  | node (left right : CodeTree α)
  deriving DecidableEq, Repr

variable (tree : CodeTree α)

namespace CodeTree

def leaves : CodeTree α → Nat → List (α × Nat)
  | leaf symbol, depth => [(symbol, depth)]
  | node left right, depth => left.leaves (depth + 1) ++ right.leaves (depth + 1)

def height : CodeTree α → Nat
  | leaf _ => 0
  | node left right => max left.height right.height + 1

def symbols : CodeTree α → List α
  | leaf symbol => [symbol]
  | node left right => left.symbols ++ right.symbols

theorem leaves_symbols (depth : Nat) : (tree.leaves depth).map Prod.fst = tree.symbols := by
  induction tree generalizing depth with
  | leaf => rfl
  | node left right ihLeft ihRight => rw [leaves, map_append, ihLeft, ihRight, symbols]

theorem leaves_bounds (depth : Nat) :
    ∀ leaf ∈ tree.leaves depth, depth ≤ leaf.2 ∧ leaf.2 ≤ depth + tree.height := by
  induction tree generalizing depth with
  | leaf symbol =>
    intro leaf mem
    rw [mem_singleton.mp mem]
    exact ⟨le_rfl, le_rfl⟩
  | node left right ihLeft ihRight =>
    intro leaf mem
    rw [height]
    rcases mem_append.mp mem with mem | mem
    · have bounds := ihLeft (depth + 1) leaf mem
      omega
    · have bounds := ihRight (depth + 1) leaf mem
      omega

theorem kraft {depth L : Nat} (deep : ∀ leaf ∈ tree.leaves depth, leaf.2 ≤ L) :
    ((tree.leaves depth).map fun leaf => 2 ^ (L - leaf.2)).sum = 2 ^ (L - depth) := by
  induction tree generalizing depth with
  | leaf => simp [leaves]
  | node left right ihLeft ihRight =>
    have deepLeft := fun leaf mem => deep leaf (mem_append_left _ mem)
    have deepRight := fun leaf mem => deep leaf (mem_append_right _ mem)
    have below : depth + 1 ≤ L := by
      obtain ⟨leaf, mem⟩ : ∃ leaf, leaf ∈ left.leaves (depth + 1) := by
        have some : left.symbols ≠ [] := by
          clear ihLeft deepLeft deep
          induction left with
          | leaf => exact cons_ne_nil _ _
          | node left right ih => exact fun none => ih (append_eq_nil_iff.mp none).1
        rw [← leaves_symbols left (depth + 1)] at some
        exact exists_mem_of_ne_nil _ fun none => some (by rw [none]; rfl)
      exact ((leaves_bounds left (depth + 1)) leaf mem).1.trans (deepLeft leaf mem)
    have exponent : L - depth = L - (depth + 1) + 1 := by omega
    rw [leaves, map_append, sum_append, ihLeft deepLeft, ihRight deepRight, exponent, pow_succ]
    ring

end CodeTree

end FreeToken.PrefixCode
