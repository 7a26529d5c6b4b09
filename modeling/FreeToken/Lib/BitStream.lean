/-
**Codes packed into words.**

Codes of different lengths are written one after another, the high bit first, into words of one
width. A code that does not fit its word is split over two. The words are sums: each code adds its
high part to one word and its low part to the next, in any order.
-/

import Mathlib.Algebra.BigOperators.Ring.List
import Mathlib.Algebra.Order.BigOperators.Group.List
import Mathlib.Tactic.Ring
import Mathlib.Tactic.Linarith

namespace FreeToken.BitStream

open List

/-- A code of some bits, to be written from the bit `offset` on. -/
structure Item where
  offset : Nat
  code : Nat
  length : Nat
  deriving DecidableEq, Repr

namespace Item

variable (W : Nat) (item : Item)

def inWord : Nat := min item.length (W - item.offset % W)
def rest : Nat := item.length - item.inWord W

def high : Nat := (item.code >>> item.rest W) <<< (W - item.offset % W - item.inWord W)
def low : Nat := (item.code &&& ((1 <<< item.rest W) - 1)) <<< (W - item.rest W)

def part (w : Nat) : Nat :=
  (if item.offset / W = w then item.high W else 0) + if item.offset / W + 1 = w then item.low W else 0

end Item

/-- What the codes add up to in a word. -/
def word (W : Nat) (items : List Item) (w : Nat) : Nat := (items.map fun item => item.part W w).sum

/-- The codes lie one behind the other from a bit on, and each fits a word. -/
inductive Laid (W : Nat) : Nat → List Item → Prop
  | nil (start : Nat) : Laid W start []
  | cons {item : Item} {items : List Item} (fits : item.code < 2 ^ item.length)
      (short : item.length ≤ W) (later : Laid W (item.offset + item.length) items) :
      Laid W item.offset (item :: items)

def value (words : Nat → Nat) (W : Nat) : Nat → Nat
  | 0 => 0
  | n + 1 => value words W n * 2 ^ W + words n

section Parts

variable {W : Nat} {item : Item}

theorem part_here : item.part W (item.offset / W) = item.high W := by
  unfold Item.part
  rw [if_pos rfl, if_neg (by omega), add_zero]

theorem part_next : item.part W (item.offset / W + 1) = item.low W := by
  unfold Item.part
  rw [if_neg (by omega), if_pos rfl, zero_add]

theorem part_other {w : Nat} (notHere : w ≠ item.offset / W) (notNext : w ≠ item.offset / W + 1) :
    item.part W w = 0 := by
  unfold Item.part
  rw [if_neg notHere.symm, if_neg notNext.symm]

theorem parts_of_inside (lt : item.offset % W + item.length ≤ W) :
    item.rest W = 0 ∧ item.high W = item.code * 2 ^ (W - item.offset % W - item.length) ∧
      item.low W = 0 := by
  have all : item.inWord W = item.length := by unfold Item.inWord; omega
  have none : item.rest W = 0 := by unfold Item.rest; omega
  refine ⟨none, ?_, ?_⟩
  · unfold Item.high
    rw [none, all, Nat.shiftRight_zero, Nat.shiftLeft_eq]
  · unfold Item.low
    rw [none, Nat.shiftLeft_zero, Nat.sub_self, Nat.and_zero, Nat.zero_shiftLeft]

theorem parts_of_across (across : W < item.offset % W + item.length) (pos : 0 < W) :
    item.rest W = item.offset % W + item.length - W ∧ item.high W = item.code / 2 ^ item.rest W ∧
      item.low W = item.code % 2 ^ item.rest W * 2 ^ (W - item.rest W) := by
  have below := Nat.mod_lt item.offset pos
  have filled : item.inWord W = W - item.offset % W := by unfold Item.inWord; omega
  refine ⟨by unfold Item.rest; omega, ?_, ?_⟩
  · unfold Item.high
    rw [filled, Nat.sub_self, Nat.shiftLeft_zero, Nat.shiftRight_eq_div_pow]
  · unfold Item.low
    rw [Nat.shiftLeft_eq, Nat.shiftLeft_eq, Nat.one_mul, Nat.and_two_pow_sub_one_eq_mod]

theorem parts_eq (short : item.length ≤ W) (pos : 0 < W) : item.high W * 2 ^ W + item.low W =
      item.code * 2 ^ (2 * W - item.offset % W - item.length) := by
  have below := Nat.mod_lt item.offset pos
  rcases lt_or_ge W (item.offset % W + item.length) with across | lt
  · obtain ⟨rest, high, low⟩ := parts_of_across across pos
    have split : (2 : Nat) ^ W = 2 ^ item.rest W * 2 ^ (W - item.rest W) := by
      rw [← pow_add, Nat.add_sub_cancel' (by omega)]
    have exponent : 2 * W - item.offset % W - item.length = W - item.rest W := by omega
    rw [high, low, exponent, split, ← mul_assoc, ← add_mul, Nat.div_add_mod' item.code]
  · obtain ⟨-, high, low⟩ := parts_of_inside lt
    have exponent : 2 * W - item.offset % W - item.length =
        W - item.offset % W - item.length + W := by omega
    rw [high, low, exponent, pow_add, add_zero, mul_assoc]

theorem code_bit {code length place i : Nat} (fits : code < 2 ^ length)
    (isSet : (code * 2 ^ place).testBit i = true) : place ≤ i ∧ i < place + length := by
  rw [Nat.testBit_mul_two_pow, Bool.and_eq_true, decide_eq_true_iff] at isSet
  have lt : i - place < length := by
    by_contra beyond
    have least : 2 ^ length ≤ 2 ^ (i - place) := Nat.pow_le_pow_right (by decide) (by omega)
    have none := Nat.testBit_lt_two_pow (fits.trans_le least)
    rw [none] at isSet
    exact absurd isSet.2 (by decide)
  exact ⟨isSet.1, by omega⟩

theorem part_bit (fits : item.code < 2 ^ item.length) (short : item.length ≤ W) (pos : 0 < W)
    {w b : Nat} (isSet : (item.part W w).testBit b = true) :
    b < W ∧ item.offset ≤ w * W + (W - 1 - b) ∧
      w * W + (W - 1 - b) < item.offset + item.length := by
  have below := Nat.mod_lt item.offset pos
  have whole := Nat.div_add_mod item.offset W
  have both := parts_eq short pos
  have lowSmall : item.low W < 2 ^ W := by
    rcases Nat.lt_or_ge W (item.offset % W + item.length) with across | lt
    · obtain ⟨rest, -, low⟩ := parts_of_across across pos
      have most : item.code % 2 ^ item.rest W * 2 ^ (W - item.rest W) <
          2 ^ item.rest W * 2 ^ (W - item.rest W) :=
        Nat.mul_lt_mul_of_pos_right (Nat.mod_lt _ (Nat.two_pow_pos _)) (Nat.two_pow_pos _)
      rwa [← pow_add, Nat.add_sub_cancel' (by omega), ← low] at most
    · rw [(parts_of_inside lt).2.2]
      exact Nat.two_pow_pos W
  by_cases here : w = item.offset / W
  · subst here
    rw [part_here] at isSet
    have placed : (item.high W * 2 ^ W + item.low W).testBit (b + W) = true := by
      rw [Nat.mul_comm, Nat.testBit_two_pow_mul_add _ lowSmall, if_neg (by omega),
        Nat.add_sub_cancel]
      exact isSet
    rw [both] at placed
    have bounds := code_bit fits placed
    rw [Nat.mul_comm] at whole
    omega
  · by_cases next : w = item.offset / W + 1
    · subst next
      rw [part_next] at isSet
      have small : b < W := by
        by_contra beyond
        have least : 2 ^ W ≤ 2 ^ b := Nat.pow_le_pow_right (by decide) (by omega)
        rw [Nat.testBit_lt_two_pow (lowSmall.trans_le least)] at isSet
        exact absurd isSet (by decide)
      have placed : (item.high W * 2 ^ W + item.low W).testBit b = true := by
        rw [Nat.mul_comm, Nat.testBit_two_pow_mul_add _ lowSmall, if_pos small]
        exact isSet
      rw [both] at placed
      have bounds := code_bit fits placed
      rw [Nat.mul_comm] at whole
      rw [Nat.succ_mul]
      omega
    · rw [part_other here next, Nat.zero_testBit] at isSet
      exact absurd isSet (by decide)

end Parts

section Words

variable {W : Nat} {item : Item} {items : List Item} {start : Nat}

@[simp] theorem word_nil (w : Nat) : word W [] w = 0 := rfl

theorem word_cons (w : Nat) : word W (item :: items) w = item.part W w + word W items w := by
  unfold word
  rw [map_cons, sum_cons]

theorem word_append {other : List Item} (w : Nat) :
    word W (items ++ other) w = word W items w + word W other w := by
  unfold word
  rw [map_append, sum_append]

theorem word_perm {other : List Item} (perm : items.Perm other) (w : Nat) :
    word W items w = word W other w :=
  (perm.map _).sum_eq

theorem word_before (laid : Laid W start items) {w : Nat} (pre : w < start / W) :
    word W items w = 0 := by
  induction laid with
  | nil => rfl
  | @cons item items fits short later ih =>
    have mono : item.offset / W ≤ (item.offset + item.length) / W :=
      Nat.div_le_div_right (Nat.le_add_right _ _)
    rw [word_cons, ih (Nat.lt_of_lt_of_le pre mono), part_other (by omega) (by omega)]

/-- **The parts do not overlap**: the first word has room before the first code, and no word
overflows. -/
theorem word_room (laid : Laid W start items) (pos : 0 < W) :
    word W items (start / W) < 2 ^ (W - start % W) ∧ ∀ w, word W items w < 2 ^ W := by
  induction laid with
  | nil start => exact ⟨Nat.two_pow_pos _, fun w => Nat.two_pow_pos _⟩
  | @cons item items fits short later ih =>
    obtain ⟨first, every⟩ := ih
    have below := Nat.mod_lt item.offset pos
    have whole := Nat.div_add_mod item.offset W
    have room : word W (item :: items) (item.offset / W) < 2 ^ (W - item.offset % W) ∧
        word W (item :: items) (item.offset / W + 1) < 2 ^ W := by
      rw [word_cons, word_cons, part_here, part_next]
      rcases Nat.lt_or_ge (item.offset % W + item.length) W with lt | beyond
      · -- the next code starts in the same word
        obtain ⟨-, high, low⟩ := parts_of_inside lt.le
        have place : item.offset + item.length =
            W * (item.offset / W) + (item.offset % W + item.length) := by omega
        rw [place, Nat.mul_add_div pos, Nat.div_eq_of_lt lt, Nat.add_zero,
          Nat.mul_add_mod, Nat.mod_eq_of_lt lt] at first
        have split : (2 : Nat) ^ (W - item.offset % W) =
            2 ^ item.length * 2 ^ (W - item.offset % W - item.length) := by
          rw [← pow_add, Nat.add_sub_cancel' (by omega)]
        have exponent : W - (item.offset % W + item.length) =
            W - item.offset % W - item.length := by omega
        rw [exponent] at first
        have most : (item.code + 1) * 2 ^ (W - item.offset % W - item.length) ≤
            2 ^ item.length * 2 ^ (W - item.offset % W - item.length) :=
          Nat.mul_le_mul_right _ fits
        rw [Nat.succ_mul] at most
        rw [high, low, Nat.zero_add, split]
        exact ⟨by omega, every _⟩
      · -- the next code starts in the next word
        have next : (item.offset + item.length) / W = item.offset / W + 1 ∧
            (item.offset + item.length) % W = item.offset % W + item.length - W := by
          refine (Nat.div_mod_unique pos).mpr ⟨?_, by omega⟩
          rw [Nat.mul_add, Nat.mul_one]
          omega
        have nothing : word W items (item.offset / W) = 0 :=
          word_before later (by rw [next.1]; omega)
        rw [nothing, Nat.add_zero]
        rw [next.1, next.2] at first
        rcases Nat.lt_or_ge W (item.offset % W + item.length) with across | exactly
        · obtain ⟨rest, high, low⟩ := parts_of_across across pos
          have highFits : item.code / 2 ^ item.rest W < 2 ^ (W - item.offset % W) := by
            rw [Nat.div_lt_iff_lt_mul (Nat.two_pow_pos _), ← pow_add]
            exact fits.trans_le (Nat.pow_le_pow_right (by omega) (by omega))
          have lowFits : (item.code % 2 ^ item.rest W + 1) * 2 ^ (W - item.rest W) ≤
              2 ^ item.rest W * 2 ^ (W - item.rest W) :=
            Nat.mul_le_mul_right _ (Nat.mod_lt _ (Nat.two_pow_pos _))
          rw [← pow_add, Nat.add_sub_cancel' (by omega), Nat.succ_mul] at lowFits
          rw [← rest] at first
          rw [high, low]
          exact ⟨highFits, by omega⟩
        · obtain ⟨-, high, low⟩ := parts_of_inside exactly
          have fills : W - item.offset % W = item.length := by omega
          rw [high, low, Nat.zero_add, fills, Nat.sub_self, pow_zero, Nat.mul_one]
          exact ⟨fits, every _⟩
    refine ⟨room.1, fun w => ?_⟩
    by_cases here : w = item.offset / W
    · subst here
      exact room.1.trans_le (Nat.pow_le_pow_right (by omega) (by omega))
    · by_cases next : w = item.offset / W + 1
      · subst next
        exact room.2
      · rw [word_cons, part_other here next, Nat.zero_add]
        exact every w

/-- No two codes set the same bit. -/
theorem parts_disjoint (laid : Laid W start items) (pos : 0 < W) :
    items.Pairwise fun first second => ∀ w, first.part W w &&& second.part W w = 0 := by
  have behind : ∀ {start items}, Laid W start items →
      ∀ other ∈ items, start ≤ other.offset ∧ other.code < 2 ^ other.length ∧ other.length ≤ W := by
    intro start items laid
    induction laid with
    | nil => nofun
    | @cons item items fits short later ih =>
      intro other mem
      rcases mem_cons.mp mem with rfl | mem
      · exact ⟨le_rfl, fits, short⟩
      · exact ⟨(Nat.le_add_right _ _).trans (ih other mem).1, (ih other mem).2⟩
  induction laid with
  | nil => exact .nil
  | @cons item items fits short later ih =>
    refine .cons (fun other mem w => ?_) ih
    obtain ⟨after, otherFits, otherShort⟩ := behind later other mem
    apply Nat.eq_of_testBit_eq
    intro b
    rw [Nat.testBit_and, Nat.zero_testBit, Bool.and_eq_false_iff]
    by_contra bothSet
    rw [not_or, Bool.not_eq_false, Bool.not_eq_false] at bothSet
    have first := part_bit fits short pos bothSet.1
    have second := part_bit otherFits otherShort pos bothSet.2
    omega

/-- No word overflows. -/
theorem word_lt (laid : Laid W start items) (pos : 0 < W) (w : Nat) : word W items w < 2 ^ W :=
  (word_room laid pos).2 w

end Words

section Value

variable {W : Nat} {item : Item} {items pre after : List Item} {start : Nat} {words : Nat → Nat}

theorem value_succ (n : Nat) : value words W (n + 1) = value words W n * 2 ^ W + words n := rfl

theorem value_add (first second : Nat → Nat) (n : Nat) :
    value (fun w => first w + second w) W n = value first W n + value second W n := by
  induction n with
  | zero => rfl
  | succ n ih =>
    rw [value_succ, value_succ, value_succ, ih]
    ring

theorem value_part (short : item.length ≤ W) (pos : 0 < W) (more : Nat) :
    value (item.part W) W (item.offset / W + 2 + more) =
      item.code * 2 ^ (W * (item.offset / W + 2 + more) - item.offset - item.length) := by
  have pre : ∀ n ≤ item.offset / W, value (item.part W) W n = 0 := by
    intro n
    induction n with
    | zero => exact fun _ => rfl
    | succ n ih =>
      intro bound
      rw [value_succ, ih (by omega), part_other (by omega) (by omega), Nat.zero_mul]
  have here : value (item.part W) W (item.offset / W + 2) = item.high W * 2 ^ W + item.low W := by
    rw [value_succ, value_succ, pre _ le_rfl, part_here, part_next]
    ring
  have later : value (item.part W) W (item.offset / W + 2 + more) =
      (item.high W * 2 ^ W + item.low W) * 2 ^ (W * more) := by
    induction more with
    | zero => rw [add_zero, here, Nat.mul_zero, pow_zero, mul_one]
    | succ more ih =>
      rw [← add_assoc]
      rw [value_succ, ih, part_other (by omega) (by omega), Nat.mul_succ, pow_add]
      ring
  have whole := Nat.div_add_mod item.offset W
  have below := Nat.mod_lt item.offset pos
  rw [later, parts_eq short pos, mul_assoc, ← pow_add, mul_add, mul_add]
  congr 2
  omega

theorem value_word (laid : Laid W start items) (pos : 0 < W) {n : Nat}
    (within : ∀ item ∈ items, item.offset / W + 2 ≤ n) :
    value (word W items) W n =
      (items.map fun item => item.code * 2 ^ (W * n - item.offset - item.length)).sum := by
  induction laid with
  | nil =>
    clear within
    induction n with
    | zero => rfl
    | succ n ih =>
      rw [value_succ, ih]
      simp
  | @cons item items fits short later ih =>
    have split : word W (item :: items) = fun w => item.part W w + word W items w :=
      funext word_cons
    obtain ⟨more, reach⟩ := Nat.exists_eq_add_of_le (within item mem_cons_self)
    rw [split, value_add, ih fun other mem => within other (mem_cons_of_mem _ mem),
      map_cons, sum_cons, reach, value_part short pos]

theorem value_div (small : ∀ w, words w < 2 ^ W) (n more : Nat) :
    value words W (n + more) / 2 ^ (W * more) = value words W n := by
  induction more with
  | zero => rw [Nat.add_zero, Nat.mul_zero, pow_zero, Nat.div_one]
  | succ more ih =>
    rw [← Nat.add_assoc, Nat.mul_succ, Nat.add_comm (W * more), pow_add,
      ← Nat.div_div_eq_div_mul, value_succ, Nat.add_comm, Nat.mul_comm,
      Nat.add_mul_div_left _ _ (Nat.two_pow_pos _), Nat.div_eq_of_lt (small _), Nat.zero_add, ih]

theorem window_eq (small : ∀ w, words w < 2 ^ W) (w : Nat) :
    words w * 2 ^ W + words (w + 1) = value words W (w + 2) % 2 ^ (2 * W) := by
  have first := small w
  have second := small (w + 1)
  have split : value words W (w + 2) =
      2 ^ (2 * W) * value words W w + (words w * 2 ^ W + words (w + 1)) := by
    rw [value_succ, value_succ, Nat.two_mul, pow_add]
    ring
  have both : (words w + 1) * 2 ^ W ≤ 2 ^ W * 2 ^ W := Nat.mul_le_mul_right _ first
  rw [Nat.succ_mul, ← pow_add, ← Nat.two_mul] at both
  rw [split, Nat.mul_add_mod, Nat.mod_eq_of_lt (by omega)]

theorem laid_cons (laid : Laid W start (item :: items)) :
    start = item.offset ∧ item.code < 2 ^ item.length ∧ item.length ≤ W ∧
      Laid W (item.offset + item.length) items := by
  cases laid with
  | cons fits short later => exact ⟨rfl, fits, short, later⟩

theorem laid_split (laid : Laid W start (pre ++ item :: after)) :
    (∀ other ∈ pre, start ≤ other.offset ∧ other.offset + other.length ≤ item.offset) ∧
      start ≤ item.offset ∧ Laid W item.offset (item :: after) := by
  induction pre generalizing start with
  | nil =>
    cases laid with
    | cons fits short later => exact ⟨nofun, le_rfl, .cons fits short later⟩
  | cons head pre ih =>
    cases laid with
    | cons fits short later =>
      obtain ⟨prev, reach, here⟩ := ih later
      refine ⟨fun other mem => ?_, (Nat.le_add_right _ _).trans reach, here⟩
      rcases mem_cons.mp mem with rfl | mem
      · exact ⟨le_rfl, reach⟩
      · exact ⟨(Nat.le_add_right _ _).trans (prev other mem).1, (prev other mem).2⟩

theorem sum_lt (laid : Laid W start items) {N : Nat}
    (within : ∀ item ∈ items, item.offset + item.length ≤ N) (lt : start ≤ N) :
    (items.map fun item => item.code * 2 ^ (N - item.offset - item.length)).sum <
      2 ^ (N - start) := by
  induction laid with
  | nil => exact Nat.two_pow_pos _
  | @cons item items fits short later ih =>
    have here := within item mem_cons_self
    have rest := ih (fun other mem => within other (mem_cons_of_mem _ mem)) here
    have most : (item.code + 1) * 2 ^ (N - (item.offset + item.length)) ≤
        2 ^ item.length * 2 ^ (N - (item.offset + item.length)) :=
      Nat.mul_le_mul_right _ fits
    have exponent : item.length + (N - (item.offset + item.length)) = N - item.offset := by omega
    rw [← pow_add, exponent, Nat.succ_mul] at most
    rw [map_cons, sum_cons, Nat.sub_sub]
    omega

theorem window_shift (small : ∀ w, words w < 2 ^ W) {o peek : Nat} (fit : o + peek ≤ 2 * W)
    (w more : Nat) :
    (words w * 2 ^ W + words (w + 1)) / 2 ^ (2 * W - o - peek) % 2 ^ peek =
      value words W (w + 2 + more) / 2 ^ (W * more + (2 * W - o - peek)) % 2 ^ peek := by
  have shift : 2 ^ (2 * W) = 2 ^ (2 * W - o - peek) * 2 ^ (peek + o) := by
    rw [← pow_add]
    congr 1
    omega
  rw [window_eq small, shift, Nat.mod_mul_right_div_self,
    Nat.mod_mod_of_dvd _ (Nat.pow_dvd_pow 2 (Nat.le_add_right _ _)), pow_add,
    ← Nat.div_div_eq_div_mul, value_div small]

theorem cut_code {code length peek D front back : Nat} (fits : code < 2 ^ length)
    (wide : length ≤ peek) (tail : back < 2 ^ (D + (peek - length))) :
    ∃ rest < 2 ^ (peek - length),
      (2 ^ (D + peek) * front + (code * 2 ^ (D + (peek - length)) + back)) / 2 ^ D % 2 ^ peek =
        code * 2 ^ (peek - length) + rest := by
  have small : back / 2 ^ D < 2 ^ (peek - length) := by
    rw [Nat.div_lt_iff_lt_mul (Nat.two_pow_pos _), ← pow_add, Nat.add_comm]
    exact tail
  have split : 2 ^ (D + peek) * front + (code * 2 ^ (D + (peek - length)) + back) =
      back + 2 ^ D * (2 ^ peek * front + code * 2 ^ (peek - length)) := by
    rw [pow_add, pow_add]
    ring
  have most : (code + 1) * 2 ^ (peek - length) ≤ 2 ^ length * 2 ^ (peek - length) :=
    Nat.mul_le_mul_right _ fits
  rw [← pow_add, Nat.add_sub_cancel' wide, Nat.succ_mul] at most
  refine ⟨back / 2 ^ D, small, ?_⟩
  rw [split, Nat.add_mul_div_left _ _ (Nat.two_pow_pos _), Nat.add_comm, Nat.add_assoc,
    Nat.mul_add_mod, Nat.mod_eq_of_lt (by omega)]

/-- **A code is found at its place.** Two words from its own on, shifted to its place and cut to as
many bits as the longest code has, hold the code in front of what follows it. -/
theorem window_item (laid : Laid W start (pre ++ item :: after)) (pos : 0 < W) {peek : Nat}
    (wide : item.length ≤ peek) (fit : item.offset % W + peek ≤ 2 * W) :
    let words := word W (pre ++ item :: after)
    ∃ rest < 2 ^ (peek - item.length),
      (words (item.offset / W) * 2 ^ W + words (item.offset / W + 1)) /
          2 ^ (2 * W - item.offset % W - peek) % 2 ^ peek =
        item.code * 2 ^ (peek - item.length) + rest := by
  intro words
  obtain ⟨prev, -, here⟩ := laid_split laid
  obtain ⟨-, fits, short, later⟩ := laid_cons here
  have small : ∀ w, words w < 2 ^ W := word_lt laid pos
  have whole := Nat.div_add_mod item.offset W
  -- enough words for every code
  let more := ((pre ++ item :: after).map fun other => other.offset + other.length).sum
  have reach : ∀ other ∈ pre ++ item :: after, other.offset + other.length ≤ more :=
    fun other mem => le_sum_of_mem (mem_map_of_mem mem)
  have wider : more ≤ W * more := Nat.le_mul_of_pos_left more pos
  have width : W * (item.offset / W + 2 + more) = W * (item.offset / W) + 2 * W + W * more := by
    ring
  obtain ⟨N, isWidth⟩ : ∃ N, W * (item.offset / W + 2 + more) = N := ⟨_, rfl⟩
  have lt : ∀ other ∈ pre ++ item :: after, other.offset + other.length ≤ N := by
    intro other mem
    have bound := reach other mem
    omega
  have total : value words W (item.offset / W + 2 + more) = _ :=
    value_word laid pos fun other mem => by
      have bound := reach other mem
      have least := Nat.div_le_self other.offset W
      have pos := Nat.zero_le (item.offset / W)
      omega
  have tail := sum_lt later (fun other mem =>
    lt other (mem_append_right _ (mem_cons_of_mem _ mem)))
    (lt item (mem_append_right _ mem_cons_self))
  -- the codes before are multiples of the place of this one
  obtain ⟨front, isFront⟩ : 2 ^ (N - item.offset) ∣
      (pre.map fun other => other.code * 2 ^ (N - other.offset - other.length)).sum := by
    refine dvd_sum fun term mem => ?_
    obtain ⟨other, isOther, rfl⟩ := mem_map.mp mem
    have reach := (prev other isOther).2
    exact Dvd.dvd.mul_left (Nat.pow_dvd_pow 2 (by omega)) _
  rw [isWidth, map_append, sum_append, map_cons, sum_cons, isFront] at total
  obtain ⟨D, isPlace⟩ : ∃ D, N = item.offset + peek + D := ⟨N - item.offset - peek, by omega⟩
  have place : N - item.offset = D + peek := by omega
  have placeLater : N - (item.offset + item.length) = D + (peek - item.length) := by omega
  have placeCode : N - item.offset - item.length = D + (peek - item.length) := by omega
  have exponent : W * more + (2 * W - item.offset % W - peek) = D := by omega
  rw [placeCode, place] at total
  rw [placeLater] at tail
  rw [window_shift small fit _ more, exponent, total]
  exact cut_code fits wide tail

end Value

end FreeToken.BitStream
