/-
**The loop of a lane, without its buffer.**

* `laneFrom_windows`, `laneFrom_stores`: what it sees is what the reference peeks, and what it stores is
  what the reference decodes; `laneFrom_some`: when it comes to its end.
-/

import FreeToken.Kernel.Df11Chunks
import FreeToken.Kernel.Df11Refill

namespace FreeToken.Df11

open BitStream BitBuffer List Option

/-- A table for as many bits as the longest code, with codes no longer than that and symbols of a byte. -/
structure LutOk (lut : List Nat) (lmax : Nat) : Prop where
  size : lut.length = 2 ^ lmax
  short : ∀ entry ∈ lut, entry &&& 0xFF ≤ lmax
  byte : ∀ entry ∈ lut, entry >>> 8 < 256

def laneFrom (input : LaneInput) (lane : LanePlaces) : Nat → Nat → Nat → Option (List LaneStep)
  | 0, _, _ => some []
  | count + 1, i, pos => do
      let v ← peek input.stream input.lmax pos
      let combined ← loadAt input.lut (wrap32 v)
      let low ← masked (lane.storing i) (loadAt input.low8 (lane.source i)) 0
      let later ← laneFrom input lane count (i + 1) (pos + (combined &&& 0xFF))
      return ⟨pos, wrap32 v,
        if lane.storing i then some (lane.dest i, join (combined >>> 8) low) else none⟩ :: later

/-! ### Integers of 32 bits -/

theorem wrap32_of_lt {x : Nat} (small : x < 2 ^ 31) : wrap32 x = x := by
  unfold wrap32
  rw [BitVec.ofInt_natCast, ofNat_toInt_iff]
  exact small

theorem wrap32_neg {x : Nat} (large : 2 ^ 31 ≤ x) (within : x < 2 ^ 32) : wrap32 x < 0 := by
  unfold wrap32
  rw [BitVec.ofInt_natCast, BitVec.toInt_eq_toNat_cond, BitVec.toNat_ofNat, Nat.mod_eq_of_lt within]
  rw [if_neg (by omega)]
  omega

theorem loadAt_natCast {α : Type} (values : List α) (i : Nat) : loadAt values i = values[i]? := by
  unfold loadAt
  rw [if_pos (Int.natCast_nonneg i), Int.toNat_natCast]

theorem loadAt_neg {α : Type} (values : List α) {i : Int} (negative : i < 0) :
    loadAt values i = none :=
  if_neg (by omega)

section Lane

variable {input : LaneInput} {lane : LanePlaces} (ok : LutOk input.lut input.lmax)
  (narrow : input.lmax ≤ 32)

theorem byte_and {sym : Nat} (byte : sym < 256) : sym &&& 0xFF = sym := by
  have mask : sym &&& 0xFF = sym % 2 ^ 8 := Nat.and_two_pow_sub_one_eq_mod _ 8
  rw [mask, Nat.mod_eq_of_lt (show sym < 2 ^ 8 from byte)]

include ok narrow

/-- A lane that holds the stream from a bit on does just that. -/
theorem decodeLane_eq (valid : lane.valid = true) (count i : Nat) {buffer : BitBuffer}
    {pos w n : Nat} (holds : Holds input.stream buffer pos w n) :
    decodeLane input lane count i buffer = laneFrom input lane count i pos := by
  induction count generalizing i buffer pos w n with
  | zero => rfl
  | succ count ih =>
    obtain ⟨next, more, refilled, nextHolds, enough⟩ := refill_holds holds
    obtain ⟨v, -, peeked, isWindow⟩ := window_eq nextHolds enough narrow
    have place : next.position = pos := by
      have isBits := nextHolds.nbits
      have isWord := nextHolds.wordidx
      have isPlace := nextHolds.place
      unfold BitBuffer.position
      omega
    unfold decodeLane laneFrom
    rw [valid, refilled, peeked]
    simp only [bind_eq_bind, bind_some]
    rw [isWindow, place]
    cases loaded : loadAt input.lut (wrap32 v) with
    | none => rfl
    | some combined =>
      have mem : combined ∈ input.lut := by
        unfold loadAt at loaded
        split at loaded
        · exact mem_of_getElem? loaded
        · cases loaded
      have short := ok.short combined mem
      have rest := ih (i + 1) (drop_holds nextHolds (show combined &&& 0xFF ≤ _ by omega))
      simp only [bind_some]
      rw [rest, byte_and (ok.byte combined mem)]

omit narrow in
/-- A lane without a chunk stores nothing. -/
theorem decodeLane_idle (invalid : lane.valid = false) (idle : ∀ i, lane.storing i = false)
    (count i : Nat) {buffer : BitBuffer} (empty : buffer.acc = 0) :
    ∃ steps, decodeLane input lane count i buffer = some steps ∧
      ∀ step ∈ steps, step.store = none := by
  induction count generalizing i buffer with
  | zero => exact ⟨[], rfl, nofun⟩
  | succ count ih =>
    obtain ⟨next, refilled, nextEmpty⟩ : ∃ next, buffer.refill input.stream false = some next ∧
        next.acc = 0 := by
      unfold refill
      dsimp only
      rw [Bool.and_false, loadWord_masked]
      refine ⟨_, rfl, ?_⟩
      rw [empty]
      split
      · simp
      · rfl
    have isWindow : next.window input.lmax = 0 := by
      unfold window
      rw [nextEmpty]
      simp
    have some_ : 0 < input.lut.length := ok.size ▸ Nat.two_pow_pos _
    have loaded : loadAt input.lut 0 = some (input.lut[0]) := by
      rw [← Int.natCast_zero, loadAt_natCast, getElem?_eq_getElem some_]
    have dropped : (next.drop (input.lut[0] &&& 0xFF)).acc = 0 := by
      show next.acc <<< _ = 0
      rw [nextEmpty]
      exact BitVec.zero_shiftLeft _
    obtain ⟨steps, rest, unstored⟩ := ih (i + 1) dropped
    unfold decodeLane
    rw [invalid, refilled]
    simp only [bind_eq_bind, bind_some]
    rw [isWindow, loaded, idle]
    simp only [bind_some]
    refine ⟨_, by rw [rest]; rfl, ?_⟩
    intro step mem
    rcases mem_cons.mp mem with rfl | mem
    · rfl
    · exact unstored step mem

/-! ### The reference -/

omit narrow in
theorem lookup (pos : Nat) : ∃ v entry, peek input.stream input.lmax pos = some v ∧
    v < 2 ^ input.lmax ∧ input.lut[v]? = some entry ∧ entry ∈ input.lut := by
  obtain ⟨v, peeked, small⟩ : ∃ v, peek input.stream input.lmax pos = some v ∧
      v < 2 ^ input.lmax := ⟨_, peek_eq _ _ _, Nat.mod_lt _ (Nat.two_pow_pos _)⟩
  have lt : v < input.lut.length := ok.size.symm ▸ small
  exact ⟨v, input.lut[v], peeked, small, getElem?_eq_getElem lt, getElem_mem lt⟩

omit narrow in
theorem decodeFrom_total (count pos : Nat) :
    ∃ syms, decodeFrom input.stream input.lut input.lmax count pos = some syms ∧
      syms.length = count := by
  induction count generalizing pos with
  | zero => exact ⟨[], rfl, rfl⟩
  | succ count ih =>
    obtain ⟨v, entry, peeked, -, found, -⟩ := lookup ok pos
    obtain ⟨syms, rest, length⟩ := ih (pos + (entry &&& 0xFF))
    refine ⟨(entry >>> 8) :: syms, ?_, congrArg (· + 1) length⟩
    unfold decodeFrom
    simp only [bind_eq_bind]
    rw [peeked, bind_some, found, bind_some, ← Nat.cast_add, rest]
    rfl

omit narrow in
theorem windowsFrom_total (count pos : Nat) :
    ∃ seen, windowsFrom input.stream input.lut input.lmax count pos = some seen := by
  induction count generalizing pos with
  | zero => exact ⟨[], rfl⟩
  | succ count ih =>
    obtain ⟨v, entry, peeked, -, found, -⟩ := lookup ok pos
    obtain ⟨seen, rest⟩ := ih (pos + (entry &&& 0xFF))
    refine ⟨((pos : Int), (v : Int)) :: seen, ?_⟩
    unfold windowsFrom
    simp only [bind_eq_bind]
    rw [peeked, bind_some, found, bind_some, ← Nat.cast_add, rest]
    rfl

omit narrow in
theorem windowsFrom_small {count pos : Nat} {seen : List (Int × Int)}
    (looked : windowsFrom input.stream input.lut input.lmax count pos = some seen) :
    ∀ window ∈ seen, window.2 < 2 ^ input.lmax := by
  induction count generalizing pos seen with
  | zero =>
    cases looked
    exact nofun
  | succ count ih =>
    obtain ⟨v, entry, peeked, small, found, -⟩ := lookup ok pos
    unfold windowsFrom at looked
    simp only [bind_eq_bind] at looked
    rw [peeked, bind_some, found, bind_some, ← Nat.cast_add, bind_eq_some_iff] at looked
    obtain ⟨later, rest, res⟩ := looked
    rw [← some.inj res]
    intro window mem
    rcases mem_cons.mp mem with rfl | mem
    · dsimp only
      exact_mod_cast small
    · exact ih rest window mem

omit ok narrow in
theorem decodeFrom_take {count more : Nat} {pos : Int} {syms : List Nat}
    (decoded : decodeFrom input.stream input.lut input.lmax (count + more) pos = some syms) :
    decodeFrom input.stream input.lut input.lmax count pos = some (syms.take count) := by
  induction count generalizing pos syms with
  | zero => rfl
  | succ count ih =>
    rw [Nat.succ_add] at decoded
    unfold decodeFrom at decoded ⊢
    simp only [bind_eq_bind] at decoded ⊢
    rw [bind_eq_some_iff] at decoded
    obtain ⟨v, peeked, decoded⟩ := decoded
    rw [bind_eq_some_iff] at decoded
    obtain ⟨entry, found, decoded⟩ := decoded
    rw [bind_eq_some_iff] at decoded
    obtain ⟨later, rest, res⟩ := decoded
    rw [← some.inj res, peeked, bind_some, found, bind_some, ih rest]
    rfl

omit ok narrow in
theorem windowsFrom_take {count more : Nat} {pos : Int} {seen : List (Int × Int)}
    (looked : windowsFrom input.stream input.lut input.lmax (count + more) pos = some seen) :
    windowsFrom input.stream input.lut input.lmax count pos = some (seen.take count) := by
  induction count generalizing pos seen with
  | zero => rfl
  | succ count ih =>
    rw [Nat.succ_add] at looked
    unfold windowsFrom at looked ⊢
    simp only [bind_eq_bind] at looked ⊢
    rw [bind_eq_some_iff] at looked
    obtain ⟨v, peeked, looked⟩ := looked
    rw [bind_eq_some_iff] at looked
    obtain ⟨entry, found, looked⟩ := looked
    rw [bind_eq_some_iff] at looked
    obtain ⟨later, rest, res⟩ := looked
    rw [← some.inj res, peeked, bind_some, found, bind_some, ih rest]
    rfl

/-! ### The loop against the reference -/

omit ok narrow in
def laneStore (lane : LanePlaces) (low8 : List Nat) (entry : Nat × Nat) :
    Option (Int × BitVec 16) :=
  if lane.storing entry.2 then
    some (lane.dest entry.2, join entry.1 ((loadAt low8 (lane.source entry.2)).getD 0))
  else none

/-- **A loop that comes to its end** has seen what the reference peeks, never with the highest of 32
bits set, and stores what the reference decodes. -/
theorem laneFrom_reference {count i pos : Nat} {steps : List LaneStep}
    (ended : laneFrom input lane count i pos = some steps) :
    windowsFrom input.stream input.lut input.lmax count pos =
        some (steps.map fun step => (step.position, step.window)) ∧
      (∀ step ∈ steps, step.window < 2 ^ 31) ∧
      (∀ k < count, lane.storing (i + k) = true →
        (loadAt input.low8 (lane.source (i + k))).isSome = true) ∧
      ∃ syms, decodeFrom input.stream input.lut input.lmax count pos = some syms ∧
        steps.map LaneStep.store = (syms.zipIdx i).map (laneStore lane input.low8) := by
  induction count generalizing i pos steps with
  | zero =>
    cases ended
    exact ⟨rfl, nofun, fun _ none => absurd none (Nat.not_lt_zero _), [], rfl, rfl⟩
  | succ count ih =>
    obtain ⟨v, entry, peeked, small, found, -⟩ := lookup ok pos
    unfold laneFrom at ended
    simp only [bind_eq_bind] at ended
    rw [peeked, bind_some] at ended
    have wide : (2 : Nat) ^ input.lmax ≤ 2 ^ 32 := Nat.pow_le_pow_right (by decide) narrow
    -- a window with its highest bit set is a negative index
    have low : v < 2 ^ 31 := by
      by_contra high
      rw [loadAt_neg _ (wrap32_neg (by omega) (by omega))] at ended
      cases ended
    rw [wrap32_of_lt low, loadAt_natCast, found, bind_some, bind_eq_some_iff] at ended
    obtain ⟨byte, isByte, ended⟩ := ended
    rw [bind_eq_some_iff] at ended
    obtain ⟨later, rest, res⟩ := ended
    obtain ⟨looked, lowLater, loads, syms, decoded, stores⟩ := ih rest
    rw [← some.inj res]
    refine ⟨?_, ?_, ?_, (entry >>> 8) :: syms, ?_, ?_⟩
    · unfold windowsFrom
      simp only [bind_eq_bind]
      rw [peeked, bind_some, found, bind_some, ← Nat.cast_add, looked]
      rfl
    · intro step mem
      rcases mem_cons.mp mem with rfl | mem
      · dsimp only
        omega
      · exact lowLater step mem
    · intro k within storing
      cases k with
      | zero =>
        rw [Nat.add_zero] at storing ⊢
        unfold masked at isByte
        rw [if_pos storing] at isByte
        rw [isByte]
        rfl
      | succ k =>
        rw [show i + (k + 1) = i + 1 + k by omega] at storing ⊢
        exact loads k (by omega) storing
    · unfold decodeFrom
      simp only [bind_eq_bind]
      rw [peeked, bind_some, found, bind_some, ← Nat.cast_add, decoded]
      rfl
    · rw [map_cons, zipIdx_cons, map_cons, stores]
      congr 1
      unfold laneStore
      split
      · rename_i storing
        unfold masked at isByte
        rw [if_pos storing] at isByte
        rw [isByte]
        rfl
      · rfl

omit narrow in
theorem laneFrom_some {count i pos : Nat}
    (low : ∀ seen, windowsFrom input.stream input.lut input.lmax count pos = some seen →
      ∀ window ∈ seen, window.2 < 2 ^ 31)
    (loads : ∀ k, i ≤ k → k < i + count → lane.storing k = true →
      (loadAt input.low8 (lane.source k)).isSome = true) :
    ∃ steps, laneFrom input lane count i pos = some steps := by
  induction count generalizing i pos with
  | zero => exact ⟨[], rfl⟩
  | succ count ih =>
    obtain ⟨v, entry, peeked, -, found, -⟩ := lookup ok pos
    have window : ∀ seen, windowsFrom input.stream input.lut input.lmax count
        (pos + (entry &&& 0xFF) : Nat) = some seen →
        windowsFrom input.stream input.lut input.lmax (count + 1) pos =
          some (((pos : Int), (v : Int)) :: seen) := by
      intro seen looked
      unfold windowsFrom
      simp only [bind_eq_bind]
      rw [peeked, bind_some, found, bind_some, ← Nat.cast_add, looked]
      rfl
    obtain ⟨seen, looked⟩ := windowsFrom_total ok count (pos + (entry &&& 0xFF))
    have lowHere : v < 2 ^ 31 := by
      have here := low _ (window seen looked) _ mem_cons_self
      omega
    obtain ⟨steps, rest⟩ := @ih (i + 1) (pos + (entry &&& 0xFF))
      (fun seen looked window_ mem => low _ (window seen looked) window_ (mem_cons_of_mem _ mem))
      (fun k after pre => loads k (by omega) (by omega))
    obtain ⟨byte, isByte⟩ : ∃ byte, masked (lane.storing i)
        (loadAt input.low8 (lane.source i)) 0 = some byte := by
      unfold masked
      split
      · rename_i storing
        exact isSome_iff_exists.mp (loads i le_rfl (by omega) storing)
      · exact ⟨0, rfl⟩
    unfold laneFrom
    simp only [bind_eq_bind]
    rw [peeked, bind_some, wrap32_of_lt lowHere, loadAt_natCast, found, bind_some,
      isByte, bind_some, rest]
    exact ⟨_, rfl⟩

end Lane

end FreeToken.Df11
