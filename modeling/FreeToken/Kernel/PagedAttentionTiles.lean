/-
**Tiles of keys.**
-/

import FreeToken.Kernel.PagedAttention
import Mathlib.Algebra.Order.BigOperators.Group.Finset

namespace FreeToken

variable {R : Type} [Field R] [LinearOrder R] [IsStrictOrderedRing R] {E : ExpLog R}

omit [LinearOrder R] [IsStrictOrderedRing R] in
/-- A product of masked loads is that of the rows. -/
theorem rowDot_load {inside inside' : Prop} [Decidable inside] [Decidable inside'] (here : inside)
    (here' : inside') (d : Nat) (q k : Nat → R) :
    rowDot (nextPowerOf2 d) (loadRow inside d q) (loadRow inside' d k) =
      ∑ i ∈ Finset.range d, q i * k i := by
  unfold rowDot
  have within : Finset.range d ⊆ Finset.range (nextPowerOf2 d) :=
    Finset.range_mono (le_nextPowerOf2 d)
  rw [← Finset.sum_subset within]
  · refine Finset.sum_congr rfl fun i mem => ?_
    rw [Finset.mem_range] at mem
    rw [loadRow, loadRow, if_pos ⟨here, mem⟩, if_pos ⟨here', mem⟩]
  · intro i _ beyond
    rw [Finset.mem_range] at beyond
    rw [loadRow, if_neg (fun both => beyond both.2), zero_mul]

def keyWeight (E : ExpLog R) (keys : Finset Nat) (score : Nat → R) (key : Nat) : R :=
  if key ∈ keys then E.exp (score key) else 0

theorem sum_keyWeight {keys : Finset Nat} {score : Nat → R} {bound : Nat}
    (within : ∀ key ∈ keys, key < bound) (value : Nat → R) :
    ∑ key ∈ Finset.range bound, keyWeight E keys score key * value key =
      ∑ key ∈ keys, E.exp (score key) * value key := by
  have restrict : ∀ key, keyWeight E keys score key * value key =
      if key ∈ keys then E.exp (score key) * value key else 0 := by
    intro key
    unfold keyWeight
    split
    · rfl
    · exact zero_mul _
  rw [Finset.sum_congr rfl fun key _ => restrict key, Finset.sum_ite_mem,
    Finset.inter_eq_right.mpr fun key mem => Finset.mem_range.mpr (within key mem)]

section Tile

variable {keys : Finset Nat} {score : Nat → R} {value : Nat → Nat → R} {start blockN : Nat}
  {masked : Nat → Prop} [DecidablePred masked] {raw : Nat → R} {rows : Nat → Nat → R}
  {st : SoftmaxState R} {total : R} {sums : Nat → R}

theorem absorb_keys (holds : st.Holds E total sums) {mNew : WithBot R} (finite : mNew ≠ ⊥)
    (attended : ∀ c < blockN, masked c ↔ start + c ∈ keys)
    (scored : ∀ c < blockN, masked c → raw c = score (start + c))
    (valued : ∀ c < blockN, masked c → rows c = value (start + c)) :
    ∃ st', st.absorb E mNew blockN (fun c => if masked c then (raw c : WithBot R) else ⊥) rows =
        some st' ∧
      st'.Holds E (total + ∑ c ∈ Finset.range blockN, keyWeight E keys score (start + c))
        fun d => sums d + ∑ c ∈ Finset.range blockN,
          keyWeight E keys score (start + c) * value (start + c) d := by
  obtain ⟨st', absorbed, holds'⟩ := SoftmaxState.absorb_holds holds finite blockN
    (fun c => if masked c then (raw c : WithBot R) else ⊥) rows
  have weights : ∀ c ∈ Finset.range blockN,
      E.weight (if masked c then (raw c : WithBot R) else ⊥) = keyWeight E keys score (start + c) := by
    intro c mem
    rw [Finset.mem_range] at mem
    rw [E.weight_ite, keyWeight]
    by_cases here : masked c
    · rw [if_pos here, if_pos ((attended c mem).mp here), scored c mem here]
    · rw [if_neg here, if_neg (mt (attended c mem).mpr here)]
  refine ⟨st', absorbed, ⟨?_, fun d => ?_⟩⟩
  · rw [holds'.total, Finset.sum_congr rfl weights]
  · rw [holds'.sums d]
    congr 1
    refine Finset.sum_congr rfl fun c mem => ?_
    rw [weights c mem]
    rw [Finset.mem_range] at mem
    by_cases here : masked c
    · rw [valued c mem here]
    · rw [keyWeight, if_neg (mt (attended c mem).mpr here), zero_mul, zero_mul]

/-- **A tile adds the keys that are attended**, whether it is skipped or not. -/
theorem onlineTile_holds (holds : st.Holds E total sums) {skip : Prop} [Decidable skip]
    (skips : skip → ∀ c < blockN, ¬ masked c)
    (attended : ∀ c < blockN, masked c ↔ start + c ∈ keys)
    (scored : ∀ c < blockN, masked c → raw c = score (start + c))
    (valued : ∀ c < blockN, masked c → rows c = value (start + c)) :
    ∃ st', onlineTile E skip blockN masked raw rows st = some st' ∧
      st'.Holds E (total + ∑ c ∈ Finset.range blockN, keyWeight E keys score (start + c))
        fun d => sums d + ∑ c ∈ Finset.range blockN,
          keyWeight E keys score (start + c) * value (start + c) d := by
  unfold onlineTile
  by_cases skipped : skip
  · rw [if_pos skipped]
    have none : ∀ c ∈ Finset.range blockN, keyWeight E keys score (start + c) = 0 := by
      intro c mem
      rw [Finset.mem_range] at mem
      exact if_neg (mt (attended c mem).mpr (skips skipped c mem))
    refine ⟨st, rfl, ⟨?_, fun d => ?_⟩⟩
    · rw [Finset.sum_eq_zero none, add_zero, holds.total]
    · rw [Finset.sum_eq_zero fun c mem => by rw [none c mem, zero_mul], add_zero, holds.sums]
  · rw [if_neg skipped]
    -- the maximum of a row that is masked out throughout is replaced
    have finite : max (if (Finset.range blockN).sup (fun c =>
        if masked c then (raw c : WithBot R) else ⊥) = ⊥ then ((-1e20 : R) : WithBot R)
        else (Finset.range blockN).sup fun c => if masked c then (raw c : WithBot R) else ⊥)
          st.m ≠ ⊥ := by
      intro none
      have first := (max_eq_bot.mp none).1
      split at first
      · exact WithBot.coe_ne_bot first
      · contradiction
    exact absorb_keys holds finite attended scored valued

variable (score value) in
/-- A loop over the tiles adds all keys. -/
theorem tiles_hold (step : SoftmaxState R → Nat → Option (SoftmaxState R))
    (holds : st.Holds E total sums) {count : Nat}
    (covered : ∀ key ∈ keys, key < count * blockN)
    (adds : ∀ tile < count, ∀ st total sums, st.Holds E total sums →
      ∃ st', step st tile = some st' ∧ st'.Holds E
          (total + ∑ c ∈ Finset.range blockN, keyWeight E keys score (tile * blockN + c))
          fun d => sums d + ∑ c ∈ Finset.range blockN,
            keyWeight E keys score (tile * blockN + c) * value (tile * blockN + c) d) :
    ∃ st', (List.range count).foldlM step st = some st' ∧
      st'.Holds E (total + ∑ key ∈ keys, E.exp (score key))
        fun d => sums d + ∑ key ∈ keys, E.exp (score key) * value key d := by
  obtain ⟨st', looped, holds'⟩ := @foldlM_range _ step
    (fun tile st => st.Holds E
      (total + ∑ key ∈ Finset.range (tile * blockN), keyWeight E keys score key)
      fun d => sums d + ∑ key ∈ Finset.range (tile * blockN),
        keyWeight E keys score key * value key d) count st
    (by simpa using holds) (by
      intro tile inside st holds
      obtain ⟨next, stepped, holds'⟩ := adds tile inside st _ _ holds
      refine ⟨next, stepped, ⟨?_, fun d => ?_⟩⟩
      · rw [holds'.total, sum_tiles_succ, add_assoc]
      · rw [holds'.sums d, sum_tiles_succ (fun key => keyWeight E keys score key * value key d),
          add_assoc])
  refine ⟨st', looped, ⟨?_, fun d => ?_⟩⟩
  · rw [holds'.total]
    have all := @sum_keyWeight _ _ _ _ E keys score _ covered fun _ => 1
    simp only [mul_one] at all
    rw [all]
  · rw [holds'.sums d, sum_keyWeight covered]

end Tile

namespace AttnInputs

variable (inp : AttnInputs R)

def keyRow (kvHead req key : Nat) : Nat → R :=
  loadRow True inp.headDim (inp.vCache (inp.kvIndices (inp.kvIndptr req + key)) kvHead)

variable {inp}

omit [Field R] [LinearOrder R] [IsStrictOrderedRing R] in
theorem attendedKeys_nonempty (position : Nat) : position ∈ inp.attendedKeys position := by
  unfold attendedKeys
  rw [Finset.mem_Icc]
  split <;> omega

/-- A state that stands for the keys of a position ends with its output. -/
theorem softmax_of_holds {kvHead req token head position : Nat} {st : SoftmaxState R}
    (holds : st.Holds E
      (((inp.sink head).map E.exp).getD 0 + ∑ key ∈ inp.attendedKeys position,
        E.exp (inp.keyScore kvHead req token head key))
      fun d => 0 + ∑ key ∈ inp.attendedKeys position,
        E.exp (inp.keyScore kvHead req token head key) * inp.keyRow kvHead req key d) :
    ∀ d < inp.headDim, st.out d = inp.softmaxAttention E kvHead req token head position d := by
  intro d inside
  have sink : 0 ≤ ((inp.sink head).map E.exp).getD 0 := by
    cases inp.sink head with
    | none => exact le_rfl
    | some score => exact (E.exp_pos score).le
  have keys := Finset.sum_pos (fun key _ => E.exp_pos (inp.keyScore kvHead req token head key))
    ⟨position, inp.attendedKeys_nonempty position⟩
  rw [SoftmaxState.out_eq holds (add_pos_of_nonneg_of_pos sink keys).ne' d, zero_add]
  congr 1
  refine Finset.sum_congr rfl fun key _ => ?_
  rw [keyRow, loadRow, if_pos ⟨trivial, inside⟩]

end AttnInputs

end FreeToken
