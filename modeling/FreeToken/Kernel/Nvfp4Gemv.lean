/-
**The GEMV over NVFP4 weights.**
-/

import FreeToken.Kernel.Nvfp4Gemm

namespace FreeToken.Nvfp4

open List

open scoped BigOperators

variable (op : Operands)

/-- The GEMV in one pass stores every output. -/
theorem gemvStores_get (transp : Bool) {n : Nat} (isCol : n < op.N) (memory : Nat → ℚ) :
    runCopies memory (gemvStores op transp) n = exact op 0 n := by
  have pos : 0 < gemvBlockKw transp := by cases transp <;> decide
  have value : ∀ n, gemvAcc op (op.K % (gemvBlockKw transp * 8) = 0) (gemvBlockKw transp) 0
      (cdiv op.kWords (gemvBlockKw transp)) n * op.gscale n = exact op 0 n := by
    intro n
    rw [gemvAcc_eq n (single_unmasked pos), single_sum pos, exact_eq]
  apply runCopies_of_value
  · refine mem_map.mpr ⟨⟨n, .value (gemvAcc op (op.K % (gemvBlockKw transp * 8) = 0)
      (gemvBlockKw transp) 0 (cdiv op.kWords (gemvBlockKw transp)) n * op.gscale n)⟩, ?_, rfl⟩
    refine mem_flatMap.mpr ⟨n / gemvBlockN, mem_range.mpr
      (div_lt_cdiv (by decide) isCol), ?_⟩
    refine mem_flatMap.mpr ⟨n % gemvBlockN, mem_range.mpr (Nat.mod_lt _ (by decide)), ?_⟩
    rw [Nat.div_add_mod', if_pos isCol]
    exact mem_cons_self
  · intro copy mem here
    obtain ⟨pidN, -, mem⟩ := mem_flatMap.mp mem
    obtain ⟨j, -, mem⟩ := mem_flatMap.mp mem
    dsimp only at mem
    split at mem
    · obtain rfl := mem_singleton.mp mem
      dsimp only at here
      rw [here]
      exact congrArg Source.value (value n)
    · cases mem

/-! ### Parts -/

/-- **A launch of the split GEMV**: the counters are cleared, and all programs go to their end. -/
structure SplitLaunch (transp : Bool) (splitK : Nat) (memory : Arrivals Nat ℚ)
    (events : List (Nat × Nat)) : Prop where
  cleared : ∀ pidN < cdiv op.N (gemvSplitkBlockN transp), memory.counter pidN = 0
  ready : ∀ pidN < cdiv op.N (gemvSplitkBlockN transp), ∀ pidK < splitK,
    memory.phase pidN pidK = .ready
  within : ∀ event ∈ events, event.2 < splitK
  finished : ∀ pidN < cdiv op.N (gemvSplitkBlockN transp), ∀ pidK < splitK,
    (events.foldl (gemvSplitStep op transp splitK) memory).phase pidN pidK = .done

/-- In any order its outputs are the same, and the counters are cleared. -/
theorem gemvSplit_exact {transp : Bool} {splitK : Nat} (some_ : 0 < splitK)
    {memory : Arrivals Nat ℚ} {events : List (Nat × Nat)}
    (launch : SplitLaunch op transp splitK memory events) :
    (∀ n < op.N, (events.foldl (gemvSplitStep op transp splitK) memory).out n = exact op 0 n) ∧
      ∀ pidN < cdiv op.N (gemvSplitkBlockN transp),
        (events.foldl (gemvSplitStep op transp splitK) memory).counter pidN = 0 := by
  have pos : 0 < gemvSplitkBlockN transp := by cases transp <;> decide
  have words : 0 < gemvSplitkBlockKw := by decide
  have local_ : ∀ (f g : Nat → ℚ) (n : Nat), (∀ k < splitK, f k = g k) →
      (range splitK).foldl (fun total k => total + f k) 0 * op.gscale n =
        (range splitK).foldl (fun total k => total + g k) 0 * op.gscale n := by
    intro f g n same
    rw [foldl_add_range, foldl_add_range]
    exact congrArg (· * op.gscale n)
      (Finset.sum_congr rfl fun k mem => same k (Finset.mem_range.mp mem))
  have finished := launch.finished
  unfold gemvSplitStep at finished ⊢
  have closed := fun pidN isTile => arrivals_reduced local_ some_ (launch.cleared pidN isTile)
    (launch.ready pidN isTile) launch.within (finished pidN isTile)
  refine ⟨fun n isCol => ?_, fun pidN isTile => (closed pidN isTile).cleared⟩
  have isTile := div_lt_cdiv pos isCol
  have reduced := (closed _ isTile).result n (if_pos isCol)
  refine reduced.trans ?_
  rw [foldl_add_range, exact_eq, ← split_sum words some_]
  refine congrArg (· * op.gscale n) (Finset.sum_congr rfl fun pidK mem => ?_)
  exact gemvAcc_eq n (split_unmasked words (Finset.mem_range.mp mem))

/-- `_gemv`, whichever of them it picks. -/
theorem gemv_exact (transp : Bool) {memory : Arrivals Nat ℚ} {events : List (Nat × Nat)}
    (launch : gemvSplitK op transp ≠ 1 → SplitLaunch op transp (gemvSplitK op transp) memory events)
    (cleared : ∀ pidN < cdiv op.N (gemvSplitkBlockN transp), memory.counter pidN = 0) :
    (∀ n < op.N, (gemv op transp memory events).out n = exact op 0 n) ∧
      ∀ pidN < cdiv op.N (gemvSplitkBlockN transp),
        (gemv op transp memory events).counter pidN = 0 := by
  unfold gemv
  dsimp only
  split
  · exact ⟨fun n isCol => gemvStores_get op transp isCol _, cleared⟩
  · rename_i parts
    exact gemvSplit_exact op (floorPow2_pos _) (launch parts)

end FreeToken.Nvfp4
