/-
**The paged sliding-window pool.**
-/

import FreeToken.Utils

namespace FreeToken

structure HybridSWAPool where
  swaNumTokens : Nat
  swaFree : List Nat
  fullToSwa : Nat → Nat

variable (pool : HybridSWAPool)

namespace HybridSWAPool

def record (fullToSwa : Nat → Nat) : List (Nat × Nat) → Nat → Nat
  | [] => fullToSwa
  | (full, swa) :: rest => record (fun slot => if slot = full then swa else fullToSwa slot) rest

/-- One window slot for each full slot, by the dense mapping; slot 0 is the sentinel. -/
def allocSwa (fullIndices : List Nat) : Except Err HybridSWAPool :=
  if pool.swaFree.length < fullIndices.length then
    .error (.runtime
      s!"SWA pool exhausted: need {fullIndices.length}, have {pool.swaFree.length}")
  else .ok { pool with
    swaFree := pool.swaFree.drop fullIndices.length
    fullToSwa := record pool.fullToSwa
      (fullIndices.zip (pool.swaFree.take fullIndices.length)) }

def freeSwa (fullIndices : List Nat) : HybridSWAPool :=
  { pool with
    swaFree := pool.swaFree ++ (fullIndices.map pool.fullToSwa).filter (0 < ·)
    fullToSwa := fun slot => if slot ∈ fullIndices then 0 else pool.fullToSwa slot }

def swaAvailableSize : Nat := pool.swaFree.length

end HybridSWAPool

def swaRetainGap : Nat := 16

end FreeToken
