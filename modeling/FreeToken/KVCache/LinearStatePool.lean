/-
**The pool of recurrent-state slots.**

A slot's state is the summary of a token sequence and is kept as that sequence: a forward appends the
tokens it is fed, a copy copies the sequence. Slot 0 is the padding sink.
-/

import FreeToken.KVCache.RadixTreeNode

namespace FreeToken

structure LinearStatePool where
  numSlots : Nat
  freeSlots : List Nat
  states : Nat → List Token

variable (pool : LinearStatePool)

namespace LinearStatePool

def new (numSlots : Nat) : LinearStatePool where
  numSlots := numSlots
  freeSlots := List.range' 1 (numSlots - 1)
  states := fun _ => []

def numFreeSlots : Nat := pool.freeSlots.length

/-- Pop `n` slots, last in first out. -/
def alloc (n : Nat) : Except Err (LinearStatePool × List Nat) :=
  if pool.freeSlots.length < n then
    .error (.runtime s!"LinearStatePool exhausted: need {n}, have {pool.freeSlots.length}")
  else .ok ({ pool with freeSlots := pool.freeSlots.take (pool.freeSlots.length - n) },
    (pool.freeSlots.drop (pool.freeSlots.length - n)).reverse)

theorem alloc_perm {pool rest : LinearStatePool} {n : Nat} {slots : List Nat}
    (gave : pool.alloc n = .ok (rest, slots)) :
    slots.length = n ∧ (rest.freeSlots ++ slots).Perm pool.freeSlots := by
  unfold alloc at gave
  split at gave
  · cases gave
  · cases gave
    refine ⟨?_, ?_⟩
    · rw [List.length_reverse, List.length_drop]
      omega
    · refine ((List.reverse_perm _).append_left _).trans (List.Perm.of_eq ?_)
      exact List.take_append_drop _ _

def free (slots : List Nat) : LinearStatePool := { pool with freeSlots := pool.freeSlots ++ slots }

def copyFrom (src dst : Nat) : LinearStatePool :=
  { pool with states := Function.update pool.states dst (pool.states src) }

def write (slot : Nat) (state : List Token) : LinearStatePool :=
  { pool with states := Function.update pool.states slot state }

end LinearStatePool

end FreeToken
