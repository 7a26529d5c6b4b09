/-
**The running requests.**

`running_reqs` is a set; here it is a list without repetitions, of the names of the requests.
-/

import FreeToken.Core
import Mathlib.Data.List.Sort

namespace FreeToken

structure DecodeManager where
  pageSize : Nat
  runningReqs : List Nat

variable (dm : DecodeManager) (reqs : Nat → Req)

namespace DecodeManager

def filterReqs (batch : List Nat) : DecodeManager :=
  { dm with
    runningReqs := (dm.runningReqs ++ batch.filter (· ∉ dm.runningReqs)).filter
      fun name => (reqs name).canDecode }

def removeReq (name : Nat) : DecodeManager :=
  { dm with runningReqs := dm.runningReqs.filter (· ≠ name) }

def abortReq (uid : Nat) : DecodeManager × Option Nat :=
  match dm.runningReqs.find? fun name => (reqs name).uid = uid with
  | some name => (dm.removeReq name, some name)
  | none => (dm, none)

/-- The tokens its members may still take, in whole pages. -/
def inflightTokens : Nat :=
  (dm.runningReqs.map fun name => (reqs name).remainLen).sum +
    (dm.pageSize - 1) * dm.runningReqs.length

/-- The decode batch. -/
def byUid : List Nat :=
  dm.runningReqs.insertionSort fun first second => (reqs first).uid ≤ (reqs second).uid

end DecodeManager

end FreeToken
