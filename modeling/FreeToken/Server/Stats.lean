/-
**The runtime metrics of the frontend.**

`StatsTracker` is fed every reply. What is kept here is the accounting: the requests in flight, the
aborted ones among them, the completed ones, the tokens counted so far and the last occupancy seen.
The sliding window of the throughput is left out, nothing here reads it.
-/

import Mathlib.Data.List.Sort
import FreeToken.Server.Message

namespace FreeToken

structure StatsTracker where
  inflight : List Nat := []
  aborting : List Nat := []
  completed : Nat := 0
  promptTokensTotal : Nat := 0
  completionTokensTotal : Nat := 0
  kvUsedPages : Int := 0
  kvTotalPages : Int := 0
  mambaUsedSlots : Int := 0
  mambaTotalSlots : Int := 0
  swaUsedTokens : Int := 0
  swaTotalTokens : Int := 0
  vramBytes : Nat := 0
  deriving DecidableEq, Repr

variable (stats : StatsTracker) (reply : UserReply)

namespace StatsTracker

/-- How many requests have not had their last reply. -/
def active : Nat := stats.inflight.length

def inflightUids : List Nat := stats.inflight.insertionSort (· ≤ ·)

def onNewUser (uid : Nat) : StatsTracker :=
  { stats with
    inflight := stats.inflight.insert uid
    aborting := stats.aborting.erase uid }

def onAbort (uid : Nat) : StatsTracker :=
  if uid ∈ stats.inflight then { stats with aborting := stats.aborting.insert uid } else stats

def countTokens : StatsTracker :=
  { stats with
    promptTokensTotal := stats.promptTokensTotal + reply.promptTokensDelta
    completionTokensTotal := stats.completionTokensTotal + reply.completionTokensDelta }

/-- The occupancy that a reply is stamped with; a total of zero was not reported. -/
def recordUsage : StatsTracker :=
  let usage := reply.usage
  let stats := if usage.kvTotalPages > 0 then
    { stats with kvUsedPages := usage.kvUsedPages, kvTotalPages := usage.kvTotalPages } else stats
  let stats := if usage.mambaTotalSlots > 0 then
    { stats with mambaUsedSlots := usage.mambaUsedSlots, mambaTotalSlots := usage.mambaTotalSlots }
    else stats
  let stats := if usage.swaTotalTokens > 0 then
    { stats with swaUsedTokens := usage.swaUsedTokens, swaTotalTokens := usage.swaTotalTokens }
    else stats
  if reply.gpuMemBytes > 0 then { stats with vramBytes := reply.gpuMemBytes } else stats

/-- The last reply of a request takes it out of flight; an aborted one is not completed by it. -/
def countTerminal (uid : Nat) : StatsTracker :=
  if uid ∈ stats.inflight then
    let stats := { stats with inflight := stats.inflight.erase uid }
    if uid ∈ stats.aborting then { stats with aborting := stats.aborting.erase uid }
    else { stats with completed := stats.completed + 1 }
  else stats

def observe : StatsTracker :=
  let stats := (stats.countTokens reply).recordUsage reply
  if reply.finished then stats.countTerminal reply.uid else stats

end StatsTracker

end FreeToken
