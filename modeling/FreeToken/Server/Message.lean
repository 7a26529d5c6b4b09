/-
**The messages between the frontend and its workers.**

The prompt of a request is a text here; the tools, the template arguments and the system-prompt
policy that travel with it are read by the chat template only.
-/

import FreeToken.Scheduler.Message

namespace FreeToken

/-- One reply to one request: a piece of the output, its usage and, at the end, how it ended. -/
structure UserReply where
  uid : Nat
  incrementalOutput : String
  finished : Bool
  promptTokensDelta : Nat := 0
  completionTokensDelta : Nat := 0
  cachedTokens : Nat := 0
  usage : Usage := {}
  gpuMemBytes : Nat := 0
  error : Option String := none
  errorCode : Option String := none
  finishReason : Option FinishReason := none
  matchedStop : Option (List Char) := none
  deriving DecidableEq, Repr

structure CacheRebuildReply where
  requestId : String
  status : String
  moeCacheSize : Nat := 0
  numPages : Nat := 0
  mambaSlots : Nat := 0
  numSwaPages : Nat := 0
  error : Option String := none
  deriving DecidableEq, Repr

inductive FrontendMsg where
  | userReplies (replies : List UserReply)
  | cacheRebuild (reply : CacheRebuildReply)
  deriving DecidableEq, Repr

structure TokenizeMsg where
  uid : Nat
  text : String
  samplingParams : SamplingParams
  deriving DecidableEq, Repr

/-- The sizes that a rebuild asks for; `none` keeps the size a pool has. -/
structure RebuildRequest where
  moeCacheSize : Option Nat := none
  numPages : Option Nat := none
  numMambaSlots : Option Nat := none
  numSwaPages : Option Nat := none
  mode : String := "if_idle"
  deriving DecidableEq, Repr

/-- `CacheRebuildMsg`, and the `CacheRebuildBackendMsg` that a tokenizer worker makes of it. -/
structure CacheRebuildMsg where
  requestId : String
  request : RebuildRequest
  deriving DecidableEq, Repr

inductive TokenizerMsg where
  | tokenize (msg : TokenizeMsg)
  | abort (uid : Nat)
  | cacheRebuild (msg : CacheRebuildMsg)
  deriving DecidableEq, Repr

end FreeToken
