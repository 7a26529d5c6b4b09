/-
**The messages of the scheduler.**
-/

import FreeToken.Core

namespace FreeToken

structure UserMsg where
  uid : Nat
  inputIds : List Token
  samplingParams : SamplingParams
  mmEmbeds : Bool := false
  deriving DecidableEq, Repr

/-- What arrives, a request or the abort of one. -/
inductive Msg where
  | user (msg : UserMsg)
  | abort (uid : Nat)
  deriving DecidableEq, Repr

/-- The used and the total units of the page pool, of the recurrent-state pool and of the window
pool, zero where a model has no such pool. -/
structure Usage where
  kvUsedPages : Int := 0
  kvTotalPages : Int := 0
  mambaUsedSlots : Int := 0
  mambaTotalSlots : Int := 0
  swaUsedTokens : Int := 0
  swaTotalTokens : Int := 0
  deriving DecidableEq, Repr

inductive FinishReason where
  | stop
  | length
  deriving DecidableEq, Repr

/-- `PromptAdmittedMsg`, `DetokenizeMsg` and `ErrorReplyMsg`. -/
inductive Reply where
  | promptAdmitted (uid promptTokens cachedTokens : Nat)
  | detokenize (uid : Nat) (nextToken : Token) (finished : Bool)
      (finishReason : Option FinishReason) (matchedStop : Option (List Char))
      (stopStrs : Option (List (List Char))) (usage : Usage)
  | errorReply (uid : Nat) (error : String) (code : Option String) (usage : Usage)
  deriving DecidableEq, Repr

namespace Reply

def uid : Reply → Nat
  | promptAdmitted uid _ _ => uid
  | detokenize uid _ _ _ _ _ _ => uid
  | errorReply uid _ _ _ => uid

def stamp (usage : Usage) : Reply → Reply
  | detokenize uid nextToken finished finishReason matchedStop stopStrs _ =>
      detokenize uid nextToken finished finishReason matchedStop stopStrs usage
  | reply => reply

end Reply

end FreeToken
