/-
**The tokenizer workers, and the server as a whole.**

A tokenizer worker passes what the frontend asks for on to the scheduler. One of the workers, the
detokenizer, also passes the replies of the scheduler back. Every queue keeps the order of the
messages of one sender.

The texts of the replies come from the detokenizer's own state, which no one here reads; a turn is
given them. Rebuilds and the end of a worker are left to the modules about them.
-/

import FreeToken.Server.Lifecycle
import FreeToken.Scheduler.Scheduler

namespace FreeToken

/-- A message in the queue of a worker: one of the frontend, or a reply of the scheduler. -/
inductive WorkerMsg where
  | request (msg : TokenizerMsg)
  | reply (reply : Reply)
  deriving DecidableEq, Repr

namespace TokenizeWorker

def promptAdmittedReply (uid promptTokens cachedTokens : Nat) : UserReply where
  uid := uid
  incrementalOutput := ""
  finished := false
  promptTokensDelta := promptTokens
  cachedTokens := cachedTokens

def sampledReply (text : String) (uid : Nat) (finished : Bool) (finishReason : Option FinishReason)
    (matchedStop : Option (List Char)) (usage : Usage) : UserReply where
  uid := uid
  incrementalOutput := text
  finished := finished
  finishReason := finishReason
  matchedStop := matchedStop
  completionTokensDelta := 1
  usage := usage

def errorReply (uid : Nat) (error : String) (code : Option String) (usage : Usage) : UserReply where
  uid := uid
  incrementalOutput := ""
  finished := true
  error := some error
  errorCode := code
  usage := usage

def promptAdmitted? : WorkerMsg → Option UserReply
  | .reply (.promptAdmitted uid promptTokens cachedTokens) =>
      some (promptAdmittedReply uid promptTokens cachedTokens)
  | _ => none

def sampled? (text : String) : WorkerMsg → Option UserReply
  | .reply (.detokenize uid _ finished finishReason matchedStop _ usage) =>
      some (sampledReply text uid finished finishReason matchedStop usage)
  | _ => none

def error? : WorkerMsg → Option UserReply
  | .reply (.errorReply uid error code usage) => some (errorReply uid error code usage)
  | _ => none

def tokenize? : WorkerMsg → Option TokenizeMsg
  | .request (.tokenize msg) => some msg
  | _ => none

def abort? : WorkerMsg → Option Nat
  | .request (.abort uid) => some uid
  | _ => none

def sampledReplies (texts : Nat → String) : List WorkerMsg → List UserReply
  | [] => []
  | msg :: pending =>
      match sampled? (texts pending.length) msg with
      | some reply => reply :: sampledReplies texts pending
      | none => sampledReplies texts pending

def refusal (uid : Nat) (error : String) : UserReply where
  uid := uid
  incrementalOutput := ""
  finished := true
  error := some error

/-- One request of `_tokenize_requests`. -/
def tokenizeRequest (tokenize : TokenizeMsg → Except String (List Token)) (msg : TokenizeMsg) :
    Except UserReply UserMsg :=
  match tokenize msg with
  | .error exc => .error (refusal msg.uid ("could not encode request: " ++ exc))
  | .ok [] => .error (refusal msg.uid "prompt must contain at least one token")
  | .ok tokens => .ok { uid := msg.uid, inputIds := tokens, samplingParams := msg.samplingParams }

/-- `_tokenize_requests`: the work for the backend and the errors. -/
def tokenizeRequests (tokenize : TokenizeMsg → Except String (List Token)) :
    List TokenizeMsg → List UserMsg × List UserReply
  | [] => ([], [])
  | msg :: rest =>
      let (accepted, errors) := tokenizeRequests tokenize rest
      match tokenizeRequest tokenize msg with
      | .ok msg => (msg :: accepted, errors)
      | .error reply => (accepted, reply :: errors)

/-- `_put_user_replies`: nothing is put for no reply. -/
def putUserReplies (replies : List UserReply) : List FrontendMsg :=
  if replies = [] then [] else [.userReplies replies]

/-- One turn: what goes to the frontend and what goes to the scheduler. The admissions come first,
then the sampled tokens and last what ends a request, whatever the order they were drained in. -/
def turn (tokenize : TokenizeMsg → Except String (List Token)) (texts : Nat → String)
    (pending : List WorkerMsg) : List FrontendMsg × List Msg :=
  let (accepted, errors) := tokenizeRequests tokenize (pending.filterMap tokenize?)
  (putUserReplies (pending.filterMap promptAdmitted?) ++
      putUserReplies (sampledReplies texts pending) ++
      putUserReplies (pending.filterMap error?) ++ putUserReplies errors,
    accepted.map .user ++ (pending.filterMap abort?).map .abort)

end TokenizeWorker

structure ServingConfig where
  scheduler : SchedulerConfig
  numTokenizer : Nat
  tokenize : TokenizeMsg → Except String (List Token)

variable (cfg : ServingConfig)

namespace ServingConfig

def detokenizer : Nat := cfg.numTokenizer

/-- Whether the frontend sends to a worker; without a tokenizer the detokenizer does its work. -/
def tokenizes (worker : Nat) : Bool :=
  worker < cfg.numTokenizer || (cfg.numTokenizer == 0 && worker == 0)

end ServingConfig

/-- The server. The last two fields are its history: the replies that the frontend has heard, and
the requests that it aborted while they were in flight. -/
structure Serving where
  frontend : Frontend
  inbox : Nat → List WorkerMsg := fun _ => []
  toFrontend : Nat → List FrontendMsg := fun _ => []
  toScheduler : Nat → List Msg := fun _ => []
  scheduler : Scheduler
  heard : List UserReply := []
  aborted : List Nat := []

namespace Serving

inductive Event where
  | frontend (event : Frontend.Event)
  /-- The first message of the frontend reaches a worker. -/
  | route (worker : Nat)
  /-- A worker drains that many messages and takes a turn. -/
  | work (worker count : Nat) (texts : Nat → String)
  /-- The frontend hears the first message that a worker has sent. -/
  | hear (worker : Nat)
  /-- The scheduler receives the first message that a worker has sent. -/
  | recv (worker : Nat)
  | launch (nextTokens : Nat → Token)
  | drain

/-- The steps of the frontend itself: it hears what was sent, and neither a rebuild nor the end of a
worker comes in between. -/
def ordinary : Frontend.Event → Bool
  | .listen _ | .failInflightRequests _ | .dispatchRebuild _ _ => false
  | _ => true

def abortedBy : Frontend.Event → Option Nat
  | .discardUnsubmitted uid | .abortUser uid | .abortNext uid => some uid
  | _ => none

def repliesOf : FrontendMsg → List UserReply
  | .userReplies replies => replies
  | .cacheRebuild _ => []

def schedulerStep (s : Serving) (event : Scheduler.Event) : Option Serving :=
  if s.scheduler.enabled event then
    match s.scheduler.step cfg.scheduler event with
    | .ok scheduler => some { s with
        scheduler := scheduler
        inbox := Function.update s.inbox cfg.detokenizer (s.inbox cfg.detokenizer ++
          (scheduler.out.drop s.scheduler.out.length).map .reply) }
    | .error _ => none
  else none

/-- One step of the server; `none` where the step cannot be taken now. -/
def step (s : Serving) : Event → Option Serving
  | .frontend event =>
      if ordinary event then
        (s.frontend.step event).map fun frontend => { s with
          frontend := frontend
          aborted := s.aborted ++ (abortedBy event).toList.filter (· ∈ s.frontend.stats.inflight) }
      else none
  | .route worker =>
      match s.frontend.sendTokenizer with
      | [] => none
      | msg :: rest =>
          if cfg.tokenizes worker then
            some { s with
              frontend := { s.frontend with sendTokenizer := rest }
              inbox := Function.update s.inbox worker (s.inbox worker ++ [.request msg]) }
          else none
  | .work worker count texts =>
      let (replies, msgs) := TokenizeWorker.turn cfg.tokenize texts ((s.inbox worker).take count)
      some { s with
        inbox := Function.update s.inbox worker ((s.inbox worker).drop count)
        toFrontend := Function.update s.toFrontend worker (s.toFrontend worker ++ replies)
        toScheduler := Function.update s.toScheduler worker (s.toScheduler worker ++ msgs) }
  | .hear worker =>
      match s.toFrontend worker with
      | [] => none
      | msg :: rest => some { s with
          frontend := s.frontend.listen msg
          toFrontend := Function.update s.toFrontend worker rest
          heard := s.heard ++ repliesOf msg }
  | .recv worker =>
      match s.toScheduler worker with
      | [] => none
      | msg :: rest =>
          schedulerStep cfg { s with toScheduler := Function.update s.toScheduler worker rest }
            (.recv msg)
  | .launch nextTokens => schedulerStep cfg s (.launch nextTokens)
  | .drain => schedulerStep cfg s .drain

def run (s : Serving) (events : List Event) : Option Serving := events.foldlM (step cfg) s

def initial (instanceId : String) (servedModelName : Option String) (limit : Nat)
    (cm : CacheManager) (maxRunningReqs : Nat) : Serving where
  frontend := Frontend.initial instanceId servedModelName limit
  scheduler := Scheduler.new cm maxRunningReqs

end Serving

end FreeToken
