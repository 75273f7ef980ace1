/-
  Subject:   The world around one request of the exec API: the caller, flintlockd, the stored claims
             and the clock.

  * A stream is two directions of ordered messages. It may break at any time, so a send or a receive
    may fail at any time, and a send that failed may have put its message on the stream.
  * The caller sends, half-closes and cancels as it likes; flintlockd sends and ends its stream as
    it likes; the claims change as they like. A claim is stored under its own name, which is not
    empty.
  * A handler that returned a status ends the response with it; the caller gets that status after
    the last message of the response.
  * The fields after `ended` are history. No program reads them. `holder` is the goroutine that
    takes messages off the caller's stream and puts them on flintlockd's.
-/
import BatteryOperator.ExecAgent.Server
import BatteryOperator.Faults
import BatteryOperator.Lib.Pipe

namespace BatteryOperator.ExecAgent.Relay

open Lib

/-! ## 1. State -/

/-- The goroutines of a request. The receiving loop runs in the handler, turn by turn. -/
inductive Thread where
  | handler
  | opener
  | forwarder
  | receiver
  deriving DecidableEq

/-- Where a loop is. -/
inductive Loop where
  | waiting
  | running
  | ended
  deriving DecidableEq

/-- The claims the API server stores. -/
structure StoredClaims where
  get : ObjectKey → Option MicroVMClaim
  keyed : ∀ key c, get key = some c → c.key = key ∧ key.name ≠ ""

namespace StoredClaims

def none : StoredClaims := ⟨fun _ => .none, fun _ _ h => nomatch h⟩

/-- A read of one claim. -/
def read (claims : StoredClaims) (key : ObjectKey) : Except ApiError MicroVMClaim :=
  match claims.get key with
  | some c => .ok c
  | .none => .error ⟨.notFound, "microvmclaims \"" ++ key.name ++ "\" not found"⟩

end StoredClaims

/-- An authorization that was decided: of whom, on what, with which time, and on which stored
    claims; `answered` says whether the API server answered the lookup. -/
structure Decision where
  caller : Caller
  vmUID : String
  now : Time
  outcome : Except AuthError Unit
  stored : StoredClaims
  answered : Bool

/-- One request. -/
structure Exchange where
  now : Time
  claims : StoredClaims
  accepted : Bool
  /-- The caller's messages to the agent; whether the caller has half-closed. -/
  requests : Pipe ExecCommandRequest
  closed : Bool
  /-- The agent's messages to flintlockd. -/
  up : Pipe ExecCommandRequest
  /-- flintlockd's messages to the agent; whether flintlockd has ended its stream. -/
  answers : Pipe ExecCommandResponse
  answersEnded : Bool
  /-- The agent's messages to the caller. -/
  down : Pipe ExecCommandResponse
  /-- Why the request's context is done, and whether the exchange was cancelled under it. -/
  ctxErr : Option ContextError
  cancelled : Bool
  timer : Option Time
  /-- The message `openExec`'s goroutine was started with, before its first instruction. -/
  toOpen : Option ExecCommandRequest
  done : Option (Except String Unit)
  secondStart : Bool
  forward : Loop
  receive : Loop
  reply : Option (Except Status Bytes)
  ended : Option Status
  holder : Thread
  /-- The claims stored when the lookup was made, and whether it was answered. -/
  moment : Option (StoredClaims × Bool)
  decision : Option Decision
  /-- The MicroVMs named in calls of `GetMicroVM` that reached flintlockd. -/
  calls : List String

/-- A request that has just come in. -/
def Exchange.initial (now : Time) (claims : StoredClaims) : Exchange where
  now := now
  claims := claims
  accepted := false
  requests := .empty
  closed := false
  up := .empty
  answers := .empty
  answersEnded := false
  down := .empty
  ctxErr := none
  cancelled := false
  timer := none
  toOpen := none
  done := none
  secondStart := false
  forward := .waiting
  receive := .waiting
  reply := none
  ended := none
  holder := .handler
  moment := none
  decision := none
  calls := []

namespace Exchange

variable (s : Exchange)

/-- Why the exchange's own context is done. -/
def upErr : Option ContextError := if s.cancelled then some .canceled else s.ctxErr

/-- The status the caller gets, after the last message of the response. -/
def response : Option Status := if s.down.drained then s.ended else none

/-- The handler of the stream returned. -/
def finish (st : Status) : Exchange :=
  { s with ended := some st, receive := .ended, cancelled := true,
           ctxErr := some (s.ctxErr.getD .canceled) }

/-- An authorization was decided. -/
def judge (caller : Caller) (vmUID : String) (now : Time) (outcome : Except AuthError Unit) :
    Exchange :=
  { s with decision := some ⟨caller, vmUID, now, outcome, (s.moment.getD (s.claims, true)).1,
      (s.moment.getD (s.claims, true)).2⟩ }

/-- A call for a MicroVM, which may have reached flintlockd. -/
def called (uid : String) (reached : Bool) : Exchange :=
  if reached then { s with calls := uid :: s.calls } else s

/-- A message for flintlockd, which may be on its stream. -/
def forwardTo (req : ExecCommandRequest) (reached : Bool) : Exchange :=
  if reached then { s with up := s.up.send req } else s

end Exchange

/-! ## 2. Steps -/

/-- How an operation on a stream or a call ends. -/
inductive Outcome where
  | ok
  | eof
  | failed (st : Status)
  deriving DecidableEq

/-- Which ready channel a select takes. -/
inductive Ready where
  | done
  | timer
  | ctx
  deriving DecidableEq

/-- What an operation leaves open. -/
structure Choice where
  outcome : Outcome := .ok
  /-- A call or a message that failed reached flintlockd all the same. -/
  reached : Bool := false
  bytes : Bytes := []
  review : Except String TokenReviewStatus := .error ""
  fault : ApiFault := .none
  ready : Ready := .done

/-- A call of flintlockd. -/
def Choice.call (f : Choice) : Option (Except Status Bytes) :=
  match f.outcome with
  | .ok => some (.ok f.bytes)
  | .eof => none
  | .failed st => some (.error st)

/-- A receive on a stream whose other end has `ended` its messages. -/
def Choice.recv {α : Type} (f : Choice) (p : Pipe α) (ended : Bool) :
    Option (Except RecvError α × Pipe α) :=
  match f.outcome with
  | .ok => p.take.map fun r => (.ok r.1, r.2)
  | .eof => if ended && p.drained then some (.error .eof, p) else none
  | .failed st => some (.error (.failed st), p)

/-- `openExec`'s select. -/
def selected (f : Choice) (s : Exchange) : Option (Selected × Exchange) :=
  match f.ready with
  | .done => s.done.map fun r => (.done r, { s with done := none })
  | .timer => if s.timer.any (· ≤ s.now) then some (.timer, s) else none
  | .ctx => s.upErr.map fun e => (.ctx e, s)

/-- **One operation.** -/
def exec (_ : Thread) (f : Choice) : (o : ServerOp) → Exchange → Option (o.Ans × Exchange)
  | .accept, s => if s.accepted then none else some ((), { s with accepted := true })
  | .tokenReview _ _, s => some (f.review, s)
  | .now, s => some (s.now, s)
  | .lookup key, s =>
    some (f.fault.read (s.claims.read key),
      { s with moment := some (s.claims, decide (f.fault = .none)) })
  | .judged caller vmUID now outcome, s => some ((), s.judge caller vmUID now outcome)
  | .serverInfo, s => f.call.map fun r => (r, s)
  | .getMicroVM uid, s =>
    match f.outcome with
    | .ok => some (.ok f.bytes, s.called uid true)
    | .eof => none
    | .failed st => some (.error st, s.called uid f.reached)
  | .recvDown, s => (f.recv s.requests s.closed).map fun r => (r.1, { s with requests := r.2 })
  | .sendDown resp, s =>
    match f.outcome with
    | .ok => some (.ok (), { s with down := s.down.send resp })
    | .eof => none
    -- the error of a send on the server's side is a status, and not OK
    | .failed st => if st.code = .ok then none else some (.error st, s)
  | .goOpen first, s => some ((), { s with toOpen := some first, holder := .opener })
  | .opening, s => s.toOpen.map fun first => (first, { s with toOpen := none })
  | .execCommand, s => f.call.map fun r => (r.map fun _ => (), s)
  | .sendUp req, s =>
    match f.outcome with
    | .ok => some (.ok (), s.forwardTo req true)
    | .eof => some (.error "EOF", s.forwardTo req f.reached)
    | .failed st => some (.error st.message, s.forwardTo req f.reached)
  | .closeSend, s => some ((), s)
  | .recvUp, s => (f.recv s.answers s.answersEnded).map fun r => (r.1, { s with answers := r.2 })
  | .putDone r, s => some ((), { s with done := some r, holder := .handler })
  | .newTimer d, s => some ((), { s with timer := some (s.now + d) })
  | .select, s => selected f s
  | .cancel, s => some ((), { s with cancelled := true })
  | .goForward, s => some ((), { s with forward := .running, holder := .forwarder })
  | .forwarding, s => if s.forward = .running then some ((), s) else none
  | .forwarded, s => some ((), { s with forward := .ended })
  | .goReceive, s => some ((), { s with receive := .running })
  | .receiving, s => if s.receive = .running then some ((), s) else none
  | .storeSecondStart, s => some ((), { s with secondStart := true })
  | .loadSecondStart, s => some (s.secondStart, s)
  | .ctxErr, s => some (s.ctxErr, s)
  | .reply r, s => some ((), { s with reply := some r })
  | .finish st, s => some ((), s.finish st)

/-- What the caller, flintlockd, the API server and the clock do. -/
inductive ExchangeAct where
  | tick (nanoseconds : Nat)
  | store (claims : StoredClaims)
  | callerSends (req : ExecCommandRequest)
  | callerCloses
  | contextDone (e : ContextError)
  | callerTakes
  | flintlockdTakes
  | flintlockdSends (resp : ExecCommandResponse)
  | flintlockdEnds

/-- **One action of everybody else.** -/
def env : ExchangeAct → Exchange → Option Exchange
  | .tick n, s => some { s with now := s.now + n }
  | .store claims, s => some { s with claims := claims }
  | .callerSends req, s =>
    if s.closed then none else some { s with requests := s.requests.send req }
  | .callerCloses, s => some { s with closed := true }
  | .contextDone e, s => some { s with ctxErr := some (s.ctxErr.getD e) }
  | .callerTakes, s => s.down.take.map fun r => { s with down := r.2 }
  | .flintlockdTakes, s => s.up.take.map fun r => { s with up := r.2 }
  | .flintlockdSends resp, s =>
    if s.answersEnded then none else some { s with answers := s.answers.send resp }
  | .flintlockdEnds, s => some { s with answersEnded := true }

/-- **The machine** of one request. The agent's end takes its goroutines with it. -/
def machine (payload : Payload) (srv : Server) (values : List String)
    (method : Method) : Machine Thread Choice ExchangeAct ServerOp ServerOp.Ans Exchange where
  exec := exec
  env := env
  prog
    | .handler => srv.serve payload values method
    | .opener => openStream
    | .forwarder => forwardRound
    | .receiver => receiveRound
  crash s :=
    { s with accepted := true, toOpen := none, done := none, forward := .ended, receive := .ended }

abbrev ExchangeWorld := World Thread ServerOp ServerOp.Ans Exchange

/-- A request comes in. -/
def start (now : Time) (claims : StoredClaims) : ExchangeWorld where
  shared := Exchange.initial now claims
  running := fun _ => none

/-- **Every state of a request**, in every interleaving. -/
def Reachable (payload : Payload) (srv : Server)
    (values : List String) (method : Method) (w : ExchangeWorld) : Prop :=
  ∃ now claims, (machine payload srv values method).Run (fun _ _ => True) (start now claims) w

end BatteryOperator.ExecAgent.Relay
