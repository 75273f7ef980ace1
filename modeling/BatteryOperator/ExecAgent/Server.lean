/-
  Subject:   The exec API in front of the local flintlockd (internal/execagent/server.go).

  A request runs in its handler. `openExec` starts a goroutine that opens the stream to flintlockd
  (`openStream`), and `relayExec` one that forwards the caller's messages (`forwardRound`, one turn
  of its loop) before it receives flintlockd's itself (`receiveRound`, one turn of its loop). They
  share the two streams, the exchange's context, the channel `done` and the flag `secondStart`;
  every use of one of these is an operation, so anything may come in between.

  Logging is left out. `judged` is the history's: no program reads it.
-/
import BatteryOperator.ExecAgent.Auth
import BatteryOperator.Lib.Program

namespace BatteryOperator.ExecAgent.Relay

open Lib

/-! ## 1. Messages and statuses -/

abbrev Bytes := List UInt8

/-- `codes.Code`. -/
inductive Code where
  | ok | canceled | unknown | invalidArgument | deadlineExceeded | notFound | alreadyExists
  | permissionDenied | resourceExhausted | failedPrecondition | aborted | outOfRange
  | unimplemented | internal | unavailable | dataLoss | unauthenticated
  deriving DecidableEq

/-- `status.Status`: how a call ends. -/
structure Status where
  code : Code
  message : String
  deriving DecidableEq

/-- `execv1.ExecStart`: the MicroVM it names, and its other fields, which the agent only passes
    on. -/
structure ExecStart where
  uid : String
  rest : Bytes
  deriving DecidableEq

/-- `execv1.ExecCommandRequest`. -/
inductive ExecCommandRequest where
  | start (s : ExecStart)
  | stdin (data : Bytes)
  | unset
  deriving DecidableEq

/-- `GetStart`. -/
def ExecCommandRequest.getStart : ExecCommandRequest → Option ExecStart
  | .start s => some s
  | _ => none

/-- `execv1.ExecCommandResponse`. -/
inductive ExecCommandResponse where
  | stdout (data : Bytes)
  | stderr (data : Bytes)
  | exitCode (code : Int)
  | error (text : String)
  | unset
  deriving DecidableEq

/-- The payload is an exit code. -/
def ExecCommandResponse.isExitCode : ExecCommandResponse → Bool
  | .exitCode _ => true
  | _ => false

/-- Why a context is done. -/
inductive ContextError where
  | canceled
  | deadlineExceeded
  deriving DecidableEq

/-- `Error`. -/
def ContextError.text : ContextError → String
  | .canceled => "context canceled"
  | .deadlineExceeded => "context deadline exceeded"

/-- `status.FromContextError`. -/
def fromContextError (e : ContextError) : Status :=
  match e with
  | .canceled => ⟨.canceled, e.text⟩
  | .deadlineExceeded => ⟨.deadlineExceeded, e.text⟩

/-- How a receive on a stream ends when it brings no message. -/
inductive RecvError where
  | eof
  | failed (st : Status)
  deriving DecidableEq

/-- What `openExec`'s select took. -/
inductive Selected where
  | done (r : Except String Unit)
  | timer
  | ctx (e : ContextError)

/-! ## 2. Operations -/

/-- What the goroutines of one request ask for. -/
inductive ServerOp where
  /-- The handler begins. -/
  | accept
  | tokenReview (token : String) (audiences : List String)
  | now
  | lookup (key : ObjectKey)
  | judged (caller : Caller) (vmUID : String) (now : Time) (outcome : Except AuthError Unit)
  | serverInfo
  | getMicroVM (uid : String)
  /-- `down.Recv`, `down.Send`. -/
  | recvDown
  | sendDown (resp : ExecCommandResponse)
  /-- `go func()` of `openExec`, and its first instruction. -/
  | goOpen (first : ExecCommandRequest)
  | opening
  /-- `s.fl.exec.ExecCommand`. -/
  | execCommand
  /-- `up.Send`, `up.CloseSend`, `up.Recv`. -/
  | sendUp (req : ExecCommandRequest)
  | closeSend
  | recvUp
  | putDone (r : Except String Unit)
  | newTimer (d : Duration)
  | select
  | cancel
  /-- `go func()` of `relayExec`, the beginning of a turn of its loop, and its return. -/
  | goForward
  | forwarding
  | forwarded
  /-- The receiving loop begins, and a turn of it. -/
  | goReceive
  | receiving
  | storeSecondStart
  | loadSecondStart
  | ctxErr
  /-- A unary handler returns. -/
  | reply (r : Except Status Bytes)
  /-- The stream's handler returns, and cancels the exchange. -/
  | finish (st : Status)

/-- The answer of each operation. -/
def ServerOp.Ans : ServerOp → Type
  | .accept => Unit
  | .tokenReview _ _ => Except String TokenReviewStatus
  | .now => Time
  | .lookup _ => Except ApiError MicroVMClaim
  | .judged _ _ _ _ => Unit
  | .serverInfo => Except Status Bytes
  | .getMicroVM _ => Except Status Bytes
  | .recvDown => Except RecvError ExecCommandRequest
  | .sendDown _ => Except Status Unit
  | .goOpen _ => Unit
  | .opening => ExecCommandRequest
  | .execCommand => Except Status Unit
  | .sendUp _ => Except String Unit
  | .closeSend => Unit
  | .recvUp => Except RecvError ExecCommandResponse
  | .putDone _ => Unit
  | .newTimer _ => Unit
  | .select => Selected
  | .cancel => Unit
  | .goForward => Unit
  | .forwarding => Unit
  | .forwarded => Unit
  | .goReceive => Unit
  | .receiving => Unit
  | .storeSecondStart => Unit
  | .loadSecondStart => Bool
  | .ctxErr => Option ContextError
  | .reply _ => Unit
  | .finish _ => Unit

/-- Programs of the agent's server. -/
abbrev ServerCode := Prog ServerOp ServerOp.Ans

/-- The code that asks for one operation. -/
def ask (o : ServerOp) : ServerCode o.Ans := Prog.call o

/-- `server`, as far as a request reads it. -/
structure Server extends Agent where
  openTimeout : Duration
  deriving DecidableEq

/-! ## 3. Who may -/

section Payload

variable (payload : Payload)

/-- `server.authenticate`. -/
def Server.authenticate (srv : Server) (values : List String) :
    ServerCode (Except Status Caller) := do
  let review := fun token audiences => ask (.tokenReview token audiences)
  match ← ExecAgent.authenticate payload srv.audiences review values with
  | .ok caller => pure (.ok caller)
  | .error (.review _) =>
    pure (.error ⟨.unavailable,
      "the exec agent could not review the bearer token; the request was refused"⟩)
  | .error (.unauthenticated _) =>
    pure (.error ⟨.unauthenticated,
      "the request does not authenticate: a valid bearer token is required"⟩)

/-- The status of a refusal. -/
def Server.refusal (srv : Server) (caller : Caller) (vmUID : String) : AuthError → Status
  | .lookup _ =>
    ⟨.unavailable, "the exec agent could not look up the claim; the request was refused"⟩
  | .notAuthorized _ =>
    ⟨.permissionDenied, "no Bound, unexpired claim of " ++ caller.user ++ " names microvm " ++
      quote vmUID ++ " on host " ++ srv.hostNode⟩

/-- **`server.authorize`.** -/
def Server.authorize (srv : Server) (caller : Caller) (vmUID : String) :
    ServerCode (Except Status Unit) := do
  let now ← ask .now
  let outcome ← srv.authorizeClaim (fun key => ask (.lookup key)) caller vmUID now
  ask (.judged caller vmUID now outcome)
  match outcome with
  | .ok _ => pure (.ok ())
  | .error err => pure (.error (srv.refusal caller vmUID err))

/-! ## 4. The stream to flintlockd -/

/-- **The goroutine of `openExec`.** -/
def openStream : ServerCode Unit := do
  let first ← ask .opening
  match ← ask (.getMicroVM ((first.getStart.map ExecStart.uid).getD "")) with
  | .error st => ask (.putDone (.error ("asking flintlockd for the microvm: " ++ st.message)))
  | .ok _ =>
    match ← ask .execCommand with
    | .error st => ask (.putDone (.error ("opening the exec stream: " ++ st.message)))
    | .ok _ =>
      match ← ask (.sendUp first) with
      | .error err => ask (.putDone (.error ("sending the exec start: " ++ err)))
      | .ok _ => ask (.putDone (.ok ()))

/-- **`openExec`.** -/
def Server.openExec (srv : Server) (first : ExecCommandRequest) :
    ServerCode (Except String Unit) := do
  ask (.goOpen first)
  ask (.newTimer srv.openTimeout)
  match ← ask .select with
  | .done r => pure r
  | .timer => do
      ask .cancel
      pure (.error ("not open within the deadline of " ++ durationText srv.openTimeout))
  | .ctx e => pure (.error e.text)

/-! ## 5. The relay -/

/-- **One turn of the goroutine that forwards the caller's messages.** -/
def forwardRound : ServerCode Unit := do
  ask .forwarding
  match ← ask .recvDown with
  | .error .eof => do
      ask .closeSend
      ask .forwarded
  | .error (.failed _) => do
      ask .cancel
      ask .forwarded
  | .ok req =>
    match req.getStart with
    | some _ => do
        ask .storeSecondStart
        ask .cancel
        ask .forwarded
    | none =>
      match ← ask (.sendUp req) with
      | .error _ => ask .forwarded
      | .ok _ => pure ()

/-- The status of an exchange whose stream to flintlockd ended with `err`. -/
def streamFailure : RecvError → Status
  | .eof => ⟨.unavailable, "flintlockd ended the exec stream before the command's exit status"⟩
  | .failed st =>
    ⟨if st.code = .ok ∨ st.code = .unknown then .unavailable else st.code,
      "the exec stream to flintlockd failed before the command's exit status: " ++ st.message⟩

/-- How `relayExec` returns when a receive from flintlockd fails. -/
def receiveFailed (err : RecvError) : ServerCode Unit := do
  let secondStart : Bool ← ask .loadSecondStart
  if secondStart then
    ask (.finish ⟨.invalidArgument,
      "an exchange carries one ExecStart, first; a second one ends it"⟩)
  else
    match ← ask .ctxErr with
    | some e => ask (.finish (fromContextError e))
    | none => ask (.finish (streamFailure err))

/-- **One turn of the loop that receives flintlockd's messages.** -/
def receiveRound : ServerCode Unit := do
  ask .receiving
  match ← ask .recvUp with
  | .error err => receiveFailed err
  | .ok resp =>
    match ← ask (.sendDown resp) with
    | .error st => ask (.finish st)
    | .ok _ => if resp.isExitCode then ask (.finish ⟨.ok, ""⟩) else pure ()

/-- **`relayExec`**, up to its loop. -/
def Server.relayExec (srv : Server) (first : ExecCommandRequest) : ServerCode Unit := do
  match ← srv.openExec first with
  | .error err => ask (.finish ⟨.unavailable, "flintlockd did not open the exec stream: " ++ err⟩)
  | .ok _ => do
      ask .goForward
      ask .goReceive

/-! ## 6. The handlers -/

/-- **`ExecCommand`.** -/
def Server.execCommand (srv : Server) (caller : Caller) : ServerCode Unit := do
  match ← ask .recvDown with
  | .error _ => ask (.finish ⟨.invalidArgument, "the exchange ended before its ExecStart"⟩)
  | .ok first =>
    match first.getStart with
    | none =>
      ask (.finish ⟨.invalidArgument,
        "the first message of an exchange has to be its ExecStart"⟩)
    | some start =>
      match ← srv.authorize caller start.uid with
      | .error st => ask (.finish st)
      | .ok _ => srv.relayExec first

/-- `GetMicroVM`. -/
def Server.getMicroVM (srv : Server) (caller : Caller) (uid : String) :
    ServerCode (Except Status Bytes) := do
  match ← srv.authorize caller uid with
  | .error st => pure (.error st)
  | .ok _ => ask (.getMicroVM uid)

/-- The calls of the exec API. -/
inductive Method where
  | execCommand
  | getMicroVM (uid : String)
  | serverInfo
  deriving DecidableEq

/-- **A request**, with its `authorization` header: `streamInterceptor` or `unaryInterceptor`, then
    the handler. -/
def Server.serve (srv : Server) (values : List String) (method : Method) : ServerCode Unit := do
  ask .accept
  match ← srv.authenticate payload values, method with
  | .error st, .execCommand => ask (.finish st)
  | .error st, _ => ask (.reply (.error st))
  | .ok caller, .execCommand => srv.execCommand caller
  | .ok caller, .getMicroVM uid => do ask (.reply (← srv.getMicroVM caller uid))
  | .ok _, .serverInfo => do ask (.reply (← ask .serverInfo))

end Payload

end BatteryOperator.ExecAgent.Relay
