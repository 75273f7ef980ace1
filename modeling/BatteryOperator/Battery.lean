/-
  Subject:   The battery client (internal/battery/api.go, client.go): the calls the Claim Controller
             makes, their answers and their errors, and battery's events.

  Left out: the Pool and Host administration and the network interfaces of a `Claim`, which no
  modelled function reads.

  * `mapErr` -- which error a failed call returns;
  * `failedInTransit`, `answered` -- how the controller reads a call's error
    (internal/controller/claim/synced.go);
  * `reportsDeletion` -- which events say that a leased MicroVM is gone
    (internal/controller/claim/deleted.go).
-/
import BatteryOperator.Time

namespace BatteryOperator

/-! ## 1. Errors -/

/-- What `errors.Is` tells apart: the sentinel errors of the package, the errors of the caller's
    context, and any other status. -/
inductive ErrorKind where
  | notFound
  | exhausted
  | unavailable
  | alreadyExists
  | invalid
  | failedPrecondition
  | aborted
  | deadlineExceeded
  | canceled
  | other
  deriving DecidableEq

/-- An error of a `Client` method: what it wraps, and its text. -/
structure BatteryError where
  kind : ErrorKind
  text : String
  deriving DecidableEq

/-- `codes.Code`, of a status that is an error. -/
inductive GrpcCode where
  | canceled
  | unknown
  | invalidArgument
  | deadlineExceeded
  | notFound
  | alreadyExists
  | permissionDenied
  | resourceExhausted
  | failedPrecondition
  | aborted
  | outOfRange
  | unimplemented
  | internal
  | unavailable
  | dataLoss
  | unauthenticated
  deriving DecidableEq

/-- `Code.String`. -/
def GrpcCode.string : GrpcCode → String
  | .canceled => "Canceled"
  | .unknown => "Unknown"
  | .invalidArgument => "InvalidArgument"
  | .deadlineExceeded => "DeadlineExceeded"
  | .notFound => "NotFound"
  | .alreadyExists => "AlreadyExists"
  | .permissionDenied => "PermissionDenied"
  | .resourceExhausted => "ResourceExhausted"
  | .failedPrecondition => "FailedPrecondition"
  | .aborted => "Aborted"
  | .outOfRange => "OutOfRange"
  | .unimplemented => "Unimplemented"
  | .internal => "Internal"
  | .unavailable => "Unavailable"
  | .dataLoss => "DataLoss"
  | .unauthenticated => "Unauthenticated"

/-- What ended the caller's context. -/
inductive ContextEnd where
  | canceled
  | deadlineExceeded
  deriving DecidableEq

/-- `context.Canceled` and `context.DeadlineExceeded`. -/
def ContextEnd.error : ContextEnd → BatteryError
  | .canceled => ⟨.canceled, "context canceled"⟩
  | .deadlineExceeded => ⟨.deadlineExceeded, "context deadline exceeded"⟩

/-- `fmt.Errorf("%w: %s", sentinel, message)`. -/
def sentinelError (kind : ErrorKind) (text message : String) : BatteryError :=
  ⟨kind, text ++ ": " ++ message⟩

/-- `ErrUnavailable` with the status's message. -/
def errUnavailable (message : String) : BatteryError :=
  sentinelError .unavailable "battery: unavailable" message

/-- `mapErr`, of a call that failed with a status: `ended` is how the caller's context ended, if it
    did, and `late` says whether its deadline has passed. Every method of the client returns what
    this makes of its status; the method is not looked at. -/
def mapErr (ended : Option ContextEnd) (late : Bool) (code : GrpcCode) (message : String) :
    BatteryError :=
  match code with
  | .notFound => sentinelError .notFound "battery: not found" message
  | .resourceExhausted => sentinelError .exhausted "battery: pool exhausted" message
  | .unavailable => errUnavailable message
  | .alreadyExists => sentinelError .alreadyExists "battery: already exists" message
  | .invalidArgument => sentinelError .invalid "battery: invalid request" message
  | .failedPrecondition =>
    sentinelError .failedPrecondition "battery: failed precondition" message
  | .aborted => sentinelError .aborted "battery: aborted" message
  | .canceled | .deadlineExceeded =>
    match ended with
    | some e => e.error
    | none => if late then ContextEnd.deadlineExceeded.error else errUnavailable message
  | code => ⟨.other, "battery: " ++ code.string ++ ": " ++ message⟩

/-- `failedInTransit`: the call ended without an answer that says what battery did. -/
def failedInTransit : Option BatteryError → Bool
  | none => false
  | some e => e.kind = .unavailable || e.kind = .deadlineExceeded || e.kind = .canceled

/-- `answered`: battery said something about the Lease or the Pool. -/
def answered : Option BatteryError → Bool
  | none => true
  | some e => e.kind = .notFound || e.kind = .exhausted || e.kind = .aborted

/-! ## 2. Calls and answers -/

/-- `PoolRef`. -/
structure PoolRef where
  name : String
  namespace_ : String
  deriving DecidableEq

/-- `PoolRef.String`. -/
def PoolRef.string (r : PoolRef) : String := r.namespace_ ++ "/" ++ r.name

/-- `HostRef`. -/
structure HostRef where
  name : String
  address : String
  deriving DecidableEq

/-- `Claim`: a successful answer to ClaimVM. -/
structure Claim where
  leaseID : String
  vmUID : String
  host : HostRef
  deriving DecidableEq

/-- `LeaseRecord`. -/
structure LeaseRecord where
  leaseID : String
  vmUID : String
  pool : PoolRef
  claimedAt : Time
  lastHeartbeatAt : Time
  expiresAt : Time
  requestID : String
  deriving DecidableEq

/-- The calls of `Client` the Claim Controller makes. -/
inductive Call where
  | claimVM (pool : PoolRef) (requestID : String)
  | heartbeat (leaseID : String)
  | releaseVM (leaseID : String)
  | listLeases (pool : Option PoolRef)
  deriving DecidableEq

/-- What a call that succeeds returns. -/
abbrev Call.Answer : Call → Type
  | .claimVM _ _ => Claim
  | .heartbeat _ => Time
  | .releaseVM _ => Unit
  | .listLeases _ => List LeaseRecord

/-! ## 3. Events -/

/-- `EventType`, as far as the Claim Controller tells the types apart. -/
inductive EventType where
  | vmDeletedDueToExpiry
  | vmDeletedOnRelease
  | vmDeletedOnPoolDelete
  | other
  deriving DecidableEq

/-- `Event`; its id, Pool, time and payload are not read. -/
structure BatteryEvent where
  vmUID : String
  type : EventType
  deriving DecidableEq

/-- `ReportsDeletion`. -/
def reportsDeletion (e : BatteryEvent) : Bool :=
  e.vmUID ≠ "" && (e.type = .vmDeletedDueToExpiry || e.type = .vmDeletedOnRelease ||
    e.type = .vmDeletedOnPoolDelete)

end BatteryOperator
