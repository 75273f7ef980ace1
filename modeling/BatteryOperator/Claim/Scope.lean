/-
  Subject:   One reconcile of one claim (internal/controller/claimscope/scope.go): the operations
             its steps ask for, the scope they change, and the write at its end.

  A step never writes the claim: it changes the scope's copy, and `Scope.patch` writes what changed
  once the chain has run. Whatever a step does outside the scope is an operation (`Op`); log lines
  are left out, except the one that says a claim was expired.
-/
import BatteryOperator.History
import BatteryOperator.Lib.Program
import BatteryOperator.Reconcile

namespace BatteryOperator

open Lib

/-! ## 1. Operations -/

/-- What `apierrors` tells apart. -/
inductive ApiErrorKind where
  | notFound
  | alreadyExists
  | conflict
  | invalid
  | other
  deriving DecidableEq

/-- An error of the API server or of a client in front of it. -/
structure ApiError where
  kind : ApiErrorKind
  text : String
  deriving DecidableEq

/-- `apierrors.IsNotFound`. -/
def ApiError.isNotFound (e : ApiError) : Bool := e.kind = .notFound

/-- A Pool object, as far as the Claim Controller reads it. -/
structure PoolObject where
  deletionTimestamp : Option Time
  deriving DecidableEq

/-- A Node, as far as the Claim Controller reads it. -/
structure Node where
  name : String
  annotations : List (String × String)
  deriving DecidableEq

/-- `ObjectKey.String`. -/
def ObjectKey.string (k : ObjectKey) : String := k.namespace_ ++ "/" ++ k.name

/-- What the Claim Controller's code does outside its own memory, or to the memory its reconciles
    share. -/
inductive Op where
  /-- The claim from the manager's cache. -/
  | cacheGet (key : ObjectKey)
  /-- The claim from the API server (`APIReader`). -/
  | apiGet (key : ObjectKey)
  /-- The Pool from the API server. -/
  | poolGet (key : ObjectKey)
  /-- The Node from the manager's cache. -/
  | nodeGet (name : String)
  /-- Every claim from the manager's cache. -/
  | cacheList
  /-- `Clock.Now`. -/
  | now
  /-- `BindSlots.tryAcquire`, of so many slots. -/
  | tryAcquire (slots : Nat)
  /-- `BindSlots.release`. -/
  | releaseSlot
  /-- A call to battery leaves, for the claim of this uid. -/
  | send (uid : String) (call : Call)
  /-- The call's end. -/
  | receive (uid : String) (call : Call)
  /-- `DeletedVMs.Has`. -/
  | deletedHas (uid : String)
  /-- `RecoveredLeases.lookup`. -/
  | lookup (id : String)
  /-- `RecoveredLeases.Record`. -/
  | record (recorded : List String) (listed : List LeaseRecord)
  /-- The log line of `expire`. -/
  | logExpired (uid leaseID : String) (why : Why)
  /-- A merge patch of the difference from `original` to `object`, with the optimistic lock. -/
  | patchMeta (original object : MicroVMClaim)
  /-- A merge patch of the difference of the statuses of `base` and `object`, without one. -/
  | patchStatus (base object : MicroVMClaim)

/-- How an operation is answered. A known lease id of `lookup` has battery's record, or none. -/
abbrev Op.Ans : Op → Type
  | .cacheGet _ => Except ApiError MicroVMClaim
  | .apiGet _ => Except ApiError MicroVMClaim
  | .poolGet _ => Except ApiError PoolObject
  | .nodeGet _ => Except ApiError Node
  | .cacheList => Except ApiError (List MicroVMClaim)
  | .now => Time
  | .tryAcquire _ => Bool
  | .releaseSlot => Unit
  | .send _ _ => Unit
  | .receive _ call => Except BatteryError call.Answer
  | .deletedHas _ => Bool
  | .lookup _ => Option (Option LeaseRecord)
  | .record _ _ => Unit
  | .logExpired _ _ _ => Unit
  | .patchMeta _ _ => Except ApiError MicroVMClaim
  | .patchStatus _ _ => Except ApiError MicroVMClaim

/-- The Claim Controller's programs. -/
abbrev Code := Prog Op Op.Ans

/-- Ask for one operation. -/
abbrev ask (o : Op) : Code o.Ans := Prog.call o

/-- A call to battery, for the claim of this uid: it is sent, and some time later it ends. -/
def callBattery (uid : String) (call : Call) : Code (Except BatteryError call.Answer) := do
  ask (.send uid call)
  ask (.receive uid call)

/-! ## 2. The scope -/

/-- `BatteryCall`. -/
structure BatteryCall where
  method : String
  err : Option BatteryError
  deriving DecidableEq

/-- `Scope`: the working copy, the claim as fetched, and what the chain's steps tell each other. -/
structure Scope where
  object : MicroVMClaim
  original : MicroVMClaim
  batteryCall : Option BatteryCall := none
  poolDeleting : Bool := false

namespace Scope

/-- `New`. -/
def new (claim : MicroVMClaim) : Scope := { object := claim, original := claim }

/-- `Scope.Called`. -/
def called (s : Scope) (method : String) (err : Option BatteryError) : Scope :=
  { s with batteryCall := some ⟨method, err⟩ }

/-- The scope with another working status. -/
def setStatus (s : Scope) (st : MicroVMClaimStatus) : Scope :=
  { s with object := { s.object with status := st } }

/-- The scope with one condition set, in the words of `meta.SetStatusCondition`; its
    `ObservedGeneration` is always the working copy's generation. -/
def setCondition (s : Scope) (type : ClaimCondition) (status : ConditionStatus)
    (reason message : String) (now : Time) : Scope :=
  s.setStatus { s.object.status with
    conditions := setStatusCondition s.object.status.conditions
      { type := type, status := status, reason := reason, message := message,
        observedGeneration := s.object.generation, lastTransitionTime := now } }

@[simp] theorem called_object (s : Scope) (method : String) (err : Option BatteryError) :
    (s.called method err).object = s.object := rfl

/-! ## 3. The write -/

/-- The second half of `Patch`: the status, if it changed against `base`. -/
def patchStatus (base : MicroVMClaim) (desired : MicroVMClaimStatus) : Code (Option String) :=
  if base.status.encode = desired.encode then pure none
  else do
    match ← ask (.patchStatus base { base with status := desired }) with
    | .ok _ => pure none
    | .error e =>
      pure (some ("patching the status of MicroVMClaim " ++ base.key.string ++ ": " ++ e.text))

/-- The working copy with the status it was fetched with. -/
def unpatched (s : Scope) : MicroVMClaim := { s.object with status := s.original.status }

/-- The first half of `Patch`, and the second against the API server's answer to it. -/
def patchMeta (s : Scope) : Code (Option String) := do
  let gone := s.unpatched.deleting && s.unpatched.finalizers.isEmpty
  match ← ask (.patchMeta s.original s.unpatched) with
  | .error e =>
    if gone && e.isNotFound then pure none
    else pure (some ("patching MicroVMClaim " ++ s.unpatched.key.string ++ ": " ++ e.text))
  | .ok answer => if gone then pure none else patchStatus answer s.object.status

/-- `Scope.Patch`: the metadata, then the status, each only if it changed. -/
def patch (s : Scope) : Code (Option String) :=
  if s.unpatched = s.original then patchStatus s.unpatched s.object.status else s.patchMeta

end Scope

end BatteryOperator
