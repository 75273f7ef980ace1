/-
  Subject:   The Pool Controller (internal/controller/pool_controller.go, pool_scope.go,
             pool_subreconcilers.go, pool_deletion.go, pool_placement.go, pool_stall.go,
             pool_status.go) and the generic scope (internal/reconcile/scope.go, generic.go).

  One reconcile reads its Pool from the cache, runs the chain, and writes what the chain changed
  with two merge patches: the status first, then the rest. `key` is the reconciled Pool's namespace
  and name; every call of battery and of the API server is under it.

  Left out: the log lines, and of the object its labels, annotations and resourceVersion, which
  nothing here reads: the patches carry none.
-/
import BatteryOperator.Faults
import BatteryOperator.Lib.MergePatch
import BatteryOperator.Lib.Program
import BatteryOperator.Pool.Convert
import BatteryOperator.Reconcile
import BatteryOperator.Text
import Mathlib.Data.List.Sort
import Mathlib.Data.String.Basic

namespace BatteryOperator.Pools

open Lib

/-! ## 1. The Pool -/

/-- `PoolFinalizer`. -/
def poolFinalizer : String := "battery.liquidmetal-x.dev/pool"

/-- The condition types of a Pool: `PoolConditionReady` and `PoolConditionExhausted`. -/
inductive PoolCondition where
  | ready
  | exhausted
  deriving DecidableEq

/-- `PoolStatus`. -/
structure PoolStatus where
  observedGeneration : Int := 0
  available : Int32 := 0
  leased : Int32 := 0
  provisioning : Int32 := 0
  quarantined : Int32 := 0
  conditions : List (Condition PoolCondition) := []
  deriving DecidableEq

/-- The status as its JSON reads back. -/
def PoolStatus.encode (st : PoolStatus) : PoolStatus :=
  { st with conditions := st.conditions.map fun c =>
      { c with lastTransitionTime := truncSecond c.lastTransitionTime } }

/-- **What the API server stores** after a merge patch of the difference from `base` to `desired`
    of a status that is `stored` by then. -/
def PoolStatus.merge (base desired stored : PoolStatus) : PoolStatus where
  observedGeneration :=
    mergeField base.observedGeneration desired.observedGeneration stored.observedGeneration
  available := mergeField base.available desired.available stored.available
  leased := mergeField base.leased desired.leased stored.leased
  provisioning := mergeField base.provisioning desired.provisioning stored.provisioning
  quarantined := mergeField base.quarantined desired.quarantined stored.quarantined
  conditions := mergeField base.conditions desired.conditions stored.conditions

/-- `Pool`. -/
structure Pool where
  uid : String
  generation : Int
  deletionTimestamp : Option Time
  finalizers : List String
  spec : PoolSpec
  status : PoolStatus
  deriving DecidableEq

namespace Pool

/-- `!pool.DeletionTimestamp.IsZero()`. -/
def deleting (p : Pool) : Bool := p.deletionTimestamp.isSome

/-- `controllerutil.ContainsFinalizer` for the Pool finalizer. -/
def held (p : Pool) : Bool := p.finalizers.contains poolFinalizer

/-- `controllerutil.RemoveFinalizer` for the Pool finalizer: every occurrence goes. -/
def removeFinalizer (p : Pool) : Pool :=
  { p with finalizers := p.finalizers.filter fun f => f ≠ poolFinalizer }

/-- The object without its status. -/
def rest (p : Pool) : Pool := { p with status := {} }

end Pool

/-! ## 2. Stalled Pools -/

/-- `poolStallState`. -/
structure PoolStallState where
  shortfall : Int32
  since : Time
  notFilling : Bool
  deriving DecidableEq

/-- `poolNotFilling`. -/
structure PoolNotFilling where
  shortfall : Int32
  since : Time
  deriving DecidableEq

/-- `poolStallWait`. -/
def poolStallWait : Duration := 60 * second

/-- The sightings `observe` goes on from: the ones of another shortfall are dropped, and a stalled
    Pool without sightings gets its first. -/
def PoolStallState.start (st : Option PoolStallState) (shortfall : Int32) (stalled : Bool)
    (now : Time) : Option PoolStallState :=
  match st.filter fun st => st.shortfall = shortfall with
  | some st => some st
  | none => if stalled then some ⟨shortfall, now, false⟩ else none

/-- `poolStalls.observe`, on one Pool's sightings: what it answers and what it leaves. -/
def PoolStallState.observe (st : Option PoolStallState) (shortfall : Int32) (stalled : Bool)
    (now : Time) : (Option PoolNotFilling × Duration) × Option PoolStallState :=
  match start st shortfall stalled now with
  | none => ((none, 0), none)
  | some st =>
    let st := if stalled && decide (st.since + poolStallWait ≤ now) then
      { st with notFilling := true } else st
    if st.notFilling then ((some ⟨st.shortfall, st.since⟩, 0), some st)
    else if stalled then ((none, st.since + poolStallWait - now), some st)
    else ((none, 0), some st)

/-! ## 3. Operations and the scope -/

/-- The error of `PoolHosts.Matching`. -/
inductive MatchError where
  | notSynced
  | failed (text : String)
  deriving DecidableEq

/-- What a reconcile asks the Kubernetes client, battery, the Hosts and its memory for; `returned`
    is the reconcile's end. -/
inductive PoolOp where
  | get
  | now
  | matching (selector : Texts)
  | getPool
  | createPool (spec : Battery.PoolSpec)
  | updatePool (spec : Battery.PoolSpec)
  | deletePool
  | forget
  | observe (shortfall : Int32) (stalled : Bool) (now : Time)
  | patchStatus (base object : Pool)
  | patch (base object : Pool)
  | returned (err : Option String)

/-- The answer of each operation. -/
abbrev PoolOp.Ans : PoolOp → Type
  | .get => Except ApiError Pool
  | .now => Time
  | .matching _ => Except MatchError (List String)
  | .getPool => Except BatteryError Battery.Pool
  | .createPool _ => Except BatteryError Battery.Pool
  | .updatePool _ => Except BatteryError Battery.Pool
  | .deletePool => Except BatteryError Unit
  | .forget => Unit
  | .observe _ _ _ => Option PoolNotFilling × Duration
  | .patchStatus _ _ => Except ApiError Unit
  | .patch _ _ => Except ApiError Unit
  | .returned _ => Unit

abbrev PoolM := Prog PoolOp PoolOp.Ans

/-- Ask for one operation. -/
def ask (o : PoolOp) : PoolM o.Ans := Prog.call o

/-- `poolScope`. -/
structure PoolScope where
  object : Pool
  original : Pool
  refusal : Option BatteryError := none
  held : Option Battery.Pool := none
  hosts : List String := []
  sent : Bool := false
  notFilling : Option PoolNotFilling := none

namespace PoolScope

/-- The scope with the object's status changed. -/
def mapStatus (sc : PoolScope) (f : PoolStatus → PoolStatus) : PoolScope :=
  { sc with object := { sc.object with status := f sc.object.status } }

/-- battery accepted the spec: what `poolDeclaration` and `poolUpdate` note then. -/
def accepted (sc : PoolScope) (held : Battery.Pool) : PoolScope :=
  { sc.mapStatus (fun st => { st with observedGeneration := sc.object.generation }) with
    held := some held, sent := true }

/-- The object's conditions with one set, for its generation at the time `now`. -/
def conditionSet (sc : PoolScope) (type : PoolCondition) (status : ConditionStatus)
    (reason message : String) (now : Time) : PoolScope :=
  sc.mapStatus fun st =>
    { st with
      conditions := setStatusCondition st.conditions
        ⟨type, status, reason, message, sc.object.generation, now⟩ }

/-- `setCondition`. -/
def setCondition (sc : PoolScope) (type : PoolCondition) (status : ConditionStatus)
    (reason message : String) : PoolM PoolScope := do
  let now ← ask .now
  pure (sc.conditionSet type status reason message now)

/-- `setDeletionCounts`, and the counts of `poolCounts`. -/
def setCounts (sc : PoolScope) (counts : Battery.PoolStatus) : PoolScope :=
  sc.mapStatus fun st =>
    { st with
      available := counts.available
      leased := counts.leased
      provisioning := counts.provisioning
      quarantined := counts.quarantined }

end PoolScope

abbrev Step := SubReconciler PoolM PoolScope

/-- A step that goes on. -/
def goOn (sc : PoolScope) : Outcome PoolScope := ⟨sc, {}, none⟩

/-- A step that stops the chain without an error. -/
def stopped (sc : PoolScope) : Outcome PoolScope := ⟨sc, { stop := true }, none⟩

/-- A step that stops the chain with an error. -/
def failed (sc : PoolScope) (err : String) : Outcome PoolScope :=
  ⟨sc, { stop := true }, some err⟩

def errInvalid : String := "battery: invalid request"
def errFailedPrecondition : String := "battery: failed precondition"

/-- `batteryMessage`. -/
def batteryMessage (err : BatteryError) (sentinel : String) : String :=
  trimPrefix err.text (sentinel ++ ": ")

section Chain

variable (key : ObjectKey)

/-- The Pool as the errors' texts name it. -/
def ref : String := (poolRef key).string

/-! ## 4. Deletion -/

def poolReasonDeletionBlocked : String := "DeletionBlocked"

/-- The message of the Ready condition with the reason DeletionBlocked. -/
def deletionBlockedMessage (leased : Int32) : String :=
  "battery holds " ++ toString leased.toInt ++ " leased MicroVMs of the Pool, and deletes the " ++
    "Pool with its other MicroVMs once they are gone: a leased MicroVM goes when its claim is " ++
    "released or its Lease expires"

/-- The error of `reportRefusal`. -/
def deletionRefused (leased : Int32) : String :=
  "battery refused to delete Pool " ++ ref key ++ ": " ++ toString leased.toInt ++
    " leased MicroVMs remain: " ++ errFailedPrecondition

/-- `reportRefusal`: the scope it leaves; its error is `deletionRefused`. -/
def reportRefusal (sc : PoolScope) (st : Battery.PoolStatus) : PoolM PoolScope :=
  (sc.setCounts st).setCondition .ready .false poolReasonDeletionBlocked
    (deletionBlockedMessage st.leased)

/-- `releasePool`. -/
def releasePool (sc : PoolScope) : PoolScope := { sc with object := sc.object.removeFinalizer }

/-- The rest of `poolDeletion` once battery refused to delete the Pool it holds. -/
def drain (sc : PoolScope) (held : Battery.Pool) : PoolM (Outcome PoolScope) := do
  if isDrainedSpec held.spec then
    let sc ← reportRefusal sc held.status
    pure (failed sc (deletionRefused key held.status.leased))
  else
    match ← ask (.updatePool (drainedSpec held.spec)) with
    | .error e =>
      let sc ← reportRefusal sc held.status
      pure ⟨sc, { stop := true }, joinErrors
        ["sending Pool " ++ ref key ++ "'s drained spec to battery: " ++ e.text,
          deletionRefused key held.status.leased]⟩
    | .ok updated =>
      let sc ← reportRefusal sc updated.status
      pure (failed sc (deletionRefused key updated.status.leased))

/-- `poolDeletion`. -/
def poolDeletion : Step := fun sc => do
  if !sc.object.deleting then pure (goOn sc)
  else if !sc.object.held then pure (stopped sc)
  else
    match ← ask .deletePool with
    | .ok () => pure (stopped (releasePool sc))
    | .error e =>
      if e.kind = .notFound then pure (stopped (releasePool sc))
      else if e.kind ≠ .failedPrecondition then
        pure (failed sc ("deleting Pool " ++ ref key ++ " from battery: " ++ e.text))
      else
        match ← ask .getPool with
        | .ok held => drain key sc held
        | .error e =>
          if e.kind = .notFound then pure (stopped (releasePool sc))
          else pure (failed sc ("getting Pool " ++ ref key ++ " from battery: " ++ e.text))

/-! ## 5. Finalizer and placement -/

/-- `EnsureFinalizer` with the Pool finalizer. -/
def ensureFinalizer : Step := fun sc =>
  if sc.object.held then pure (goOn sc)
  else
    pure (stopped { sc with object :=
      { sc.object with finalizers := sc.object.finalizers ++ [poolFinalizer] } })

/-- `poolPlacement`. -/
def poolPlacement : Step := fun sc => do
  match ← ask (.matching sc.object.spec.nodeSelector) with
  | .ok hosts => pure (goOn { sc with hosts := hosts })
  | .error .notSynced => pure (stopped sc)
  | .error (.failed text) =>
    pure (failed sc ("resolving the selector of Pool " ++ ref key ++ ": " ++ text))

/-! ## 6. Declaration and update -/

/-- `poolDeclaration`. -/
def poolDeclaration : Step := fun sc => do
  match ← ask .getPool with
  | .ok held => pure (goOn { sc with held := some held })
  | .error e =>
    if e.kind ≠ .notFound then
      pure (failed sc ("getting Pool " ++ ref key ++ " from battery: " ++ e.text))
    else if !sc.original.held then pure (stopped sc)
    else
      match ← ask (.createPool (poolSpecToBattery key sc.object.spec sc.hosts)) with
      | .ok held => pure (goOn (sc.accepted held))
      | .error e =>
        if e.kind = .alreadyExists then pure (goOn sc)
        else if e.kind = .invalid then pure (goOn { sc with refusal := some e })
        else pure (failed sc ("creating Pool " ++ ref key ++ " in battery: " ++ e.text))

/-- `slices.Sorted`. -/
def sorted (names : List String) : List String := names.insertionSort (· ≤ ·)

/-- The spec battery holds is to be replaced: its generation has moved, or its Hosts have. -/
def outdated (sc : PoolScope) (held : Battery.Pool) : Bool :=
  sc.object.generation ≠ sc.object.status.observedGeneration ||
    sorted held.spec.flintlockHosts ≠ sc.hosts

/-- The second half of `poolUpdate`, on the Pool battery holds. -/
def sendUpdate (sc : PoolScope) (held : Battery.Pool) : PoolM (Outcome PoolScope) := do
  if !outdated sc held then pure (goOn sc)
  else
    match ← ask (.updatePool (poolSpecToBattery key sc.object.spec sc.hosts)) with
    | .ok held => pure (goOn (sc.accepted held))
    | .error e =>
      if e.kind = .invalid then pure (goOn { sc with refusal := some e })
      else pure (failed sc ("updating Pool " ++ ref key ++ " in battery: " ++ e.text))

/-- `poolUpdate`. -/
def poolUpdate : Step := fun sc => do
  if sc.refusal.isSome then pure (goOn sc)
  else
    match sc.held with
    | some held => sendUpdate key sc held
    | none =>
      match ← ask .getPool with
      | .ok held => sendUpdate key { sc with held := some held } held
      | .error e =>
        if e.kind = .notFound then pure (goOn sc)
        else pure (failed sc ("getting Pool " ++ ref key ++ " from battery: " ++ e.text))

/-! ## 7. Status -/

def poolReasonRejected : String := "Rejected"
def poolReasonAtSize : String := "AtSize"
def poolReasonBelowSize : String := "BelowSize"
def poolReasonNotFilling : String := "NotFilling"
def poolReasonNotInBattery : String := "NotInBattery"
def poolReasonNoEligibleHost : String := "NoEligibleHost"
def poolReasonNoneAvailable : String := "NoneAvailable"
def poolReasonAvailable : String := "Available"
def poolReasonSizeZero : String := "SizeZero"

/-- A refusal battery no longer makes goes from the conditions (`meta.RemoveStatusCondition`). -/
def clearRejection (st : PoolStatus) : PoolStatus :=
  match findStatusCondition st.conditions .ready with
  | some ready =>
    if ready.reason = poolReasonRejected then
      { st with conditions := st.conditions.filter fun c => c.type ≠ .ready }
    else st
  | none => st

/-- `poolRejection`. -/
def poolRejection : Step := fun sc => do
  match sc.refusal with
  | none => pure (goOn (sc.mapStatus clearRejection))
  | some e =>
    let sc ← sc.setCondition .ready .false poolReasonRejected (batteryMessage e errInvalid)
    pure (goOn sc)

/-- `poolShortfall`, where the Pool's strategy has one. -/
def poolShortfall (sc : PoolScope) (st : Battery.PoolStatus) : Option Int32 :=
  match sc.object.spec.replenishment.type with
  | .immediateOnLease => some (sc.object.spec.size - st.available)
  | .replaceOnDelete => some (sc.object.spec.size - (st.available + st.leased))
  | _ => none

/-- What `poolStall` watches: battery's counts and the shortfall, where it applies to the Pool. -/
def stallWatched (sc : PoolScope) : Option (Battery.PoolStatus × Int32) :=
  match sc.held with
  | none => none
  | some held =>
    if sc.refusal.isSome || sc.hosts.isEmpty ||
        sc.object.generation ≠ sc.object.status.observedGeneration then none
    else
      match poolShortfall sc held.status with
      | none => none
      | some shortfall => if shortfall ≤ 0 then none else some (held.status, shortfall)

/-- `poolStall`. -/
def poolStall : Step := fun sc => do
  match stallWatched sc with
  | none =>
    ask .forget
    pure (goOn sc)
  | some (st, shortfall) =>
    let now ← ask .now
    let (nf, after) ← ask (.observe shortfall (st.provisioning = 0) now)
    pure ⟨{ sc with notFilling := nf }, { requeueAfter := if 0 < after then after else 0 }, none⟩

/-- battery's counts as the status shows them; zero for a Pool battery does not hold. -/
def countsOf (held : Option Battery.Pool) : Battery.PoolStatus :=
  match held with
  | none => {}
  | some held => held.status

/-- `poolCounts`. -/
def poolCounts : Step := fun sc => do
  if sc.held.isNone && sc.refusal.isNone then
    match ← ask .getPool with
    | .ok held => pure (goOn ({ sc with held := some held }.setCounts held.status))
    | .error e =>
      if e.kind = .notFound then pure (goOn (sc.setCounts {}))
      else pure (failed sc ("getting Pool " ++ ref key ++ " from battery: " ++ e.text))
  else pure (goOn (sc.setCounts (countsOf sc.held)))

/-- The status, reason and message `poolExhaustion` gives the Exhausted condition. -/
def exhaustion (sc : PoolScope) : ConditionStatus × String × String :=
  let available := sc.object.status.available
  if sc.object.spec.size ≤ 0 then (.false, poolReasonSizeZero, "The Pool's size is zero")
  else if available = 0 then
    (.true, poolReasonNoneAvailable, "battery reports no available MicroVM")
  else
    (.false, poolReasonAvailable,
      "battery reports " ++ toString available.toInt ++ " available MicroVMs")

/-- `poolExhaustion`. -/
def poolExhaustion : Step := fun sc => do
  let (status, reason, message) := exhaustion sc
  let sc ← sc.setCondition .exhausted status reason message
  pure (goOn sc)

/-- `countOf`. -/
def countOf (n : Int) (noun : String) : String :=
  if n = 1 then "1 " ++ noun else toString n ++ " " ++ noun ++ "s"

/-- `notFillingMessage`. -/
def notFillingMessage (nf : PoolNotFilling) : String :=
  "The Pool has been " ++ countOf nf.shortfall.toInt "MicroVM" ++ " short since " ++
    rfc3339 nf.since ++ ". battery does not report why provisioning fails: see the log of the " ++
    "battery container"

/-- The message of the Ready condition of a Pool by its size. -/
def sizeMessage (total size : Int32) : String :=
  toString total.toInt ++ " of " ++ toString size.toInt ++
    " MicroVMs are available, leased or provisioning"

/-- The status, reason and message `poolReadiness` gives the Ready condition. -/
def readiness (sc : PoolScope) : ConditionStatus × String × String :=
  let st := sc.object.status
  let total := st.available + st.leased + st.provisioning
  if sc.hosts.isEmpty then
    (.false, poolReasonNoEligibleHost, "The Pool's node selector matches no Host")
  else if sc.held.isNone then
    (.false, poolReasonNotInBattery, "battery does not hold the Pool")
  else if total < sc.object.spec.size then
    match sc.notFilling with
    | some nf => (.false, poolReasonNotFilling, notFillingMessage nf)
    | none => (.false, poolReasonBelowSize, sizeMessage total sc.object.spec.size)
  else (.true, poolReasonAtSize, sizeMessage total sc.object.spec.size)

/-- `poolReadiness`. -/
def poolReadiness : Step := fun sc => do
  if sc.refusal.isSome then pure (goOn sc)
  else
    let (status, reason, message) := readiness sc
    let sc ← sc.setCondition .ready status reason message
    pure (goOn sc)

/-! ## 8. The reconcile -/

/-- `poolChain`. -/
def poolChain : Chain PoolM PoolScope where
  steps :=
    [poolDeletion key, ensureFinalizer, poolPlacement key, poolDeclaration key, poolUpdate key,
      poolRejection, poolStall, poolCounts key, poolExhaustion, poolReadiness]
  finally_ := []

/-- The error of a patch, `client.IgnoreNotFound` of it. -/
def patchError (what : String) : Except ApiError Unit → List String
  | .ok () => []
  | .error e => if e.isNotFound then [] else [what ++ ref key ++ ": " ++ e.text]

/-- The first half of `Patch`: the status. -/
def patchStatus (sc : PoolScope) : PoolM (List String) := do
  if sc.original.status.encode = sc.object.status.encode then pure []
  else
    let r ← ask (.patchStatus sc.original sc.object)
    pure (patchError key "patching the status of " r)

/-- The second half of `Patch`: metadata and spec. -/
def patchRest (sc : PoolScope) : PoolM (List String) := do
  if sc.original.rest = sc.object.rest then pure []
  else
    let r ← ask (.patch sc.original sc.object)
    pure (patchError key "patching " r)

/-- `Scope.Patch`. -/
def patch (sc : PoolScope) : PoolM (Option String) := do
  let errs ← patchStatus key sc
  let errs' ← patchRest key sc
  pure (joinErrors (errs ++ errs'))

/-- `Reconcile` of a Pool that was read. -/
def reconcilePool (pool : Pool) : PoolM (Result × Option String) := do
  let o ← (poolChain key).run { object := pool, original := pool }
  let patchErr ← patch key o.scope
  pure (o.result, joinErrors (o.err.toList ++ patchErr.toList))

/-- `PoolReconciler.Reconcile`. -/
def reconcile : PoolM (Result × Option String) := do
  match ← ask .get with
  | .ok pool => reconcilePool key pool
  | .error e =>
    if e.isNotFound then
      ask .forget
      pure ({}, none)
    else pure ({}, some e.text)

end Chain

end BatteryOperator.Pools
