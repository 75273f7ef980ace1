/-
  Subject:   The subreconcilers of the Claim Controller (internal/controller/claim), each over the
             scope of one reconcile, in the order the chain runs them.

  `Release` ends the Lease of a claim being deleted; `EnsureFinalizer`, `Bind` and `Pending` take a
  claim to its Lease; `ExpireDeleted`, `Recover`, `Renew` and `CheckExpiry` keep or expire a Bound
  claim; `AgentAddress` and `HostReady` mirror the Host's Node; `Synced` says how the last call to
  battery ended.
-/
import BatteryOperator.Claim.Scope

namespace BatteryOperator

open Lib

/-! ## 1. What the steps share -/

/-- The names of the `Client` methods in a `BatteryCall`. -/
def methodClaimVM : String := "ClaimVM"
def methodHeartbeat : String := "Heartbeat"
def methodListLeases : String := "ListLeases"
def methodReleaseVM : String := "ReleaseVM"

/-- `Backoff`. -/
structure Backoff where
  min : Duration
  max : Duration
  deriving DecidableEq

/-- `DefaultBackoff`. -/
def defaultBackoff : Backoff := ⟨second, 30 * second⟩

/-- `Backoff.after`. -/
def Backoff.after (b : Backoff) (pending : Duration) : Duration :=
  Min.min (Max.max pending b.min) b.max

/-- `holdsLease`: a Bound claim with a Lease that is not being deleted. -/
def holdsLease (c : MicroVMClaim) : Bool :=
  c.status.phase = .bound && c.status.leaseID ≠ "" && !c.deleting

/-- What `holdsLease` says of a claim. -/
theorem holdsLease_iff {c : MicroVMClaim} : holdsLease c = true ↔
    c.status.phase = .bound ∧ c.status.leaseID ≠ "" ∧ c.deleting = false := by
  unfold holdsLease
  simp only [Bool.and_eq_true, decide_eq_true_eq, Bool.not_eq_true', and_assoc]

/-- `pendingRenewal`. -/
def pendingRenewal (c : MicroVMClaim) : Bool := c.spec.renewTime ≠ c.status.observedRenewTime

/-- `expire`. -/
def expire (s : Scope) (why : Why) : Code Scope := do
  let s := s.setStatus { s.object.status with phase := .expired }
  let now ← ask .now
  let s := s.setCondition .bound .false reasonLeaseExpired why.text now
  ask (.logExpired s.object.uid s.object.status.leaseID why)
  pure s

/-- `retryAfter`. -/
def retryAfter (s : Scope) (b : Backoff) : Code Duration := do
  let now ← ask .now
  let since :=
    match findStatusCondition s.object.status.conditions .synced with
    | some c => if c.status = .false then c.lastTransitionTime else now
    | none => now
  pure (b.after (now - since))

/-- `until`: how long from now until `t`, at least a second. -/
def until_ (t : Time) : Code Duration := do
  let now ← ask .now
  pure (max (t - now) second)

/-- `unavailableSince`. -/
def unavailableSince (s : Scope) : Code Time :=
  match findStatusCondition s.object.status.conditions .synced with
  | some c =>
    if c.status ≠ .false ∨ c.reason ≠ reasonBatteryUnavailable then ask .now
    else pure c.lastTransitionTime
  | none => ask .now

/-- The battery Pool of a claim. -/
def poolOf (c : MicroVMClaim) : PoolRef := ⟨c.spec.poolRef, c.namespace_⟩

/-! ## 2. Release -/

structure Release where
  backoff : Backoff

/-- The scope without, or with, the release finalizer. -/
def Scope.removeFinalizer (s : Scope) : Scope :=
  { s with object := s.object.removeFinalizer releaseFinalizer }
def Scope.addFinalizer (s : Scope) : Scope :=
  { s with object := s.object.addFinalizer releaseFinalizer }

/-- The last part of `Release.Reconcile`, from the ReleaseVM on. -/
def Release.release (r : Release) (s : Scope) : Code (Outcome Scope) := do
  let leaseID := s.object.status.leaseID
  match ← callBattery s.object.uid (.releaseVM leaseID) with
  | .ok _ =>
    pure (.stopped (s.called methodReleaseVM none).removeFinalizer)
  | .error e =>
    let s := s.called methodReleaseVM (some e)
    if e.kind = .notFound then pure (.stopped s.removeFinalizer)
    else if failedInTransit (some e) then do
      let now ← ask .now
      let since ← unavailableSince s
      pure { scope := s,
             result := { stop := true, requeueAfter := r.backoff.after (now - since) } }
    else
      pure { scope := s, result := { stop := true },
             err := some ("releasing Lease " ++ leaseID ++ ": " ++ e.text) }

/-- `Release.Reconcile`. A claim that never bound holds no Lease. -/
def Release.reconcile (r : Release) (s : Scope) : Code (Outcome Scope) :=
  if !s.object.deleting then pure { scope := s }
  else if !s.object.hasRelease then pure (.stopped s)
  else if s.object.status.leaseID = "" then
    pure (.stopped s.removeFinalizer)
  else r.release s

/-! ## 3. EnsureFinalizer -/

/-- `EnsureFinalizer.Reconcile`: nothing for a claim being deleted, else the shared
    `reconcile.EnsureFinalizer`, which stops the chain when it has added the finalizer. -/
def EnsureFinalizer.reconcile (s : Scope) : Code (Outcome Scope) :=
  if s.object.deleting then pure (.stopped s)
  else if s.object.hasRelease then pure { scope := s }
  else
    pure (.stopped s.addFinalizer)

/-! ## 4. Bind -/

/-- `DefaultSlotWait`. -/
def defaultSlotWait : Duration := second

structure Bind where
  /-- How many ClaimVM calls may be in flight; none does not bound them. -/
  slots : Option Nat
  slotWait : Duration := 0

/-- `poolDeleting`. -/
def poolDeleting (s : Scope) : Code (Except String Bool) := do
  let key : ObjectKey := ⟨s.object.namespace_, s.object.spec.poolRef⟩
  match ← ask (.poolGet key) with
  | .ok pool => pure (.ok pool.deletionTimestamp.isSome)
  | .error e =>
    if e.isNotFound then pure (.ok false)
    else pure (.error
      ("reading Pool " ++ key.string ++ " before claiming a MicroVM: " ++ e.text))

/-- The status of a claim that battery just leased a MicroVM for. -/
def boundStatus (c : MicroVMClaim) (claimed : Claim) (renewTime : Option MicroTime) (now : Time) :
    MicroVMClaimStatus :=
  { c.status with
    leaseID := claimed.leaseID
    microVM := some ⟨claimed.vmUID⟩
    host := some ⟨claimed.host.name, ""⟩
    boundTime := some now
    leaseExpiresAt := none
    observedRenewTime := renewTime
    phase := .bound }

/-- The last part of `Bind.Reconcile`, from the ClaimVM on. `fresh` is the claim as the API server
    showed it. -/
def Bind.claim (s : Scope) (fresh : MicroVMClaim) : Code (Outcome Scope) := do
  let renewTime := s.object.spec.renewTime
  let pool := poolOf s.object
  match ← callBattery s.object.uid (.claimVM pool fresh.uid) with
  | .error e =>
    let s := s.called methodClaimVM (some e)
    if e.kind = .exhausted ∨ e.kind = .notFound ∨ e.kind = .aborted ∨
        failedInTransit (some e) then
      pure { scope := s }
    else
      pure { scope := s,
             err := some ("claiming a MicroVM from Pool " ++ pool.string ++ ": " ++ e.text) }
  | .ok claimed => do
      let s := s.called methodClaimVM none
      let now ← ask .now
      let s := s.setStatus (boundStatus s.object claimed renewTime now)
      let s := s.setCondition .bound .true reasonBound
        ("Leased MicroVM " ++ claimed.vmUID ++ " on Node " ++ claimed.host.name) now
      pure (.stopped s)

/-- The ClaimVM in a slot, if there is one left. -/
def Bind.withSlot (b : Bind) (s : Scope) (fresh : MicroVMClaim) : Code (Outcome Scope) :=
  match b.slots with
  | none => Bind.claim s fresh
  | some n => do
      let acquired ← ask (.tryAcquire n)
      if acquired then do
        let o ← Bind.claim s fresh
        ask .releaseSlot
        pure o
      else
        let wait := if b.slotWait ≤ 0 then defaultSlotWait else b.slotWait
        pure { scope := s, result := { stop := true, requeueAfter := wait } }

/-- `Bind.Reconcile`. -/
def Bind.reconcile (b : Bind) (s : Scope) : Code (Outcome Scope) :=
  let stop : Outcome Scope := .stopped s
  if s.object.status.leaseID ≠ "" then pure { scope := s }
  else do
    let key := s.object.key
    match ← ask (.apiGet key) with
    | .error e =>
      if e.isNotFound then pure stop
      else
        pure { scope := s,
               err := some ("reading MicroVMClaim " ++ key.string ++
                 " before claiming a MicroVM: " ++ e.text) }
    | .ok fresh =>
      if fresh.status.leaseID ≠ "" then pure stop
      else if fresh.deleting then pure stop
      else if !fresh.hasRelease then pure stop
      else do
        match ← poolDeleting s with
        | .error e => pure { scope := s, err := some e }
        | .ok true => pure { scope := { s with poolDeleting := true } }
        | .ok false => b.withSlot s fresh

/-! ## 5. Pending -/

structure Pending where
  backoff : Backoff

/-- Why a claim stays Pending: the reason and the message, or nothing for an error that another
    step answers for. -/
def pendingReason (s : Scope) (err : Option BatteryError) : Option (String × String) :=
  let pool := s.object.spec.poolRef
  if s.poolDeleting then some (reasonPoolDeleting, "Pool " ++ pool ++ " is being deleted")
  else
    match err with
    | none => none
    | some e =>
      if e.kind = .exhausted then
        some (reasonPoolExhausted, "Pool " ++ pool ++ " has no available MicroVM")
      else if e.kind = .notFound then some (reasonPoolNotFound, "battery has no Pool " ++ pool)
      else if failedInTransit err then
        some (reasonBatteryUnavailable, "ClaimVM on Pool " ++ pool ++ " got no answer from battery")
      else if e.kind = .aborted then
        some (reasonClaimAborted, "battery aborted ClaimVM on Pool " ++ pool ++ ": " ++ e.text)
      else none

/-- The error of the scope's ClaimVM, if it made one and it failed. -/
def claimError (s : Scope) : Option BatteryError :=
  match s.batteryCall with
  | some call => if call.method = methodClaimVM then call.err else none
  | none => none

/-- `Pending.Reconcile`. -/
def Pending.reconcile (p : Pending) (s : Scope) : Code (Outcome Scope) :=
  match pendingReason s (claimError s) with
  | none => pure { scope := s }
  | some (reason, message) => do
      let now ← ask .now
      let s := s.setStatus { s.object.status with phase := .pending }
      let s := s.setCondition .bound .false reason message now
      let since :=
        match findStatusCondition s.object.status.conditions .bound with
        | some c => c.lastTransitionTime
        | none => now
      pure { scope := s, result := { requeueAfter := p.backoff.after (now - since) } }

/-! ## 6. ExpireDeleted and Recover -/

/-- `ExpireDeleted.Reconcile`. -/
def ExpireDeleted.reconcile (s : Scope) : Code (Outcome Scope) :=
  if !holdsLease s.object then pure { scope := s }
  else
    match s.object.status.microVM with
    | none => pure { scope := s }
    | some microVM => do
        let has ← ask (.deletedHas microVM.uid)
        if !has then pure { scope := s }
        else do
          let s ← expire s (.deletedVM microVM.uid)
          pure (.stopped s)

/-- `Recover.Reconcile`. A passed expiry is left to `CheckExpiry`, and an earlier one than the
    status's is older than the status. -/
def Recover.reconcile (s : Scope) : Code (Outcome Scope) :=
  if !holdsLease s.object then pure { scope := s }
  else do
    match ← ask (.lookup s.object.status.leaseID) with
    | none => pure { scope := s }
    | some none => do
        let s := s.called methodListLeases none
        let s ← expire s (.recovered s.object.status.leaseID)
        pure (.stopped s)
    | some (some rec) =>
      let s := s.called methodListLeases none
      let later :=
        match s.object.status.leaseExpiresAt with
        | none => true
        | some exp => decide (exp < rec.expiresAt)
      if later then
        pure { scope := s.setStatus { s.object.status with leaseExpiresAt := some rec.expiresAt } }
      else pure { scope := s }

/-! ## 7. Renew and CheckExpiry -/

structure Renew where
  backoff : Backoff

/-- `Renew.Reconcile`. The renewTime relayed is the one this reconcile read. -/
def Renew.reconcile (r : Renew) (s : Scope) : Code (Outcome Scope) :=
  if !holdsLease s.object || !pendingRenewal s.object then pure { scope := s }
  else do
    let relayed := s.object.spec.renewTime
    let leaseID := s.object.status.leaseID
    match ← callBattery s.object.uid (.heartbeat leaseID) with
    | .error e =>
      let s := s.called methodHeartbeat (some e)
      if e.kind = .notFound then do
        let s ← expire s (.heartbeatNotFound leaseID)
        pure (.stopped s)
      else if failedInTransit (some e) then do
        let after ← retryAfter s r.backoff
        pure { scope := s, result := { requeueAfter := after } }
      else
        pure { scope := s, result := { stop := true },
               err := some ("renewing Lease " ++ leaseID ++ ": " ++ e.text) }
    | .ok expiresAt => do
        let s := s.called methodHeartbeat none
        let s := s.setStatus { s.object.status with
          leaseExpiresAt := some expiresAt, observedRenewTime := relayed }
        let after ← until_ expiresAt
        pure { scope := s, result := { requeueAfter := after } }

structure CheckExpiry where
  backoff : Backoff

/-- The rest of `CheckExpiry.Reconcile`, once ListLeases has answered. `now` is the time read
    before the call. -/
def CheckExpiry.settle (s : Scope) (now : Time) (leases : List LeaseRecord) :
    Code (Outcome Scope) :=
  let leaseID := s.object.status.leaseID
  match leases.find? fun l => l.leaseID = leaseID with
  | none => do
      let s ← expire s (.notListed leaseID)
      pure (.stopped s)
  | some rec =>
    if rec.expiresAt ≤ now then do
      let s ← expire s (.overdue leaseID rec.expiresAt)
      pure (.stopped s)
    else do
      let s := s.setStatus { s.object.status with leaseExpiresAt := some rec.expiresAt }
      let after ← until_ rec.expiresAt
      pure { scope := s, result := { requeueAfter := after } }

/-- The expiry of the status, if it is still to come. -/
def comingExpiry (c : MicroVMClaim) (now : Time) : Option Time :=
  match c.status.leaseExpiresAt with
  | some exp => if now < exp then some exp else none
  | none => none

/-- `CheckExpiry.Reconcile`. -/
def CheckExpiry.reconcile (e : CheckExpiry) (s : Scope) : Code (Outcome Scope) :=
  if !holdsLease s.object || pendingRenewal s.object then pure { scope := s }
  else do
    let now ← ask .now
    match comingExpiry s.object now with
    | some exp => do
        let after ← until_ exp
        pure { scope := s, result := { requeueAfter := after } }
    | none => do
        let pool := poolOf s.object
        match ← callBattery s.object.uid (.listLeases (some pool)) with
        | .error err =>
          let s := s.called methodListLeases (some err)
          if failedInTransit (some err) then do
            let after ← retryAfter s e.backoff
            pure { scope := s, result := { requeueAfter := after } }
          else
            pure { scope := s, result := { stop := true },
                   err := some ("listing the Leases of Pool " ++ pool.string ++ ": " ++ err.text) }
        | .ok leases => CheckExpiry.settle (s.called methodListLeases none) now leases

/-! ## 8. AgentAddress and HostReady -/

/-- The annotations of a Node report (internal/execagent/annotations.go). -/
def annotationReady : String := "battery.liquidmetal-x.dev/exec-agent-ready"
def annotationReason : String := "battery.liquidmetal-x.dev/exec-agent-reason"
def annotationMessage : String := "battery.liquidmetal-x.dev/exec-agent-message"
def annotationAddress : String := "battery.liquidmetal-x.dev/exec-agent-address"

/-- `execagent.ReasonReady`. -/
def reasonReady : String := "Ready"

/-- `node.Annotations[key]`, if it is there. -/
def Node.annotation (node : Node) (key : String) : Option String :=
  (node.annotations.find? fun a => a.1 = key).map Prod.snd

/-- The node name of a Bound claim's Host. -/
def boundNode (c : MicroVMClaim) : Option HostReference :=
  if c.status.phase = .bound then c.status.host.filter fun h => h.nodeName ≠ "" else none

/-- `AgentAddress.Reconcile`. -/
def AgentAddress.reconcile (s : Scope) : Code (Outcome Scope) :=
  match boundNode s.object with
  | none => pure { scope := s }
  | some host => do
      let res ← ask (.nodeGet host.nodeName)
      let address : Except ApiError String :=
        match res with
        | .ok node => .ok ((node.annotation annotationAddress).getD "")
        | .error e => if e.isNotFound then .ok "" else .error e
      match address with
      | .error e =>
        pure { scope := s,
               err := some ("reading Node " ++ host.nodeName ++ " for the Exec Agent's address: " ++
                 e.text) }
      | .ok address => do
          let now ← ask .now
          let s := s.setStatus { s.object.status with host := some ⟨host.nodeName, address⟩ }
          if address = "" then
            let message := "Node " ++ host.nodeName ++ " reports no Exec Agent address in " ++
              annotationAddress
            pure { scope := s.setCondition .agentAvailable .false reasonNoAgentAddress message now }
          else
            let message := "Node " ++ host.nodeName ++ " reports the Exec Agent at " ++ address
            pure { scope :=
              s.setCondition .agentAvailable .true reasonAgentAddressPublished message now }

def maxConditionReason : Nat := 1024
def maxConditionMessage : Nat := 32768

/-- `conditionReason`: a letter, and after it letters, digits and `_,:`, not ending in `,` or
    `:`. -/
def conditionReason (r : String) : Bool :=
  match r.toList with
  | [] => false
  | c :: cs =>
    c.isAlpha && (cs.all fun c => c.isAlphanum || c = '_' || c = ',' || c = ':') &&
      match cs.getLast? with
      | none => true
      | some c => c.isAlphanum || c = '_'

/-- `validReason`. -/
def validReason (r : String) : Bool := r.utf8ByteSize ≤ maxConditionReason && conditionReason r

/-- The first characters of a text that fit into so many bytes. The source cuts at the byte,
    `message[:maxConditionMessage]`: where that falls into a character, it keeps the first bytes of
    the character, which are no text, and this keeps none. -/
def takeBytes : Nat → List Char → List Char
  | _, [] => []
  | n, c :: cs => if c.utf8Size ≤ n then c :: takeBytes (n - c.utf8Size) cs else []

/-- `reportedReadiness`: the status, reason and message of a Node's report. A message that is too
    long is cut before a character that does not fit (`takeBytes`). -/
def reportedReadiness (node : Node) : ConditionStatus × String × String :=
  match node.annotation annotationReady with
  | none =>
    (.false, reasonNoNodeReport,
      "Node " ++ node.name ++ " carries no Node report in " ++ annotationReady)
  | some ready =>
    let reason := (node.annotation annotationReason).getD ""
    let message := (node.annotation annotationMessage).getD ""
    let message :=
      if maxConditionMessage < message.utf8ByteSize then
        String.ofList (takeBytes maxConditionMessage message.toList)
      else message
    if ready = "true" then (.true, if validReason reason then reason else reasonReady, message)
    else (.false, if validReason reason then reason else reasonHostNotReady, message)

/-- `HostReady.Reconcile`. -/
def HostReady.reconcile (s : Scope) : Code (Outcome Scope) :=
  match boundNode s.object with
  | none => pure { scope := s }
  | some host => do
      let now ← ask .now
      let res ← ask (.nodeGet host.nodeName)
      let report : Except ApiError (ConditionStatus × String × String) :=
        match res with
        | .ok node => .ok (reportedReadiness node)
        | .error e =>
          if e.isNotFound then
            .ok (.false, reasonNodeNotFound,
              "the Host's Node " ++ host.nodeName ++ " does not exist")
          else .error e
      match report with
      | .error e =>
        pure { scope := s,
               err := some ("reading Node " ++ host.nodeName ++ " for its Host's readiness: " ++
                 e.text) }
      | .ok (status, reason, message) =>
        pure { scope := s.setCondition .hostReady status reason message now }

/-! ## 9. Synced -/

/-- The Synced condition's status, reason and message after a call. -/
def syncedReport (call : BatteryCall) : ConditionStatus × String × String :=
  if answered call.err then (.true, reasonSynced, "battery answered " ++ call.method)
  else
    match call.err with
    | none => (.true, reasonSynced, "battery answered " ++ call.method)
    | some e =>
      if failedInTransit call.err then
        (.false, reasonBatteryUnavailable, call.method ++ " got no answer from battery: " ++ e.text)
      else (.false, reasonBatteryError, call.method ++ " failed: " ++ e.text)

/-- `Synced.Reconcile`. -/
def Synced.reconcile (s : Scope) : Code (Outcome Scope) :=
  match s.batteryCall with
  | none => pure { scope := s }
  | some call => do
      let now ← ask .now
      let (status, reason, message) := syncedReport call
      pure { scope := s.setCondition .synced status reason message now }

end BatteryOperator
