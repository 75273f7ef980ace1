/-
  Subject:   Battery as its contract describes it (docs/requirements/10-battery.md): the Leases it
             holds, how it answers a call, and what it does on its own.

  Battery is not part of this repository. What the contract leaves open (which MicroVM, which
  error, whether a deletion was confirmed) is a choice of each answer (`Serve`) or action
  (`BatteryAct`); what it rules out is not enabled.

  * `Battery.serve`, `Battery.act` -- one answer, one action.
-/
import BatteryOperator.History
import BatteryOperator.Lib.Trace

namespace BatteryOperator

open Lib

/-! ## 1. Battery's state -/

/-- A Lease battery holds. -/
structure Lease extends LeaseRecord where
  host : HostRef
  /-- The MicroVM is in the phase `DELETING`. -/
  deleting : Bool
  deriving DecidableEq

/-- The answer that names a Lease. -/
def Lease.claim (l : Lease) : Claim := ⟨l.leaseID, l.vmUID, l.host⟩

/-- The Leases held, each Pool's `heartbeat_expiry_threshold`, and the events sent so far. -/
structure Battery where
  leases : List Lease
  threshold : PoolRef → Duration
  outbox : List BatteryEvent

namespace Battery

/-- The Lease of this id, if battery holds it. -/
def find (b : Battery) (id : String) : Option Lease := b.leases.find? fun l => l.leaseID = id

/-- The Lease created with this request id, if battery holds one. -/
def byRequest (b : Battery) (rid : String) : Option Lease :=
  if rid = "" then none else b.leases.find? fun l => l.requestID = rid

/-- Change the Lease of this id. -/
def update (b : Battery) (id : String) (g : Lease → Lease) : Battery :=
  { b with leases := b.leases.map fun l => if l.leaseID = id then g l else l }

/-- Delete the Lease of this id. -/
def remove (b : Battery) (id : String) : Battery :=
  { b with leases := b.leases.filter fun l => l.leaseID ≠ id }

/-- Neither the lease id nor the MicroVM was leased before, and the MicroVM is not one an event
    reported deleted (BA-003, BA-005, BA-006). -/
def isNew (b : Battery) (h : List Fact) (id vm : String) : Bool :=
  id ≠ "" && vm ≠ "" &&
    (h.all fun f =>
      match f with
      | .leased id' vm' _ _ _ => id' ≠ id && vm' ≠ vm
      | _ => true) &&
    b.outbox.all fun e => !(reportsDeletion e && e.vmUID = vm)

/-- The Lease a claim at time `now` creates (BA-003, BA-007). -/
def newLease (b : Battery) (now : Time) (id vm rid : String) (pool : PoolRef) (host : HostRef) :
    Lease where
  leaseID := id
  vmUID := vm
  pool := pool
  claimedAt := now
  lastHeartbeatAt := now
  expiresAt := now + b.threshold pool
  requestID := rid
  host := host
  deleting := false

end Battery

/-! ## 2. Answers -/

/-- What battery does with a call. -/
inductive Serve where
  /-- Lease this MicroVM, under this new lease id. -/
  | grant (leaseID vmUID : String) (host : HostRef)
  /-- Do what the call asks for. -/
  | carryOut
  /-- Start the deletion of a released MicroVM, which `flintlockd` does not confirm (BA-031). -/
  | unconfirmed (text : String)
  /-- Answer with an error and do nothing. -/
  | refuse (e : BatteryError)
  deriving DecidableEq

namespace Battery

/-- The errors battery may answer a call with. Any error that is no answer about the Lease or the
    Pool, at any time; NOT_FOUND for a Lease only if it is not held (BA-011, BA-032); for a claim
    whose request id has a Lease only ABORTED, while the Lease is on its way out (BA-009). -/
def mayRefuse (b : Battery) (c : Call) (e : BatteryError) : Bool :=
  !answered (some e) ||
    match c with
    | .claimVM _ rid =>
      match b.byRequest rid with
      | none => true
      | some l => e.kind = .aborted && l.deleting
    | .heartbeat id => e.kind = .notFound && (b.find id).isNone
    | .releaseVM id => e.kind = .notFound && (b.find id).isNone
    | .listLeases _ => false

/-- **Battery's answer to a call**, its state and the history after it. -/
def serve (b : Battery) (now : Time) (h : List Fact) :
    (c : Call) → Serve → Option (Except BatteryError c.Answer × Battery × List Fact)
  | c, .refuse e => if b.mayRefuse c e then some (.error e, b, h) else none
  | .claimVM pool rid, .grant id vm host =>
    if b.byRequest rid = none ∧ b.isNew h id vm ∧ host.name ≠ "" then
      let l := b.newLease now id vm rid pool host
      some (.ok l.claim, { b with leases := l :: b.leases },
        .replied rid l.claim :: .leased id vm rid pool l.expiresAt :: h)
    else none
  | .claimVM pool rid, .carryOut =>
    match b.byRequest rid with
    | none => none
    | some l =>
      if l.pool = pool ∧ l.deleting = false then
        some (.ok l.claim, b, .replied rid l.claim :: .replayed rid l.leaseID :: h)
      else none
  | .heartbeat id, .carryOut =>
    match b.find id with
    | none => none
    | some l =>
      let e := now + b.threshold l.pool
      some (.ok e, b.update id fun l => { l with lastHeartbeatAt := now, expiresAt := e },
        .renewed id e :: h)
  | .releaseVM id, .carryOut =>
    match b.find id with
    | none => none
    | some _ => some (.ok (), b.remove id, .ended id now .released :: h)
  | .releaseVM id, .unconfirmed text =>
    match b.find id with
    | none => none
    | some _ => some (.error ⟨.unavailable, text⟩,
        b.update id fun l => { l with deleting := true }, h)
  | .listLeases pool, .carryOut =>
    some (.ok ((b.leases.filter fun l =>
        match pool with
        | none => true
        | some p => decide (l.pool = p)).map Lease.toLeaseRecord), b, h)
  | _, _ => none

end Battery

/-! ## 3. Battery on its own -/

/-- What battery does without a call of the Claim Controller. -/
inductive BatteryAct where
  /-- Another client claims a MicroVM, without a request id. -/
  | lease (leaseID vmUID : String) (pool : PoolRef) (host : HostRef)
  /-- A sweep deletes an expired Lease (BA-020). -/
  | sweep (leaseID : String)
  /-- `flintlockd` confirms the deletion of a released MicroVM (BA-031). -/
  | finishRelease (leaseID : String)
  /-- Someone else ends a Lease. -/
  | drop (leaseID : String)
  /-- A Pool's threshold changes. -/
  | setThreshold (pool : PoolRef) (threshold : Duration)
  /-- An event is recorded; one that reports a deletion only once no Lease is left on the MicroVM
      (BA-051). -/
  | emit (e : BatteryEvent)
  deriving DecidableEq

/-- **One action of battery.** -/
def Battery.act (b : Battery) (now : Time) (h : List Fact) :
    BatteryAct → Option (Battery × List Fact)
  | .lease id vm pool host =>
    if b.isNew h id vm ∧ host.name ≠ "" then
      let l := b.newLease now id vm "" pool host
      some ({ b with leases := l :: b.leases }, .leased id vm "" pool l.expiresAt :: h)
    else none
  | .sweep id =>
    match b.find id with
    | some l => if l.expiresAt ≤ now then some (b.remove id, .ended id now .swept :: h) else none
    | none => none
  | .finishRelease id =>
    match b.find id with
    | some l => if l.deleting then some (b.remove id, .ended id now .released :: h) else none
    | none => none
  | .drop id =>
    match b.find id with
    | some _ => some (b.remove id, .ended id now .dropped :: h)
    | none => none
  | .setThreshold pool d =>
    some ({ b with threshold := fun p => if p = pool then d else b.threshold p }, h)
  | .emit e =>
    if reportsDeletion e ∧ ∃ l ∈ b.leases, l.vmUID = e.vmUID then none
    else some ({ b with outbox := e :: b.outbox }, h)

end BatteryOperator
