/-
  Subject:   The fake battery (internal/fakebattery/state.go, ops.go, reconcile.go) as a system of
             steps.

  Everything under `b.mu` in one go is one step; between two steps of one operation, while it waits
  for a Host or a hook, any other step may come. What an operation still has to do for a MicroVM is
  its `Task`, and `doomed` are the MicroVMs that `deleteVM` was called for. The loops of `tick` are
  steps of their own, one Lease, MicroVM or Pool at a time; that the lock is held over them only
  rules interleavings out.

  A hook or a Host may fail at any time, so the contexts under which they run are left out, as are
  the events, the claim latency, the shutdown, and what refuses a spec. Which AVAILABLE MicroVM a
  claim selects is left open, and so are the Hosts: placing a MicroVM may fail at any time. A lease
  id is a number that was not used before.
-/
import BatteryOperator.Battery
import BatteryOperator.Lib.Steps
import BatteryOperator.Time
import Mathlib.Logic.Function.Basic

namespace BatteryOperator.FakeBattery

/-! ## 1. Pools, MicroVMs and Leases -/

/-- `VMPhase`. -/
inductive VMPhase where
  | provisioning
  | createHookRunning
  | available
  | preLeaseHookRunning
  | leased
  | deleting
  | quarantined
  | failed
  deriving DecidableEq

/-- `replenishment`, as `validateSpec` lets it pass. -/
inductive Replenishment where
  | immediateOnLease
  | minSizeThreshold (minSize : Nat)
  | replaceOnDelete
  deriving DecidableEq

/-- `HookFailurePolicy`. -/
inductive HookFailurePolicy where
  | deleteAndReplace
  | quarantine

/-- `poolSpec`. -/
structure PoolSpec where
  size : Nat
  replenishment : Replenishment
  hookFailurePolicy : HookFailurePolicy
  heartbeatExpiryThreshold : Duration

/-- `poolState`. -/
structure PoolState where
  key : PoolRef
  spec : PoolSpec

/-- `vmState`. -/
structure VmState where
  uid : String := ""
  pool : PoolRef
  phase : VMPhase := .provisioning
  leaseID : Option Nat := none
  createPolicy : HookFailurePolicy

/-- `leaseState`. -/
structure LeaseState where
  vmUID : String
  pool : PoolRef
  expiresAt : Time
  requestID : String

/-- Where the operation that has a MicroVM in hand waits outside the lock. -/
inductive Task where
  /-- `provision` was started. -/
  | reserved (pool : PoolRef)
  /-- Its CreateMicroVM is on the Host. -/
  | creating
  /-- It waits in `waitCreated`. -/
  | booting
  /-- It runs the create hooks. -/
  | createHooks
  /-- `claimVM` runs the pre-lease hooks; `ps` is the `poolState` it began with. -/
  | preLeaseHooks (ps : Nat) (requestID : String)
  deriving DecidableEq

/-- `Battery`, with what is under way. `pools` has the number of each Pool's `poolState`. -/
structure State where
  now : Time
  pools : PoolRef → Option Nat
  poolStates : Nat → PoolState
  nextPool : Nat
  vms : Nat → Option VmState
  vmByUID : String → Option Nat
  nextVM : Nat
  leases : Nat → Option LeaseState
  nextLease : Nat
  tasks : Nat → Option Task
  deleteInFlight : Nat → Bool
  doomed : Nat → Bool
  -- The history: the uids that Hosts gave, and the MicroVMs that got a Lease.
  uids : List String
  granted : List Nat

namespace State

variable (s : State)

/-- The MicroVM is still tracked and its Pool still exists (`aliveLocked`). -/
def aliveLocked (id : Nat) : Option VmState :=
  (s.vms id).filter fun vm => (s.pools vm.pool).isSome

def setTask (id : Nat) (task : Option Task) : State :=
  { s with tasks := Function.update s.tasks id task }

def setVm (id : Nat) (vm : Option VmState) : State :=
  { s with vms := Function.update s.vms id vm }

/-- A `deleteVM` is called for the MicroVM. -/
def doom (id : Nat) : State := { s with doomed := Function.update s.doomed id true }

def dropLeaseLocked (leaseID : Nat) : State :=
  { s with leases := Function.update s.leases leaseID none }

def leaseByRequestIDLocked (requestID : String) : Option Nat :=
  (List.range s.nextLease).find? fun l => (s.leases l).any fun rec => rec.requestID = requestID

/-- The claim is answered with a Lease that there is. -/
def replays (requestID : String) : Bool :=
  requestID ≠ "" && (s.leaseByRequestIDLocked requestID).isSome

/-! ## 2. Provisioning -/

/-- The MicroVMs of a Pool in these phases. -/
def count (key : PoolRef) (P : VMPhase → Bool) : Nat :=
  (List.range (s.nextVM + 1)).countP fun id => (s.vms id).any fun vm => vm.pool = key && P vm.phase

-- `countsLocked`; a MicroVM that runs its pre-lease hooks counts as leased.
def available (key : PoolRef) : Nat := s.count key fun p => p = .available
def leased (key : PoolRef) : Nat := s.count key fun p => p = .leased || p = .preLeaseHookRunning
def provisioning (key : PoolRef) : Nat :=
  s.count key fun p => p = .provisioning || p = .createHookRunning
def deleting (key : PoolRef) : Nat := s.count key fun p => p = .deleting

def tickDeficit (ps : PoolState) : Nat :=
  match ps.spec.replenishment with
  | .immediateOnLease => ps.spec.size - (s.available ps.key + s.provisioning ps.key)
  | .minSizeThreshold minSize =>
    if s.available ps.key ≥ minSize then 0
    else ps.spec.size - (s.available ps.key + s.leased ps.key + s.provisioning ps.key)
  | .replaceOnDelete =>
    ps.spec.size -
      (s.available ps.key + s.leased ps.key + s.provisioning ps.key + s.deleting ps.key)

/-- One MicroVM is reserved. -/
def reserve (ps : Nat) : State :=
  { s with
    nextVM := s.nextVM + 1
    vms := Function.update s.vms (s.nextVM + 1) (some
      { pool := (s.poolStates ps).key
        createPolicy := (s.poolStates ps).spec.hookFailurePolicy })
    tasks := Function.update s.tasks (s.nextVM + 1) (some (.reserved (s.poolStates ps).key)) }

/-- `provisionNLocked`, for the MicroVMs that were placed. -/
def provisionNLocked (s : State) (ps : Nat) : Nat → State
  | 0 => s
  | n + 1 => (s.reserve ps).provisionNLocked ps n

end State

def PoolSpec.onClaimed (spec : PoolSpec) : Nat :=
  if spec.replenishment = .immediateOnLease then 1 else 0

def PoolSpec.onDeleted (spec : PoolSpec) : Nat :=
  if spec.replenishment = .replaceOnDelete then 1 else 0

/-! ## 3. The operations -/

namespace State

variable (s : State)

def dropReserved (id : Nat) : State := (s.setVm id none).setTask id none

/-- `applyHookFailurePolicy`, of a MicroVM that is alive. -/
def applyHookFailurePolicy (id : Nat) (vm : VmState) (policy : HookFailurePolicy) : State :=
  match policy with
  | .quarantine => s.setVm id (some { vm with leaseID := none, phase := .quarantined })
  | .deleteAndReplace =>
    (s.setVm id (some { vm with leaseID := none, phase := .deleting })).doom id

/-- An operation has its MicroVM again: it goes on if the MicroVM is alive, and else ends. -/
def resume (id : Nat) (go : VmState → Option State) : Option State :=
  match s.aliveLocked id with
  | some vm => go vm
  | none => some (s.setTask id none)

/-- The Lease is recorded on a MicroVM of the Pool. -/
def recorded (key : PoolRef) (leaseID : Nat) : Bool :=
  (List.range (s.nextVM + 1)).any fun id =>
    (s.vms id).any fun vm => vm.pool = key && vm.leaseID = some leaseID

/-- `deletePool`, of a Pool that there is. -/
def deletePool (key : PoolRef) : State :=
  { s with
    pools := Function.update s.pools key none
    vms := fun id => (s.vms id).map fun vm =>
      if vm.pool = key then { vm with phase := .deleting, leaseID := none } else vm
    leases := fun l => (s.leases l).filter fun rec => !(rec.pool = key || s.recorded key l)
    doomed := fun id => s.doomed id || (s.vms id).any fun vm => vm.pool = key }

/-- `claimVM` commits the Lease. -/
def commit (id : Nat) (vm : VmState) (ps : Nat) (requestID : String) : State :=
  let p := s.poolStates ps
  { s with
    leases := Function.update s.leases s.nextLease
      (some ⟨vm.uid, p.key, s.now + p.spec.heartbeatExpiryThreshold, requestID⟩)
    nextLease := s.nextLease + 1
    vms := Function.update s.vms id (some { vm with leaseID := some s.nextLease, phase := .leased })
    tasks := Function.update s.tasks id none
    granted := id :: s.granted }

/-- `finishDeletionLocked`, up to the replacement. -/
def untrack (id : Nat) (vm : VmState) : State :=
  { s.setVm id none with
    vmByUID := fun uid => if vm.uid ≠ "" ∧ uid = vm.uid then none else s.vmByUID uid
    leases := fun l => if vm.leaseID = some l then none else s.leases l }

end State

/-- The steps; `n` is the number of MicroVMs that a step reserves. -/
inductive Act where
  | pass (d : Nat)
  | createPool (key : PoolRef) (spec : PoolSpec)
  | updatePool (key : PoolRef) (spec : PoolSpec)
  | deletePool (key : PoolRef) (force : Bool)
  -- `claimVM` selects a MicroVM; its hooks pass, or one fails.
  | claim (key : PoolRef) (requestID : String) (id : Nat)
  | preLeaseDone (id n : Nat)
  | preLeaseFailed (id : Nat)
  | heartbeat (leaseID : Nat)
  | release (leaseID : Nat)
  -- `tick`: an expired Lease, a deletion to retry, a Pool to top up.
  | expire (leaseID : Nat)
  | retry (id : Nat)
  | topUp (key : PoolRef) (n : Nat)
  -- `provision`, from one wait to the next; before there is a uid it may fail.
  | provision (id : Nat)
  | createFailed (id : Nat)
  | created (id : Nat) (uid : String)
  | booted (id : Nat)
  | createDone (id : Nat)
  | createHookFailed (id : Nat)
  -- `deleteVM` begins; the Host confirms, or it does not.
  | deleteVM (id : Nat)
  | deleted (id n : Nat)
  | deleteFailed (id : Nat)

/-- One step. -/
def step (s : State) : Act → Option State
  | .pass d => some { s with now := s.now + d }
  | .createPool key spec => do
    guard (s.pools key = none)
    some { s with
      pools := Function.update s.pools key (some s.nextPool)
      poolStates := Function.update s.poolStates s.nextPool ⟨key, spec⟩
      nextPool := s.nextPool + 1 }
  | .updatePool key spec => do
    let ps ← s.pools key
    some { s with
      poolStates := Function.update s.poolStates ps { s.poolStates ps with spec := spec } }
  | .deletePool key force => do
    guard ((s.pools key).isSome ∧ (s.leased key = 0 ∨ force))
    some (s.deletePool key)
  | .claim key requestID id => do
    let ps ← s.pools key
    let vm ← s.vms id
    guard (¬ s.replays requestID ∧ vm.pool = key ∧ vm.phase = .available)
    some ((s.setVm id (some { vm with phase := .preLeaseHookRunning })).setTask id
      (some (.preLeaseHooks ps requestID)))
  | .preLeaseDone id n =>
    match s.tasks id with
    | some (.preLeaseHooks ps requestID) => s.resume id fun vm =>
      if s.replays requestID then
        -- Another claim with the request id committed first: the MicroVM is put back.
        some ((s.setVm id (some { vm with leaseID := none, phase := .available })).setTask id none)
      else do
        guard (n ≤ (s.poolStates ps).spec.onClaimed)
        some ((s.commit id vm ps requestID).provisionNLocked ps n)
    | _ => none
  | .preLeaseFailed id =>
    match s.tasks id with
    | some (.preLeaseHooks _ _) => s.resume id fun vm => do
      let ps ← s.pools vm.pool
      some ((s.applyHookFailurePolicy id vm (s.poolStates ps).spec.hookFailurePolicy).setTask id
        none)
    | _ => none
  | .heartbeat leaseID => do
    let rec ← s.leases leaseID
    let ps ← s.pools rec.pool
    let expiresAt := s.now + (s.poolStates ps).spec.heartbeatExpiryThreshold
    some { s with
      leases := Function.update s.leases leaseID (some { rec with expiresAt := expiresAt }) }
  | .release leaseID => do
    let rec ← s.leases leaseID
    match s.vmByUID rec.vmUID with
    | none => some (s.dropLeaseLocked leaseID)
    | some id => some (s.doom id)
  | .expire leaseID => do
    let rec ← s.leases leaseID
    guard ((s.pools rec.pool).isSome ∧ rec.expiresAt ≤ s.now)
    let s' := s.dropLeaseLocked leaseID
    match s.vmByUID rec.vmUID with
    | none => some s'
    | some id => some (if (s.vms id).any fun vm => vm.phase = .leased then s'.doom id else s')
  | .retry id => do
    let vm ← s.vms id
    guard (vm.phase = .deleting ∧ vm.uid ≠ "" ∧ s.deleteInFlight id = false)
    some (s.doom id)
  | .topUp key n => do
    let ps ← s.pools key
    guard (n ≤ s.tickDeficit (s.poolStates ps))
    some (s.provisionNLocked ps n)
  | .provision id =>
    match s.tasks id with
    | some (.reserved key) =>
      some (if (s.pools key).isSome then s.setTask id (some .creating) else s.dropReserved id)
    | _ => none
  | .createFailed id =>
    match s.tasks id with
    | some (.reserved _) | some .creating => some (s.dropReserved id)
    | _ => none
  | .created id uid => do
    guard (s.tasks id = some .creating ∧ uid ≠ "")
    let s := { s with uids := uid :: s.uids }
    s.resume id fun vm =>
      some { (s.setVm id (some { vm with uid := uid })).setTask id (some .booting) with
        vmByUID := Function.update s.vmByUID uid (some id) }
  | .booted id => do
    guard (s.tasks id = some .booting)
    s.resume id fun vm =>
      some ((s.setVm id (some { vm with phase := .createHookRunning })).setTask id
        (some .createHooks))
  | .createDone id => do
    guard (s.tasks id = some .createHooks)
    s.resume id fun vm =>
      some ((s.setVm id (some { vm with phase := .available })).setTask id none)
  | .createHookFailed id => do
    guard (s.tasks id = some .booting ∨ s.tasks id = some .createHooks)
    s.resume id fun vm =>
      some ((s.applyHookFailurePolicy id vm vm.createPolicy).setTask id none)
  | .deleteVM id => do
    let vm ← s.vms id
    guard (s.doomed id)
    -- One attempt is in flight at a time.
    some { s.setVm id (some { vm with phase := .deleting }) with
      deleteInFlight := Function.update s.deleteInFlight id true }
  | .deleted id n => do
    guard (s.deleteInFlight id)
    let s' := { s with deleteInFlight := Function.update s.deleteInFlight id false }
    match s.vms id with
    | none => some s'
    | some vm => match s.pools vm.pool with
      | none => some (s'.untrack id vm)
      | some ps =>
        guard (n ≤ (s.poolStates ps).spec.onDeleted)
        some ((s'.untrack id vm).provisionNLocked ps n)
  | .deleteFailed id => do
    guard (s.deleteInFlight id)
    some { s with deleteInFlight := Function.update s.deleteInFlight id false }

/-- A fake battery that has just started. -/
def start : State where
  now := 0
  pools := fun _ => none
  poolStates := fun _ => ⟨⟨"", ""⟩, ⟨0, .immediateOnLease, .deleteAndReplace, 0⟩⟩
  nextPool := 0
  vms := fun _ => none
  vmByUID := fun _ => none
  nextVM := 0
  leases := fun _ => none
  nextLease := 0
  tasks := fun _ => none
  deleteInFlight := fun _ => false
  doomed := fun _ => false
  uids := []
  granted := []

end BatteryOperator.FakeBattery
