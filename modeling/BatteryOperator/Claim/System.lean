/-
  Subject:   The Claim Controller, the API server, battery and the Holders as one machine.

  A thread is the reconcile of one claim, or the recovery; a claim has one thread, so its
  reconciles never overlap. Every step of the machine is one operation of one thread, one action
  of the world around the Operator, or a crash of the Operator.

  * The API server keeps every version of every claim. The manager's cache holds one of them, which
    may be behind the newest but never goes back. A metadata patch carries the resourceVersion it
    was computed from; a status patch carries none, and its difference is merged into whatever is
    stored.
  * A call to battery that fails either had its effect before it failed or has none: battery acts
    when the call ends, and the time until its answer is used is the time before the thread's next
    operation.
  * `Shared.binding` says for which claim a ClaimVM is in flight, or answered and not yet written.
    No program reads it, nor the history.
-/
import BatteryOperator.Claim.Controller
import BatteryOperator.Contract
import BatteryOperator.Lib.Register

namespace BatteryOperator

open Lib

/-! ## 1. The shared state -/

/-- Who runs: the reconcile of a claim, or the recovery. -/
inductive Thread where
  | claim (key : ObjectKey)
  | recovery
  deriving DecidableEq

/-- A ClaimVM sent with this request id, and battery's answer once there is one. -/
structure Binding where
  requestID : String
  answer : Option Claim
  deriving DecidableEq

/-- The API server, the caches, battery, the Operator's memory, the time and the history. -/
structure Shared where
  /-- The last resourceVersion given out. -/
  revision : Nat
  keys : List ObjectKey
  claims : ObjectKey → Register (Option MicroVMClaim)
  pools : ObjectKey → Option PoolObject
  nodes : String → Register (Option Node)
  battery : Battery
  binding : ObjectKey → Option Binding
  deleted : DeletedVMs
  recovered : RecoveredLeases
  /-- The slots of `BindSlots` taken. -/
  slots : Nat
  now : Time
  history : List Fact

namespace Shared

/-- The claim the API server stores. -/
def stored (s : Shared) (key : ObjectKey) : Option MicroVMClaim := (s.claims key).current

/-- The next version of a claim, `none` where the object is gone. -/
def store (s : Shared) (key : ObjectKey) (c : Option MicroVMClaim) : Shared :=
  { s with
    revision := s.revision + 1
    claims := Function.update s.claims key ((s.claims key).push c) }

def setBinding (s : Shared) (key : ObjectKey) (b : Option Binding) : Shared :=
  { s with binding := Function.update s.binding key b }

def note (s : Shared) (f : Fact) : Shared := { s with history := f :: s.history }

/-! ## 2. The API server -/

def notFound (key : ObjectKey) : ApiError :=
  ⟨.notFound, "microvmclaims.battery.liquidmetal-x.dev \"" ++ key.name ++ "\" not found"⟩

def conflict (key : ObjectKey) : ApiError :=
  ⟨.conflict, "Operation cannot be fulfilled on microvmclaims.battery.liquidmetal-x.dev \"" ++
    key.name ++ "\": the object has been modified; please apply your changes to the latest " ++
    "version and try again"⟩

/-- The stored claim after a metadata patch: the changed finalizer list replaces the stored one. -/
def patchedMeta (s : Shared) (original object st : MicroVMClaim) : MicroVMClaim :=
  { st with
    finalizers := mergeField original.finalizers object.finalizers st.finalizers
    resourceVersion := s.revision + 1 }

/-- A merge patch of the metadata with the optimistic lock. An object that is being deleted and
    has no finalizer left is gone. -/
def patchMeta (s : Shared) (original object : MicroVMClaim) :
    Except ApiError MicroVMClaim × Shared :=
  match s.stored original.key with
  | none => (.error (notFound original.key), s)
  | some st =>
    if st.resourceVersion ≠ original.resourceVersion then (.error (conflict original.key), s)
    else
      let st' := s.patchedMeta original object st
      if st'.deleting && st'.finalizers.isEmpty then (.ok st', s.store original.key none)
      else (.ok st', s.store original.key (some st'))

/-- The stored claim after a status patch. -/
def patchedStatus (s : Shared) (base object st : MicroVMClaim) : MicroVMClaim :=
  { st with
    status := MicroVMClaimStatus.merge base.status.encode object.status.encode st.status
    resourceVersion := s.revision + 1 }

/-- A merge patch of the status, without a lock; one that changes nothing writes nothing. -/
def patchStatus (s : Shared) (base object : MicroVMClaim) :
    Except ApiError MicroVMClaim × Shared :=
  match s.stored base.key with
  | none => (.error (notFound base.key), s)
  | some st =>
    let st' := s.patchedStatus base object st
    if st'.status = st.status then (.ok st, s) else (.ok st', s.store base.key (some st'))

end Shared

/-! ## 3. One operation of a thread -/

/-- What an operation leaves open. -/
inductive Choice where
  /-- It works. -/
  | ok
  /-- The API server or the client in front of it fails; a write may have been applied. -/
  | fail (applied : Bool) (text : String)
  /-- Battery serves the call; its answer arrives, or is lost with this error. -/
  | serve (s : Serve) (lost : Option BatteryError)
  /-- The call fails before battery gets it. -/
  | lost (e : BatteryError)

/-- The claim of a thread. -/
def Thread.setBinding (t : Thread) (s : Shared) (b : Option Binding) : Shared :=
  match t with
  | .claim key => s.setBinding key b
  | .recovery => s

/-- A call leaves: a ClaimVM is in flight from here on. -/
def execSend (t : Thread) (uid : String) (call : Call) (s : Shared) : Shared :=
  match call with
  | .claimVM _ rid => (t.setBinding s (some ⟨rid, none⟩)).note (.sent uid call)
  | _ => s.note (.sent uid call)

/-- The ClaimVM of a thread has ended: its answer is there to be written, or there is none. -/
def settleBinding (t : Thread) (s : Shared) : (call : Call) → Except BatteryError call.Answer →
    Shared
  | .claimVM _ rid, .ok claimed => t.setBinding s (some ⟨rid, some claimed⟩)
  | .claimVM _ _, .error _ => t.setBinding s none
  | _, _ => s

/-- What arrives of an answer. An error that stands for a lost answer is none of battery's own
    answers. -/
def arrive {α : Type} (r : Except BatteryError α) :
    Option BatteryError → Option (Except BatteryError α)
  | none => some r
  | some e => if answered (some e) then none else some (.error e)

/-- A call ends. -/
def execReceive (t : Thread) (call : Call) (s : Shared) :
    Choice → Option (Except BatteryError call.Answer × Shared)
  | .lost e =>
    if answered (some e) then none else some (.error e, settleBinding t s call (.error e))
  | .serve sv lost =>
    match s.battery.serve s.now s.history call sv with
    | none => none
    | some (r, b, h) =>
      match arrive r lost with
      | none => none
      | some r => some (r, settleBinding t { s with battery := b, history := h } call r)
  | _ => none

/-- A read: the value, or a failure that says nothing about it. -/
def execRead {α : Type} (value : Except ApiError α) (s : Shared) :
    Choice → Option (Except ApiError α × Shared)
  | .ok => some (value, s)
  | .fail false text => some (.error ⟨.other, text⟩, s)
  | _ => none

/-- A write: what it does, or a failure after or before it was applied. -/
def execWrite (written : Except ApiError MicroVMClaim × Shared) (s : Shared) :
    Choice → Option (Except ApiError MicroVMClaim × Shared)
  | .ok => some written
  | .fail true text => some (.error ⟨.other, text⟩, written.2)
  | .fail false text => some (.error ⟨.other, text⟩, s)
  | _ => none

/-- **One operation.** -/
def exec (t : Thread) (f : Choice) : (o : Op) → Shared → Option (o.Ans × Shared)
  | .cacheGet key, s =>
    execRead (match (s.claims key).copy with
      | some c => .ok c
      | none => .error (Shared.notFound key)) s f
  | .apiGet key, s =>
    execRead (match s.stored key with
      | some c => .ok c
      | none => .error (Shared.notFound key)) s f
  | .poolGet key, s =>
    execRead (match s.pools key with
      | some p => .ok p
      | none => .error ⟨.notFound, "pools.battery.liquidmetal-x.dev \"" ++ key.name ++
          "\" not found"⟩) s f
  | .nodeGet name, s =>
    execRead (match (s.nodes name).copy with
      | some n => .ok n
      | none => .error ⟨.notFound, "nodes \"" ++ name ++ "\" not found"⟩) s f
  | .cacheList, s => execRead (.ok (s.keys.filterMap fun k => (s.claims k).copy)) s f
  | .now, s => some (s.now, s)
  | .tryAcquire n, s =>
    if s.slots < n then some (true, { s with slots := s.slots + 1 }) else some (false, s)
  | .releaseSlot, s => some ((), { s with slots := s.slots - 1 })
  | .send uid call, s => some ((), execSend t uid call s)
  | .receive _ call, s => execReceive t call s f
  | .deletedHas uid, s => some (s.deleted.has uid, s)
  | .lookup id, s =>
    some ((s.recovered.lookup id).1, { s with recovered := (s.recovered.lookup id).2 })
  | .record recorded listed, s =>
    some ((), { s with recovered := RecoveredLeases.record recorded listed })
  | .logExpired uid id why, s => some ((), s.note (.expired uid id why))
  | .patchMeta original object, s => execWrite (s.patchMeta original object) s f
  | .patchStatus base object, s =>
    (execWrite (s.patchStatus base object) s f).map fun r => (r.1, t.setBinding r.2 none)

/-! ## 4. The world around the Operator -/

/-- What happens without the Operator. -/
inductive EnvAct where
  /-- A claim is created. -/
  | create (key : ObjectKey) (uid : String) (finalizers : List String) (spec : MicroVMClaimSpec)
  /-- The Holder patches `spec.renewTime`. -/
  | renew (key : ObjectKey) (renewTime : Option MicroTime)
  /-- The claim is deleted. -/
  | delete (key : ObjectKey)
  /-- Another controller changes the finalizers. -/
  | setFinalizers (key : ObjectKey) (finalizers : List String)
  | setPool (key : ObjectKey) (pool : Option PoolObject)
  | setNode (name : String) (node : Option Node)
  /-- The cache catches up until its claim is at most so many versions behind. -/
  | sync (key : ObjectKey) (behind : Nat)
  | syncNode (name : String) (behind : Nat)
  /-- Time passes. -/
  | tick (nanoseconds : Nat)
  | battery (a : BatteryAct)
  /-- The event watcher gets an event, for the first time or again
      (internal/controller/microvmclaim_events.go, `claimEvents.handle`). -/
  | deliver (e : BatteryEvent)

namespace Shared

/-- A uid no claim had before. -/
def isNewUID (s : Shared) (uid : String) : Bool :=
  uid ≠ "" && s.history.all fun f =>
    match f with
    | .created _ uid' => uid' ≠ uid
    | _ => true

/-- The claim as the API server creates it: a status sent along is dropped. -/
def newClaim (s : Shared) (key : ObjectKey) (uid : String) (finalizers : List String)
    (spec : MicroVMClaimSpec) : MicroVMClaim where
  namespace_ := key.namespace_
  name := key.name
  uid := uid
  resourceVersion := s.revision + 1
  generation := 1
  deletionTimestamp := none
  finalizers := finalizers
  spec := spec
  status := {}

/-- The Holder wrote `renewTime`. -/
def noteWrote (s : Shared) (uid : String) : Option MicroTime → Shared
  | some r => s.note (.wrote uid r)
  | none => s

/-- The claim with the Holder's `renewTime`. -/
def renewed (s : Shared) (st : MicroVMClaim) (r : Option MicroTime) : MicroVMClaim :=
  { st with
    spec := { st.spec with renewTime := r }
    generation := st.generation + 1
    resourceVersion := s.revision + 1 }

/-- The claim marked for deletion. -/
def marked (s : Shared) (st : MicroVMClaim) : MicroVMClaim :=
  { st with
    deletionTimestamp := some s.now
    generation := st.generation + 1
    resourceVersion := s.revision + 1 }

/-- Another controller may not take the release finalizer away, and the API server lets nobody add
    one to a claim being deleted. -/
def mayFinalize (st : MicroVMClaim) (finalizers : List String) : Bool :=
  (!st.hasRelease || finalizers.contains releaseFinalizer) &&
    (!st.deleting || finalizers.all st.finalizers.contains)

/-- The claim with another controller's finalizers. -/
def finalized (s : Shared) (st : MicroVMClaim) (finalizers : List String) : MicroVMClaim :=
  { st with finalizers := finalizers, resourceVersion := s.revision + 1 }

end Shared

/-- **One action of the world around the Operator.** -/
def env : EnvAct → Shared → Option Shared
  | .create key uid finalizers spec, s =>
    match s.stored key with
    | some _ => none
    | none =>
      if s.isNewUID uid then
        some (({ s.store key (some (s.newClaim key uid finalizers spec)) with
          keys := if key ∈ s.keys then s.keys else key :: s.keys }.note
            (.created key uid)).noteWrote uid spec.renewTime)
      else none
  | .renew key r, s =>
    match s.stored key with
    | none => none
    | some st =>
      if st.spec.renewTime = r then none
      else some ((s.store key (some (s.renewed st r))).noteWrote st.uid r)
  | .delete key, s =>
    match s.stored key with
    | none => none
    | some st =>
      if st.deleting then none
      else if st.finalizers.isEmpty then some (s.store key none)
      else some (s.store key (some (s.marked st)))
  | .setFinalizers key fs, s =>
    match s.stored key with
    | none => none
    | some st =>
      if !Shared.mayFinalize st fs then none
      else if st.deleting && fs.isEmpty then some (s.store key none)
      else some (s.store key (some (s.finalized st fs)))
  | .setPool key pool, s => some { s with pools := Function.update s.pools key pool }
  | .setNode name node, s =>
    some { s with nodes := Function.update s.nodes name ((s.nodes name).push node) }
  | .sync key n, s =>
    some { s with claims := Function.update s.claims key ((s.claims key).sync n) }
  | .syncNode name n, s =>
    some { s with nodes := Function.update s.nodes name ((s.nodes name).sync n) }
  | .tick d, s => some { s with now := s.now + d }
  | .battery a, s =>
    (s.battery.act s.now s.history a).map fun r => { s with battery := r.1, history := r.2 }
  | .deliver e, s =>
    if e ∈ s.battery.outbox then
      some { s with
        deleted := if reportsDeletion e then s.deleted.add s.now e.vmUID else s.deleted }
    else none

/-- A crash of the Operator: its memory and the calls it had in flight are gone. -/
def crash (s : Shared) : Shared :=
  { s with
    binding := fun _ => none
    deleted := { s.deleted with seen := [] }
    recovered := {}
    slots := 0 }

/-! ## 5. The machine -/

/-- **The machine.** -/
def machine (r : MicroVMClaimReconciler) : Machine Thread Choice EnvAct Op Op.Ans Shared where
  exec := exec
  env := env
  prog
    | .claim key => do
        let _ ← r.reconcile key
        pure ()
    | .recovery => do
        let _ ← claimRecovery.run
        pure ()
  crash := crash

abbrev ClaimWorld := World Thread Op Op.Ans Shared

/-- A step's label. -/
abbrev ClaimAct := Act Thread Choice EnvAct

/-- Nothing has happened yet: no claim, no Lease, no event, and no reconcile runs. Pools, Nodes,
    thresholds and the time are arbitrary. -/
structure Start (w : ClaimWorld) : Prop where
  claims : ∀ key, w.shared.claims key = Register.init none
  leases : w.shared.battery.leases = []
  outbox : w.shared.battery.outbox = []
  binding : ∀ key, w.shared.binding key = none
  seen : w.shared.deleted.seen = []
  recovered : w.shared.recovered.leases = []
  history : w.shared.history = []
  running : ∀ t, w.running t = none

/-- **The worlds reached by steps that `ok` admits.** -/
def ReachableBy (r : MicroVMClaimReconciler) (ok : ClaimWorld → ClaimAct → Prop)
    (w : ClaimWorld) : Prop :=
  ∃ w0, Start w0 ∧ (machine r).Run ok w0 w

/-- **The worlds reached.** -/
def Reachable (r : MicroVMClaimReconciler) : ClaimWorld → Prop :=
  ReachableBy r fun _ _ => True

end BatteryOperator
