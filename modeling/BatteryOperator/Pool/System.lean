/-
  Subject:   The Pool objects of one name at the API server, battery's Pool of that name and the
             Pool Controller as one machine.

  The API server keeps one object under the name at a time; it comes and goes, each time with a
  uid of its own, and the controller reads it through a cache that may lag and never goes back
  (`Register`). The patches name the object by its name alone. battery keeps one Pool under the
  name, as docs/requirements/10-battery.md has it. Reconciles of one name run one at a time.

  A call of battery is answered truthfully, or it fails with an error that says nothing about it,
  before or after it took effect. CreatePool may also have taken effect and answer AlreadyExists,
  as a repeated call does. battery refuses a spec, or the deletion of a Pool, as it likes.

  The histories `epoch`, `uids`, `sight`, `declared`, `accepted`, `deleteSent`, `resolved`,
  `refused` and `ended` are written along and read by nobody.
-/
import BatteryOperator.Inventory.System
import BatteryOperator.Lib.Register
import BatteryOperator.Pool.Controller

namespace BatteryOperator.Pools

open Lib

/-! ## 1. The state -/

/-- What the API server holds under the name, and how many objects have been created there. -/
structure Version where
  epoch : Nat
  pool : Option Pool
  deriving DecidableEq

/-- A Node, as far as a selector reads it. -/
structure LabeledNode where
  name : String
  labels : Texts

/-- `HostSet.Matching`: the names, sorted, of the Hosts whose Nodes have the selector's labels. -/
def matching (hostSet : Inventory.HostSet) (nodes : List LabeledNode) (selector : Texts) :
    Except MatchError (List String) :=
  if !hostSet.synced then .error .notSynced
  else
    .ok (sorted (((nodes.filter fun n => selector.all fun l => n.labels.lookup l.1 = some l.2).map
      LabeledNode.name).filter fun name => (hostSet.hosts.lookup name).isSome))

/-- A spec the controller declared, and the object it was taken from. -/
structure Declared where
  epoch : Nat
  generation : Int
  spec : PoolSpec
  hosts : List String

/-- How a reconcile ended: its error, whether battery refused a spec, and the Hosts it resolved. -/
structure Ended where
  err : Option String
  refused : Bool
  resolved : Option (List String)
  deriving DecidableEq

structure State where
  now : Time
  /-- The object under the name at the API server, and the controller's cache of it. -/
  stored : Register Version
  /-- battery's Pool of the name. -/
  battery : Option Battery.Pool
  hostSet : Inventory.HostSet
  nodes : List LabeledNode
  /-- The controller's memory. -/
  stalls : Option PoolStallState
  /-- The uids of the objects there were. -/
  uids : List String
  /-- What the last reconcile read. -/
  sight : Option Version
  /-- The spec battery accepted last. -/
  declared : Option Declared
  /-- The specs battery accepted, with the uid of the object that was reconciled. -/
  accepted : List (String × Battery.PoolSpec)
  /-- The uids of the objects DeletePool has been sent for. -/
  deleteSent : List String
  resolved : Option (List String)
  refused : Bool
  /-- How the last reconcile ended; none while one runs. -/
  ended : Option Ended

namespace State

/-- The object the API server holds. -/
def object (s : State) : Option Pool := s.stored.current.pool

/-- battery takes the spec. -/
def declare (s : State) (spec : Battery.PoolSpec) (status : Battery.PoolStatus) : State :=
  { s with
    battery := some ⟨spec, status⟩
    declared := s.sight.bind fun v => v.pool.map fun p =>
      ⟨v.epoch, p.generation, p.spec, spec.flintlockHosts⟩
    accepted := match s.sight.bind Version.pool with
      | some p => (p.uid, spec) :: s.accepted
      | none => s.accepted }

/-- The API server stores what it holds under the name from now on. -/
def store (s : State) (pool : Option Pool) : State :=
  { s with stored := s.stored.push ⟨s.stored.current.epoch, pool⟩ }

end State

/-! ## 2. Operations -/

/-- How an operation ends. -/
inductive Choice where
  | ok
  /-- It fails, after or before it took effect. -/
  | fail (applied : Bool) (e : BatteryError)
  /-- battery refuses. -/
  | refuse (text : String)
  /-- CreatePool took effect, and a repetition of it is answered. -/
  | exists_

/-- A write of the API server takes effect. -/
def Choice.applied : Choice → Bool
  | .ok => true
  | .fail applied _ => applied
  | _ => false

/-- An error that says nothing about the Pool. -/
def ErrorKind.silent : ErrorKind → Bool
  | .notFound => false
  | .alreadyExists => false
  | .invalid => false
  | .failedPrecondition => false
  | _ => true

section Exec

variable (s : State)

/-- A call of battery: served, or failed with an error that says nothing. -/
def Choice.call {α : Type} (served : Except BatteryError α × State) :
    Choice → Option (Except BatteryError α × State)
  | .ok => some served
  | .fail applied e =>
    if ErrorKind.silent e.kind then some (.error e, if applied then served.2 else s) else none
  | _ => none

def poolNotFound : BatteryError := ⟨.notFound, "battery: not found"⟩

def poolExists : BatteryError := ⟨.alreadyExists, "battery: already exists"⟩

/-- GetPool. -/
def State.getPool : Except BatteryError Battery.Pool :=
  match s.battery with
  | none => .error poolNotFound
  | some p => .ok p

/-- CreatePool, when battery accepts the spec. -/
def State.createPool (spec : Battery.PoolSpec) : Except BatteryError Battery.Pool × State :=
  match s.battery with
  | some _ => (.error poolExists, s)
  | none => (.ok ⟨spec, {}⟩, s.declare spec {})

/-- UpdatePool, when battery accepts the spec. -/
def State.updatePool (spec : Battery.PoolSpec) : Except BatteryError Battery.Pool × State :=
  match s.battery with
  | none => (.error poolNotFound, s)
  | some p => (.ok ⟨spec, p.status⟩, s.declare spec p.status)

/-- DeletePool, when battery accepts it. -/
def State.deletePool : Except BatteryError Unit × State :=
  match s.battery with
  | none => (.error poolNotFound, s)
  | some _ => (.ok (), { s with battery := none })

/-- battery refuses to delete a Pool it holds. -/
def State.refuseDelete (text : String) : Except BatteryError Unit :=
  match s.battery with
  | none => .error poolNotFound
  | some _ => .error ⟨.failedPrecondition, errFailedPrecondition ++ ": " ++ text⟩

/-- battery refuses a spec. -/
def refusal (text : String) : BatteryError := ⟨.invalid, errInvalid ++ ": " ++ text⟩

/-- The status patch: the API server merges it into whatever it holds under the name. -/
def State.patchStatus (base object : Pool) : Except ApiError Unit × State :=
  match s.object with
  | none => (.error ⟨.notFound, "not found"⟩, s)
  | some p => (.ok (), s.store (some
      { p with status := PoolStatus.merge base.status.encode object.status.encode p.status }))

/-- The finalizers are set: an object being deleted gets no new ones, and goes with the last. -/
def State.setFinalizers (p : Pool) (finalizers : List String) : Except ApiError Unit × State :=
  if p.deleting then
    if finalizers.all fun f => p.finalizers.contains f then
      (.ok (), s.store (if finalizers = [] then none else some { p with finalizers := finalizers }))
    else (.error ⟨.invalid, "no new finalizers can be added if the object is being deleted"⟩, s)
  else (.ok (), s.store (some { p with finalizers := finalizers }))

/-- The patch of the rest: of what the chain leaves, only the finalizers may have changed. -/
def State.patch (base object : Pool) : Except ApiError Unit × State :=
  match s.object with
  | none => (.error ⟨.notFound, "not found"⟩, s)
  | some p =>
    s.setFinalizers p (mergeField base.finalizers object.finalizers p.finalizers)

/-- A write of the API server. -/
def Choice.write (written : Except ApiError Unit × State) :
    Choice → Option (Except ApiError Unit × State)
  | .ok => some written
  | .fail applied e => some (.error ⟨.other, e.text⟩, if applied then written.2 else s)
  | _ => none

/-- The Pool as the cache has it. -/
def State.get : Except ApiError Pool :=
  match s.stored.copy.pool with
  | none => .error ⟨.notFound, "not found"⟩
  | some p => .ok p

/-- **One operation of the reconcile.** -/
def exec (f : Choice) (s : State) : (o : PoolOp) → Option (o.Ans × State)
  | .get =>
    let s' := { s with
      sight := some s.stored.copy, resolved := none, refused := false, ended := none }
    match f with
    | .ok => some (s.get, s')
    | .fail _ e => some (.error ⟨.other, e.text⟩, { s' with sight := none })
    | _ => none
  | .now => some (s.now, s)
  | .matching selector =>
    match f with
    | .ok =>
      match matching s.hostSet s.nodes selector with
      | .ok hosts => some (.ok hosts, { s with resolved := some hosts })
      | .error e => some (.error e, s)
    | .fail _ e => some (.error (.failed ("listing Nodes: " ++ e.text)), s)
    | _ => none
  | .getPool => f.call s (s.getPool, s)
  | .createPool spec =>
    match f with
    | .refuse text => some (.error (refusal text), { s with refused := true })
    | .exists_ => some (.error poolExists, (s.createPool spec).2)
    | f => f.call s (s.createPool spec)
  | .updatePool spec =>
    match f with
    | .refuse text =>
      match s.battery with
      | none => some (.error poolNotFound, s)
      | some _ => some (.error (refusal text), { s with refused := true })
    | f => f.call s (s.updatePool spec)
  | .deletePool =>
    let s := { s with deleteSent := match s.sight.bind Version.pool with
      | some p => p.uid :: s.deleteSent
      | none => s.deleteSent }
    match f with
    | .refuse text => some (s.refuseDelete text, s)
    | f => f.call s s.deletePool
  | .forget => some ((), { s with stalls := none })
  | .observe shortfall stalled now =>
    let r := PoolStallState.observe s.stalls shortfall stalled now
    some (r.1, { s with stalls := r.2 })
  | .patchStatus base object => f.write s (s.patchStatus base object)
  | .patch base object => f.write s (s.patch base object)
  | .returned err => some ((), { s with ended := some ⟨err, s.refused, s.resolved⟩ })

end Exec

/-! ## 3. The environment -/

/-- What happens without the controller. -/
inductive EnvAct where
  /-- A Pool is created. -/
  | create (uid : String) (spec : PoolSpec) (finalizers : List String)
  /-- Its spec is edited. -/
  | edit (spec : PoolSpec)
  /-- It is deleted. -/
  | delete
  /-- Others change finalizers of their own. -/
  | setFinalizers (finalizers : List String)
  /-- The cache catches up until it is at most `n` versions behind. -/
  | sync (n : Nat)
  /-- The Hosts change. -/
  | setHosts (hostSet : Inventory.HostSet) (nodes : List LabeledNode)
  /-- battery's counts change. -/
  | setCounts (status : Battery.PoolStatus)
  /-- Time passes. -/
  | tick (nanoseconds : Nat)

/-- A Pool as it is created: without the Pool finalizer and without a status. -/
def newPool (uid : String) (spec : PoolSpec) (finalizers : List String) : Pool where
  uid := uid
  generation := 1
  deletionTimestamp := none
  finalizers := finalizers
  spec := spec
  status := {}

/-- The object after an edit of its spec. -/
def Pool.edited (p : Pool) (spec : PoolSpec) : Pool :=
  if p.spec = spec then p else { p with spec := spec, generation := p.generation + 1 }

def env (s : State) : EnvAct → Option State
  | .create uid spec finalizers =>
    if s.object = none ∧ uid ∉ s.uids ∧ poolFinalizer ∉ finalizers then
      some { s with
        uids := uid :: s.uids
        stored := s.stored.push
          ⟨s.stored.current.epoch + 1, some (newPool uid spec finalizers)⟩ }
    else none
  | .edit spec => s.object.map fun p => s.store (some (p.edited spec))
  | .delete =>
    match s.object with
    | none => none
    | some p =>
      if p.deleting then none
      else if p.finalizers = [] then some (s.store none)
      else some (s.store (some
        { p with deletionTimestamp := some s.now, generation := p.generation + 1 }))
  | .setFinalizers finalizers =>
    match s.object with
    | none => none
    | some p =>
      if finalizers.contains poolFinalizer = p.held then
        some (s.setFinalizers p finalizers).2
      else none
  | .sync n => some { s with stored := s.stored.sync n }
  | .setHosts hostSet nodes => some { s with hostSet := hostSet, nodes := nodes }
  | .setCounts status =>
    some { s with battery := s.battery.map fun p => { p with status := status } }
  | .tick n => some { s with now := s.now + n }

/-! ## 4. The machine -/

/-- **The machine.** A crash of the Operator loses its memory. -/
def machine (key : ObjectKey) : Machine Unit Choice EnvAct PoolOp PoolOp.Ans State where
  exec _ f o s := exec f s o
  env a s := env s a
  prog _ := do
    let r ← reconcile key
    ask (.returned r.2)
  crash s := { s with stalls := none }

abbrev PoolWorld := World Unit PoolOp PoolOp.Ans State

/-- At first nothing is there, and no reconcile runs. -/
def start : PoolWorld where
  shared :=
    { now := 0
      stored := Register.init ⟨0, none⟩
      battery := none
      hostSet := {}
      nodes := []
      stalls := none
      uids := []
      sight := none
      declared := none
      accepted := []
      deleteSent := []
      resolved := none
      refused := false
      ended := none }
  running := fun _ => none

/-- **The worlds reached.** -/
def Reachable (key : ObjectKey) (w : PoolWorld) : Prop :=
  (machine key).Run (fun _ _ => True) start w

end BatteryOperator.Pools
