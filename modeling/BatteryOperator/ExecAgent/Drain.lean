/-
  Subject:   The drain guard (internal/execagent/drain.go) and the world around it.

  The guard is a pod on the Host's Node under a PodDisruptionBudget of its own. The agent's one
  thread reads the Node and reconciles the guard, again and again
  (internal/execagent/run.go, `keepReporting`); every call of it is one operation, and the world
  may move between any two.

  * Of the two objects only what the guard reads is kept: whether they exist, and the pod's phase
    and deletion mark. Their labels, owners and specs are constant, and nothing here reads them.
  * The annotation drain-started is kept as the time `time.Parse` reads of it. The agent writes it
    in UTC with nanoseconds, which loses nothing.
  * `Sight` says what the reconcile in progress has read. No program reads it.
-/
import BatteryOperator.ExecAgent.Claims
import BatteryOperator.Faults
import BatteryOperator.Lib.Program

namespace BatteryOperator.ExecAgent

open Lib

/-! ## 1. What the guard reads and remembers -/

/-- `corev1.PodPhase`. -/
inductive PodPhase where
  | pending
  | running
  | succeeded
  | failed
  | unknown
  deriving DecidableEq

/-- The phase's text. -/
def PodPhase.text : PodPhase → String
  | .pending => "Pending"
  | .running => "Running"
  | .succeeded => "Succeeded"
  | .failed => "Failed"
  | .unknown => "Unknown"

/-- The guard pod, as far as `placeGuard` reads it. -/
structure GuardPod where
  phase : PodPhase
  /-- It has a deletion timestamp. -/
  deleting : Bool
  deriving DecidableEq

/-- A pod that holds nothing open. -/
def GuardPod.ended (p : GuardPod) : Bool := p.phase = .failed || p.phase = .succeeded || p.deleting

/-- The text of the annotation drain-started: a time, or none that `time.Parse` reads. -/
inductive DrainStamp where
  | time (t : Time)
  | unreadable
  deriving DecidableEq

/-- The Host's Node, as far as the guard reads it. -/
structure HostNode where
  unschedulable : Bool
  drainStarted : Option DrainStamp
  deriving DecidableEq

/-- The time an annotation drain-started gives. -/
def stampTime : Option DrainStamp → Option Time
  | some (.time t) => some t
  | _ => none

/-- `drainStarted`: when the agent first saw the Node unschedulable. -/
def drainStarted (host : HostNode) : Option Time := stampTime host.drainStarted

/-- The memory of a `drainGuard`; `synced` is `none` while it is the zero time. -/
structure DrainMemory where
  synced : Option Time := none
  guardKnown : Bool := false
  guard : Bool := false
  abandoned : List String := []
  deriving DecidableEq

/-- The constants of a `drainGuard`. -/
structure DrainGuard where
  hostNode : String
  drainTimeout : Duration
  resync : Duration

/-! ## 2. The reconcile -/

/-- What the guard's code does outside its own memory, and the start and end of a reconcile. -/
inductive DrainOp where
  | getNode
  | boundOnHost
  | now
  /-- `patchNodeAnnotations` of drain-started alone. -/
  | annotate (started : Option Time)
  | createBudget
  | deleteBudget
  | createPod
  | getPod
  /-- A delete without grace. -/
  | deletePod
  /-- The memory the last reconcile left. -/
  | memory
  /-- The reconcile returns. -/
  | finish (memory : DrainMemory) (err : Option String)

abbrev DrainOp.Ans : DrainOp → Type
  | .getNode => Except ApiError HostNode
  | .boundOnHost => Except String (List Claim)
  | .now => Time
  | .annotate _ => Except ApiError Unit
  | .createBudget => Except ApiError Unit
  | .deleteBudget => Except ApiError Unit
  | .createPod => Except ApiError Unit
  | .getPod => Except ApiError GuardPod
  | .deletePod => Except ApiError Unit
  | .memory => DrainMemory
  | .finish _ _ => Unit

abbrev DrainCode := Prog DrainOp DrainOp.Ans

/-- The code that asks for one operation. -/
def drainAsk (o : DrainOp) : DrainCode o.Ans := Prog.call o

/-- The second half of `removeGuard`: the budget. -/
def removeBudget : DrainCode (Option String) := do
  match ← drainAsk .deleteBudget with
  | .ok _ => pure none
  | .error e =>
    pure (if e.isNotFound then none
      else some ("deleting the drain guard's pod disruption budget: " ++ e.text))

/-- `removeGuard`: the pod, then its budget. -/
def removeGuard : DrainCode (Option String) := do
  match ← drainAsk .deletePod with
  | .ok _ => removeBudget
  | .error e =>
    if e.isNotFound then removeBudget
    else pure (some ("deleting the drain guard pod: " ++ e.text))

/-- The end of `placeGuard`, where a guard pod is there already: one that has ended is deleted, so
    that the next reconcile places a live one. -/
def keepPod : DrainCode (Option String) := do
  match ← drainAsk .getPod with
  | .error e => pure (some ("reading the drain guard pod: " ++ e.text))
  | .ok existing =>
    if existing.ended then do
      let had := some ("the drain guard pod had ended (" ++ existing.phase.text ++
        ") and was deleted; the next reconcile places a new one")
      match ← drainAsk .deletePod with
      | .ok _ => pure had
      | .error e =>
        pure (if e.isNotFound then had
          else some ("deleting the ended drain guard pod: " ++ e.text))
    else pure none

/-- The second half of `placeGuard`: the pod. -/
def placePod : DrainCode (Option String) := do
  match ← drainAsk .createPod with
  | .ok _ => pure none
  | .error e =>
    if e.isAlreadyExists then keepPod
    else pure (some ("creating the drain guard pod: " ++ e.text))

/-- `placeGuard`: the budget, then the pod. -/
def placeGuard : DrainCode (Option String) := do
  match ← drainAsk .createBudget with
  | .ok _ => placePod
  | .error e =>
    if e.isAlreadyExists then placePod
    else pure (some ("creating the drain guard's pod disruption budget: " ++ e.text))

/-- The branch of `setGuard`. -/
def changeGuard : Bool → DrainCode (Option String)
  | true => placeGuard
  | false => removeGuard

/-- `setGuard`: nothing is called while the guard is known to be as wanted. -/
def setGuard (m : DrainMemory) (want : Bool) : DrainCode (DrainMemory × Option String) := do
  if m.guardKnown = true ∧ m.guard = want then pure (m, none)
  else
    match ← changeGuard want with
    | some err => pure ({ m with guardKnown := false }, some err)
    | none => do
        let now ← drainAsk .now
        pure ({ m with guardKnown := true, guard := want, synced := some now }, none)

/-- The claims newly abandoned are remembered. -/
def DrainMemory.abandon (m : DrainMemory) (bound : List Claim) : DrainMemory :=
  { m with
    abandoned := bound.foldl
      (fun a c => if c.string ∈ a then a else a ++ [c.string]) m.abandoned }

namespace DrainGuard

/-- The start of `reconcile`: every resync period the guard forgets what it did. -/
def forget (d : DrainGuard) (m : DrainMemory) : DrainCode DrainMemory :=
  match m.synced with
  | none => pure m
  | some t => do
      let now ← drainAsk .now
      pure (if d.resync ≤ now - t then { m with guardKnown := false } else m)

/-- The end of `reconcile`, over a Node that is unschedulable since `started`. -/
def awaitDrain (d : DrainGuard) (m : DrainMemory) (bound : List Claim) (started : Time) :
    DrainCode (DrainMemory × Option String) := do
  let now ← drainAsk .now
  if bound ≠ [] ∧ d.drainTimeout ≤ now - started then setGuard (m.abandon bound) false
  else setGuard m (bound ≠ [])

/-- `patchNodeAnnotations`, as an error. -/
def annotateError (d : DrainGuard) (e : ApiError) : String :=
  "annotating the host's node " ++ d.hostNode ++ ": " ++ e.text

/-- `reconcile` over the claims listed. -/
def hold (d : DrainGuard) (m : DrainMemory) (host : HostNode) (bound : List Claim) :
    DrainCode (DrainMemory × Option String) := do
  if host.unschedulable = false then
    let m := { m with abandoned := [] }
    match drainStarted host with
    | none => setGuard m (bound ≠ [])
    | some _ =>
      match ← drainAsk (.annotate none) with
      | .error e => pure (m, some (d.annotateError e))
      | .ok _ => setGuard m (bound ≠ [])
  else
    match drainStarted host with
    | some started => d.awaitDrain m bound started
    | none => do
        let started ← drainAsk .now
        match ← drainAsk (.annotate (some started)) with
        | .error e => pure (m, some (d.annotateError e))
        | .ok _ => d.awaitDrain m bound started

/-- **`reconcile`.** -/
def reconcile (d : DrainGuard) (m : DrainMemory) (host : HostNode) :
    DrainCode (DrainMemory × Option String) := do
  let m ← d.forget m
  match ← drainAsk .boundOnHost with
  | .error err => pure (m, some ("listing the claims bound on this host: " ++ err))
  | .ok bound => d.hold m host bound

/-- One round of `keepReporting`, as far as the guard goes. -/
def report (d : DrainGuard) : DrainCode Unit := do
  match ← drainAsk .getNode with
  | .error _ => pure ()
  | .ok host => do
      let m ← drainAsk .memory
      let (m, err) ← d.reconcile m host
      drainAsk (.finish m err)

end DrainGuard

/-! ## 3. The world around the guard -/

/-- What the reconcile in progress has read: the Node, since when, and the claims. -/
structure Sight where
  host : Option HostNode := none
  begun : Time := 0
  listed : Option (Except String (List Claim)) := none

/-- The Node, the claims in the agent's cache, the two objects of the guard, the time, and the
    agent's memory. -/
structure DrainState where
  node : HostNode
  claims : List Claim
  pod : Option GuardPod
  budget : Bool
  now : Time
  memory : DrainMemory
  sight : Sight

namespace DrainState

variable (s : DrainState)

def exists_ (what name : String) : ApiError :=
  ⟨.alreadyExists, what ++ " \"" ++ name ++ "\" already exists"⟩

def missing (what name : String) : ApiError := ⟨.notFound, what ++ " \"" ++ name ++ "\" not found"⟩

/-- `GuardName`. -/
def guardName (hostNode : String) : String := "exec-agent-drain-guard-" ++ hostNode

/-- `KubeClaims.BoundOnHost`, over a cache that has synced. -/
def boundOnHost (hostNode : String) : List Claim :=
  s.claims.filter fun c => c.phase = .bound && c.hostNode = hostNode

def createBudget (name : String) : Except ApiError Unit × DrainState :=
  (if s.budget then .error (exists_ "poddisruptionbudgets.policy" name) else .ok (),
    { s with budget := true })

def deleteBudget (name : String) : Except ApiError Unit × DrainState :=
  (if s.budget then .ok () else .error (missing "poddisruptionbudgets.policy" name),
    { s with budget := false })

def createPod (name : String) : Except ApiError Unit × DrainState :=
  match s.pod with
  | some _ => (.error (exists_ "pods" name), s)
  | none => (.ok (), { s with pod := some ⟨.pending, false⟩ })

def deletePod (name : String) : Except ApiError Unit × DrainState :=
  (if s.pod.isSome then .ok () else .error (missing "pods" name), { s with pod := none })

def getPod (name : String) : Except ApiError GuardPod :=
  match s.pod with
  | some p => .ok p
  | none => .error (missing "pods" name)

def annotate (started : Option Time) : Except ApiError Unit × DrainState :=
  (.ok (), { s with node := { s.node with drainStarted := started.map .time } })

def setListed (listed : Except String (List Claim)) : DrainState :=
  { s with sight := { s.sight with listed := some listed } }

end DrainState

/-- **One operation of the agent.** A Node that is read is read as stored. -/
def DrainGuard.exec (d : DrainGuard) (f : ApiFault) :
    (o : DrainOp) → DrainState → o.Ans × DrainState
  | .getNode, s =>
    match f with
    | .none => (.ok s.node, { s with sight := { host := some s.node, begun := s.now } })
    | .failed _ text => (.error ⟨.other, text⟩, s)
  | .boundOnHost, s =>
    match f with
    | .none => (.ok (s.boundOnHost d.hostNode), s.setListed (.ok (s.boundOnHost d.hostNode)))
    | .failed _ text => (.error text, s.setListed (.error text))
  | .now, s => (s.now, s)
  | .annotate started, s => f.write (s.annotate started) s
  | .createBudget, s => f.write (s.createBudget (DrainState.guardName d.hostNode)) s
  | .deleteBudget, s => f.write (s.deleteBudget (DrainState.guardName d.hostNode)) s
  | .createPod, s => f.write (s.createPod (DrainState.guardName d.hostNode)) s
  | .getPod, s => (f.read (s.getPod (DrainState.guardName d.hostNode)), s)
  | .deletePod, s => f.write (s.deletePod (DrainState.guardName d.hostNode)) s
  | .memory, s => (s.memory, s)
  | .finish m _, s => ((), { s with memory := m, sight := {} })

/-- What happens without the agent. -/
inductive DrainAct where
  | setUnschedulable (unschedulable : Bool)
  | setClaims (claims : List Claim)
  /-- Time passes. -/
  | tick (nanoseconds : Nat)
  /-- The kubelet reports the guard pod's phase. -/
  | podPhase (phase : PodPhase)
  /-- A guard pod that is being deleted goes. -/
  | podGone

/-- **One action of the world around the agent.** -/
def drainEnv : DrainAct → DrainState → Option DrainState
  | .setUnschedulable b, s => some { s with node := { s.node with unschedulable := b } }
  | .setClaims cs, s => some { s with claims := cs }
  | .tick n, s => some { s with now := s.now + n }
  | .podPhase phase, s => s.pod.map fun p => { s with pod := some { p with phase := phase } }
  | .podGone, s =>
    match s.pod with
    | some p => if p.deleting then some { s with pod := none } else none
    | none => none

/-- **The machine.** A crash is a restart of the agent: what it remembered is gone. -/
def DrainGuard.machine (d : DrainGuard) :
    Machine Unit ApiFault DrainAct DrainOp DrainOp.Ans DrainState where
  exec _ f o s := some (d.exec f o s)
  env := drainEnv
  prog _ := d.report
  crash s := { s with memory := {}, sight := {} }

abbrev DrainWorld := World Unit DrainOp DrainOp.Ans DrainState

/-- An agent that has just started: it remembers nothing. What an earlier one left of the guard has
    its budget; Node, claims and time are arbitrary. -/
structure DrainStart (w : DrainWorld) : Prop where
  budget : w.shared.pod.isSome = true → w.shared.budget = true
  memory : w.shared.memory = {}
  sight : w.shared.sight = {}
  running : w.running () = none

/-- **The worlds reached by steps that `ok` admits.** -/
def DrainGuard.Reachable (d : DrainGuard) (w : DrainWorld) : Prop :=
  ∃ w0, DrainStart w0 ∧ d.machine.Run (fun _ _ => True) w0 w

end BatteryOperator.ExecAgent
