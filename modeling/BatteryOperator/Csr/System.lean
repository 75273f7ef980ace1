/-
  Subject:   The CertificateSigningRequests, the Nodes and the pins ConfigMap at the API server, and
             the signer's reconciles, as one machine.

  There is one thread for each name a request may have: reconciles of different requests run side
  by side, those of one request one at a time. Requests and pins are read from caches that may
  return any version there has been (`Choice.behind`), Nodes from the API server. Every write
  carries the resourceVersion that was read and is refused when it is not the stored one; a write
  may also fail before or after it took effect (`Choice.fault`).

  The API server keeps the spec of a request as it was created and takes no condition off it, so
  what others do to a request is add a condition or remove the object (`EnvAct`). They change Nodes
  and CA Secrets, and they may write the pins (`setPins`).

  The histories `readings` and `issued` are written along and read by nobody.
-/
import BatteryOperator.Csr.Controller

namespace BatteryOperator.Csr

open Lib

/-! ## 1. The state -/

/-- What a reconcile has read for its review: the requester's Node and the pins, `none` where there
    was none or it has not read them. -/
structure Reading where
  node : Option Node := none
  pins : Option ConfigMap := none

/-- A certificate that was stored: on which request, and what the pins were then. -/
structure Issue where
  request : CertificateSigningRequest
  certificate : Certificate
  pins : Option ConfigMap

structure State where
  now : Time
  /-- The last resourceVersion or uid given out. -/
  version : Nat
  /-- The requests, by name. -/
  requests : String → Versions CertificateSigningRequest
  nodes : String → Option Node
  pins : Versions ConfigMap
  /-- The CA Secrets, by name. -/
  cas : String → Option CASecret
  /-- The controller's `pinIndex`. -/
  index : Option PinIndex
  /-- What the reconcile of each request has read. -/
  readings : String → Reading
  issued : List Issue

/-- The request stored under a name. -/
def State.stored (s : State) (name : String) : Option CertificateSigningRequest :=
  (s.requests name).current

/-- An entry of the pins as they are stored. -/
def State.pinOf (s : State) (node : String) : Option String :=
  s.pins.current.bind fun cm => cm.data.lookup node

/-- What an operation may leave open: how far a cache is behind, how a call ends, a random
    number. -/
structure Choice where
  behind : Nat := 0
  fault : ApiFault := .none
  serial : Nat := 0
  deriving DecidableEq

/-! ## 2. The API server's answers -/

def notFound (resource name : String) : ApiError :=
  ⟨.notFound, resource ++ " " ++ quote name ++ " not found"⟩

def conflict (resource name : String) : ApiError :=
  ⟨.conflict, "Operation cannot be fulfilled on " ++ resource ++ " " ++ quote name ++
    ": the object has been modified; please apply your changes to the latest version and try again"⟩

def alreadyExists (resource name : String) : ApiError :=
  ⟨.alreadyExists, resource ++ " " ++ quote name ++ " already exists"⟩

def csrResource : String := "certificatesigningrequests.certificates.k8s.io"

/-- A read: the object, or that there is none. -/
def found {α : Type} (resource name : String) : Option α → Except ApiError α
  | some a => .ok a
  | none => .error (notFound resource name)

/-- A new version of a request. -/
def State.store (s : State) (csr : CertificateSigningRequest) : State :=
  { s with
    version := s.version + 1
    requests := Function.update s.requests csr.name
      (some { csr with resourceVersion := s.version + 1 } :: s.requests csr.name) }

/-- A write of a request by the controller: `set` says what the subresource takes from `csr`. -/
def State.update (s : State) (csr : CertificateSigningRequest)
    (set : CertificateSigningRequest → CertificateSigningRequest) (issued : List Issue) :
    Except ApiError CertificateSigningRequest × State :=
  match s.stored csr.name with
  | none => (.error (notFound csrResource csr.name), s)
  | some o =>
    if o.resourceVersion = csr.resourceVersion then
      (.ok { set o with resourceVersion := s.version + 1 },
        { s.store (set o) with issued := issued ++ s.issued })
    else (.error (conflict csrResource csr.name), s)

/-- The approval subresource takes the conditions. -/
def setApproval (csr o : CertificateSigningRequest) : CertificateSigningRequest :=
  { o with conditions := csr.conditions }

/-- The status subresource takes the conditions and the certificate. -/
def setStatus (csr o : CertificateSigningRequest) : CertificateSigningRequest :=
  { o with conditions := csr.conditions, certificate := csr.certificate }

/-- The certificate a write of the status stores. -/
def State.issues (s : State) (csr : CertificateSigningRequest) : List Issue :=
  match s.stored csr.name, csr.certificate with
  | some o, some cert => [⟨o, cert, s.pins.current⟩]
  | _, _ => []

/-- A new version of the pins. -/
def State.storePins (s : State) (cm : ConfigMap) : State :=
  { s with
    version := s.version + 1
    pins := some { cm with resourceVersion := s.version + 1 } :: s.pins }

/-- The pins are created, where there are none. -/
def State.createPins (s : State) (cm : ConfigMap) : Except ApiError ConfigMap × State :=
  match s.pins.current with
  | some _ => (.error (alreadyExists "configmaps" cm.key.name), s)
  | none =>
    (.ok { cm with uid := s.version + 1, resourceVersion := s.version + 1 },
      s.storePins { cm with uid := s.version + 1 })

/-- The pins are updated, if they are the version that was read. -/
def State.updatePins (s : State) (cm : ConfigMap) : Except ApiError ConfigMap × State :=
  match s.pins.current with
  | none => (.error (notFound "configmaps" cm.key.name), s)
  | some o =>
    if o.resourceVersion = cm.resourceVersion then
      (.ok { o with data := cm.data, resourceVersion := s.version + 1 },
        s.storePins { o with data := cm.data })
    else (.error (conflict "configmaps" cm.key.name), s)

/-- What a reconcile reads is noted. -/
def State.note (s : State) (t : String) (r : Reading) : State :=
  { s with readings := Function.update s.readings t r }

/-! ## 3. Operations -/

/-- The answer of a library call that can fail. -/
def answered {α : Type} (a : α) : ApiFault → Except String α
  | .none => .ok a
  | .failed _ text => .error text

/-- The value of an answer, if there is one. -/
def valueOf {α : Type} : Except ApiError α → Option α
  | .ok a => some a
  | .error _ => none

/-- One operation of the reconcile of request `t`. -/
def exec (t : String) (c : Choice) : (o : CsrOp) → State → o.Ans × State
  | .get name, s =>
    (c.fault.read (found csrResource name ((s.requests name).copy c.behind)), s.note t {})
  | .now, s => (s.now, s)
  | .getNode name, s =>
    (c.fault.read (found "nodes" name (s.nodes name)),
      s.note t { s.readings t with
        node := valueOf (c.fault.read (found "nodes" name (s.nodes name))) })
  | .getPins key, s =>
    (c.fault.read (found "configmaps" key.name (s.pins.copy c.behind)),
      s.note t { s.readings t with
        pins := valueOf (c.fault.read (found "configmaps" key.name (s.pins.copy c.behind))) })
  | .indexPins cm, s =>
    ((PinIndex.of s.index cm).1, { s with index := (PinIndex.of s.index cm).2 })
  | .getCA key, s => (c.fault.read (found "secrets" key.name (s.cas key.name)), s)
  | .randInt, s => (answered c.serial c.fault, s)
  | .createCertificate tmpl, s => (answered tmpl c.fault, s)
  | .updateApproval csr, s => c.fault.write (s.update csr (setApproval csr) []) s
  | .updateStatus csr, s => c.fault.write (s.update csr (setStatus csr) (s.issues csr)) s
  | .createPins cm, s => c.fault.write (s.createPins cm) s
  | .updatePins cm, s => c.fault.write (s.updatePins cm) s

/-! ## 4. The environment -/

/-- What others do. -/
inductive EnvAct where
  | tick (d : Nat)
  /-- A request is created; the API server fills in who asks. -/
  | submit (name : String) (spec : RequestSpec)
  /-- Another approver, or anyone, adds a condition. -/
  | addCondition (name : String) (c : Condition)
  | remove (name : String)
  /-- A Node comes, goes or changes its addresses. -/
  | setNode (name : String) (addresses : Option (List (NodeAddressType × String)))
  | setCA (name : String) (secret : Option CASecret)
  /-- Someone else writes the pins, or removes them. -/
  | setPins (data : Option (Dict String String))

/-- A request as it is created. -/
def created (name : String) (uid : Nat) (spec : RequestSpec) : CertificateSigningRequest where
  name := name
  uid := uid
  resourceVersion := 0
  spec := spec
  conditions := []
  certificate := none

/-- The pins as someone else writes them. -/
def foreignPins (cfg : SignerConfig) (s : State) (data : Dict String String) : ConfigMap :=
  match s.pins.current with
  | some cm => { cm with data := data }
  | none => { key := pinsKey cfg, uid := s.version + 1, data := data }

/-- One action of the environment. -/
def env (cfg : SignerConfig) : EnvAct → State → Option State
  | .tick d, s => some { s with now := s.now + d }
  | .submit name spec, s =>
    match s.stored name with
    | some _ => none
    | none => some (s.store (created name (s.version + 1) spec))
  | .addCondition name c, s => (s.stored name).map fun o => s.store (o.plus c)
  | .remove name, s =>
    (s.stored name).map fun _ =>
      { s with requests := Function.update s.requests name (none :: s.requests name) }
  | .setNode name addresses, s =>
    some { s with nodes := Function.update s.nodes name (addresses.map (⟨name, ·⟩)) }
  | .setCA name secret, s => some { s with cas := Function.update s.cas name secret }
  | .setPins (some data), s => some (s.storePins (foreignPins cfg s data))
  | .setPins none, s => some { s with pins := none :: s.pins }

/-- **The machine.** A crash takes the index along. -/
def machine (X : X509) (cfg : SignerConfig) :
    Machine String Choice EnvAct CsrOp CsrOp.Ans State where
  exec t c o s := some (exec t c o s)
  env := env cfg
  prog t := do
    let _ ← reconcile X cfg t
  crash s := { s with index := none }

/-- No request, no Node, no pins yet. -/
def start : World String CsrOp CsrOp.Ans State where
  shared :=
    { now := 0, version := 0, requests := fun _ => [], nodes := fun _ => none, pins := [],
      cas := fun _ => none, index := none, readings := fun _ => {}, issued := [] }
  running := fun _ => none

/-- The worlds there can be. -/
def Reachable (X : X509) (cfg : SignerConfig) (w : World String CsrOp CsrOp.Ans State) : Prop :=
  (machine X cfg).Run (fun _ _ => True) start w

/-- Only the controller writes the pins. -/
def OnlyOperatorPins (_ : World String CsrOp CsrOp.Ans State) : Act String Choice EnvAct → Bool
  | .env (.setPins _) => false
  | _ => true

end BatteryOperator.Csr
