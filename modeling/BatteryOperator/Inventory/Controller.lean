/-
  Subject:   The Inventory Controller (internal/controller/inventory/subreconcilers.go, scope.go and
             internal/controller/inventory_controller.go) over battery's HostAdmin
             (internal/battery/hostadmin.go).

  One reconcile lists the Nodes and battery's Hosts, works out the Hosts battery should place on,
  and brings battery in step, one call at a time. It publishes the Hosts battery places on for the
  Pool Controller twice: before the first call that takes a Host away (`Withdraw`), and at its end
  (`Publish`).

  Left out: the log lines, and of a `HostStatus` the counts beside its Host, which nothing here
  reads. Settle goes over its names in the order in which the maps list them; each name writes
  entries of its own, so the order does not show.
-/
import BatteryOperator.Battery
import BatteryOperator.Faults
import BatteryOperator.Lib.Dict
import BatteryOperator.Lib.Program
import BatteryOperator.Reconcile

namespace BatteryOperator.Inventory

open Lib

/-! ## 1. Hosts and Nodes -/

/-- `HostTLS`. -/
structure HostTLS where
  insecure : Bool
  caFile : String
  certFile : String
  keyFile : String
  deriving DecidableEq

/-- `Host`: one of battery's Hosts. -/
structure Host where
  name : String
  address : String
  tls : HostTLS
  cordoned : Bool := false
  cordonedReason : String := ""
  deriving DecidableEq

/-- `TLS`: how battery reaches every Host's flintlockd. -/
def tls : HostTLS where
  insecure := false
  caFile := "/etc/battery/tls/serving-ca.crt"
  certFile := "/etc/battery/tls/tls.crt"
  keyFile := "/etc/battery/tls/tls.key"

/-- `Hosts`: each Host's name to its flintlockd address. -/
abbrev Hosts := Dict String String

/-- An entry of a map of texts, `""` where there is none. -/
def entry (m : Dict String String) (key : String) : String := (m.lookup key).getD ""

def annotationReady : String := "battery.liquidmetal-x.dev/exec-agent-ready"

def annotationFlintlockdAddress : String := "battery.liquidmetal-x.dev/flintlockd-address"

def annotationTrue : String := "true"

/-- A Node, as far as the Inventory Controller reads it. -/
structure Node where
  name : String
  annotations : Dict String String
  unschedulable : Bool
  /-- It has a deletion timestamp. -/
  deleting : Bool

/-! ## 2. The scope -/

/-- `seen`: a Node as the controller last saw it. -/
structure Seen where
  address : String
  since : Time
  deriving DecidableEq

/-- `State`: what the controller remembers between reconciles. -/
structure State where
  seen : Dict String Seen := ∅
  reloaded : String := ""

/-- The bytes of a certificate. -/
abbrev Bytes := List UInt8

/-- `Scope`: one reconcile of the inventory. `desired` is `none` until Settle has run. -/
structure Scope where
  nodes : List Node
  held : Dict String Host
  clientCertificate : Option Bytes
  observed : Hosts := ∅
  desired : Option Hosts := none
  errs : List String := []
  state : State

/-- `Options`: the controller's timings. -/
structure Options where
  settleTime : Duration := 30 * second
  removeRetry : Duration := 30 * second
  mountPoll : Duration := 0

/-- `removeRetry`. -/
def Options.removeRetryOrDefault (o : Options) : Duration :=
  if o.removeRetry ≤ 0 then 30 * second else o.removeRetry

/-- `mountPoll`. -/
def Options.mountPollOrDefault (o : Options) : Duration :=
  if o.mountPoll ≤ 0 then 5 * second else o.mountPoll

/-- Why the mounted certificate cannot be read: the volume is being swapped, or any other. -/
inductive MountError where
  | notExist
  | other (text : String)
  deriving DecidableEq

/-- What the controller's code does outside its own scope. -/
inductive Op where
  | listNodes
  | listHosts
  /-- The Secret of battery's client certificate, and its `tls.crt`. -/
  | getSecret
  | mountedCertificate
  | now
  | addHost (host : Host) (skipValidation : Bool)
  | getHost (name : String)
  | updateHost (host : Host) (skipValidation : Bool)
  | removeHost (name : String)
  | cordonHost (name reason : String)
  | uncordonHost (name : String)
  /-- `HostSet.publish`. -/
  | publish (hosts : Hosts)
  /-- What the last reconcile remembered. -/
  | state
  /-- The reconcile ends; it remembers this. -/
  | remember (state : State)

abbrev Op.Ans : Op → Type
  | .listNodes => Except ApiError (List Node)
  | .listHosts => Except BatteryError (List Host)
  | .getSecret => Except ApiError Bytes
  | .mountedCertificate => Except MountError Bytes
  | .now => Time
  | .addHost _ _ => Except BatteryError Host
  | .getHost _ => Except BatteryError Host
  | .updateHost _ _ => Except BatteryError Host
  | .removeHost _ => Except BatteryError Unit
  | .cordonHost _ _ => Except BatteryError Host
  | .uncordonHost _ => Except BatteryError Host
  | .publish _ => Unit
  | .state => State
  | .remember _ => Unit

abbrev Code := Prog Op Op.Ans

/-- The code that asks for one operation. -/
def ask (o : Op) : Code o.Ans := Prog.call o

namespace Scope

/-- `placeable`: the Hosts battery places on now. -/
def placeable (s : Scope) : Hosts :=
  s.held.filterMap fun _ h => if h.cordoned then none else some h.address

/-- What `publishPlaceable` publishes: the Hosts battery places on now and is to go on placing on
    at the same address. -/
def published (s : Scope) : Hosts :=
  match s.desired with
  | none => s.placeable
  | some desired =>
    s.placeable.filterMap fun name address =>
      if entry desired name = address then some address else none

/-- `s.Held[name] = h`. -/
def hold (s : Scope) (name : String) (h : Host) : Scope := { s with held := s.held.insert name h }

/-- `delete(s.Held, name)`. -/
def drop (s : Scope) (name : String) : Scope := { s with held := s.held.erase name }

/-- A single Host's failure. -/
def fail (s : Scope) (err : String) : Scope := { s with errs := s.errs ++ [err] }

/-- Whether a Host is one battery should place on. -/
def isDesired (s : Scope) (name : String) : Bool :=
  match s.desired with
  | none => false
  | some desired => (desired.lookup name).isSome

/-- `leaving`: why a Host is no longer to be placed on. -/
def leaving (s : Scope) (name : String) : String :=
  match (s.nodes.filter fun n => n.name = name).getLast? with
  | none => "Node deleted"
  | some node =>
    if node.deleting then "Node deleted"
    else if node.unschedulable then "Node cordoned"
    else if entry node.annotations annotationReady ≠ annotationTrue then "Host not ready"
    else if entry node.annotations annotationFlintlockdAddress = "" then
      "Node report gives no flintlockd address"
    else "not a Host"

end Scope

/-! ## 3. The steps -/

/-- What `Admit` makes of a Node. -/
def admitNode (observed : Hosts) (n : Node) : Hosts :=
  let address := entry n.annotations annotationFlintlockdAddress
  if n.deleting then observed
  else if entry n.annotations annotationReady = annotationTrue ∧ n.unschedulable = false ∧
      address ≠ "" then observed.insert n.name address
  else observed

/-- The Hosts the Nodes make. -/
def admitted (nodes : List Node) : Hosts := nodes.foldl admitNode ∅

/-- `Admit`: the Hosts the Nodes make now. -/
def Admit.reconcile : SubReconciler Code Scope := fun s =>
  pure { scope := { s with observed := admitted s.nodes } }

/-- What Settle works out, name by name. -/
structure Settling where
  desired : Hosts := ∅
  seen : Dict String Seen
  result : Result := {}

/-- `hosts[name] = address`, where there is an address. -/
def putHost (hosts : Hosts) (name address : String) : Hosts :=
  if address = "" then hosts else hosts.insert name address

/-- What a name made last time and since when; a change begins now. -/
def lastSeen (seen : Dict String Seen) (name observed : String) (now : Time) : Seen :=
  match seen.lookup name with
  | none => ⟨observed, now⟩
  | some last => if last.address = observed then last else ⟨observed, now⟩

/-- Settle, for one name. -/
def settleName (settleTime : Duration) (s : Scope) (now : Time) (acc : Settling) (name : String) :
    Settling :=
  let observed := entry s.observed name
  let current := entry s.placeable name
  let last := lastSeen acc.seen name observed now
  if observed = current then
    -- nothing to apply: a change that flapped back is forgotten
    { acc with seen := acc.seen.erase name, desired := putHost acc.desired name current }
  else if now - last.since < settleTime then
    { desired := putHost acc.desired name current
      seen := acc.seen.insert name last
      result := acc.result.merge { requeueAfter := settleTime - (now - last.since) } }
  else { acc with seen := acc.seen.insert name last, desired := putHost acc.desired name observed }

/-- The names `Settle` goes over. -/
def settleNames (s : Scope) : List String :=
  (s.observed.keys ++ s.placeable.keys ++ s.state.seen.keys).dedup

/-- What `Settle` works out. -/
def settled (settleTime : Duration) (s : Scope) (now : Time) : Settling :=
  (settleNames s).foldl (settleName settleTime s now) { seen := s.state.seen }

/-- `Settle`: the Hosts battery places on now, with every change that has held for the settle
    time. -/
def Settle.reconcile (o : Options) : SubReconciler Code Scope := fun s => do
  let now ← ask .now
  let acc := settled o.settleTime s now
  pure { scope := { s with desired := some acc.desired, state.seen := acc.seen }
         result := acc.result }

/-- `publishPlaceable`. -/
def publishPlaceable (s : Scope) : Code Unit := ask (.publish s.published)

/-- `Withdraw`. -/
def Withdraw.reconcile : SubReconciler Code Scope := fun s => do
  publishPlaceable s
  pure { scope := s }

/-- Cordon, for one Host. -/
def cordon (s : Scope) (name : String) : Code Scope :=
  match s.held.lookup name with
  | none => pure s
  | some h =>
    if h.cordoned = true ∨ s.isDesired name = true then pure s
    else do
      match ← ask (.cordonHost name (s.leaving name)) with
      | .error e => pure (s.fail ("cordoning Host " ++ name ++ " in battery: " ++ e.text))
      | .ok got => pure (s.hold name got)

/-- `Cordon`: every Host battery places on that it should no longer. -/
def Cordon.reconcile : SubReconciler Code Scope := fun s => do
  let s ← s.held.sortedKeys.foldlM cordon s
  pure { scope := s }

/-- The end of `register`: a cordoned Host is uncordoned. -/
def uncordon (s : Scope) (h : Host) (name : String) : Code (Scope × Option String) :=
  if h.cordoned then do
    match ← ask (.uncordonHost name) with
    | .error e => pure (s, some ("uncordoning Host " ++ name ++ " in battery: " ++ e.text))
    | .ok got => pure (s.hold name got, none)
  else pure (s, none)

/-- The middle of `register`: the Host battery holds is brought to the address and settings. -/
def bringInStep (s : Scope) (h want : Host) : Code (Scope × Option String) :=
  if h.address ≠ want.address ∨ h.tls ≠ tls then do
    match ← ask (.updateHost want false) with
    | .error e => pure (s, some ("updating Host " ++ want.name ++ " in battery: " ++ e.text))
    | .ok got => uncordon (s.hold want.name got) got want.name
  else uncordon s h want.name

/-- `register`: brings the Host into battery at the address. -/
def register (s : Scope) (name address : String) : Code (Scope × Option String) := do
  let want : Host := { name := name, address := address, tls := tls }
  match s.held.lookup name with
  | some h => bringInStep s h want
  | none =>
    match ← ask (.addHost want false) with
    | .ok got => bringInStep (s.hold name got) got want
    | .error e =>
      if e.kind = .alreadyExists then
        match ← ask (.getHost name) with
        | .error e =>
          pure (s, some ("reading Host " ++ name ++ ", which battery already holds: " ++ e.text))
        | .ok h => bringInStep (s.hold name h) h want
      else pure (s, some ("adding Host " ++ name ++ " to battery: " ++ e.text))

/-- Register, for one Host. -/
def registerNext (desired : Hosts) (s : Scope) (name : String) : Code Scope := do
  let (s, err) ← register s name (entry desired name)
  match err with
  | some err => pure (s.fail err)
  | none => pure s

/-- `Register`: every Host battery should place on. -/
def Register.reconcile : SubReconciler Code Scope := fun s => do
  let desired := s.desired.getD ∅
  let s ← desired.sortedKeys.foldlM (registerNext desired) s
  pure { scope := s }

/-- Secure, for one Host. -/
def secure (s : Scope) (name : String) : Code Scope :=
  match s.held.lookup name with
  | none => pure s
  | some h =>
    if s.isDesired name = true ∨ h.tls = tls then pure s
    else do
      match ← ask (.updateHost { name := name, address := h.address, tls := tls } true) with
      | .error e =>
        pure (if e.kind = .notFound then s
          else s.fail ("giving Host " ++ name ++ " its TLS settings in battery: " ++ e.text))
      | .ok got => pure (s.hold name got)

/-- `Secure`: every other Host battery holds gets the TLS settings. -/
def Secure.reconcile : SubReconciler Code Scope := fun s => do
  let s ← s.held.sortedKeys.foldlM secure s
  pure { scope := s }

/-- Remove, for one Host. -/
def remove (o : Options) (live : List String) (acc : Scope × Result) (name : String) :
    Code (Scope × Result) :=
  let (s, res) := acc
  match s.held.lookup name with
  | none => pure (s, res)
  | some h =>
    if name ∈ live ∨ h.cordoned = false ∨ s.isDesired name = true then pure (s, res)
    else do
      match ← ask (.removeHost name) with
      | .ok _ => pure (s.drop name, res)
      | .error e =>
        pure (if e.kind = .notFound then (s.drop name, res)
          else if e.kind = .failedPrecondition then
            (s, res.merge { requeueAfter := o.removeRetryOrDefault })
          else (s.fail ("removing Host " ++ name ++ " from battery: " ++ e.text), res))

/-- `Remove`: every Host whose Node is gone, once it is cordoned. -/
def Remove.reconcile (o : Options) : SubReconciler Code Scope := fun s => do
  let live := (s.nodes.filter fun n => !n.deleting).map Node.name
  let (s, res) ← s.held.sortedKeys.foldlM (remove o live) (s, {})
  pure { scope := s, result := res }

/-- Reload, for one Host; the flag says whether one failed. -/
def reload (acc : Scope × Bool) (name : String) : Code (Scope × Bool) :=
  let (s, failed) := acc
  match s.held.lookup name with
  | none => pure (s, failed)
  | some h =>
    if h.tls ≠ tls then pure (s, failed)
    else do
      match ← ask (.updateHost { name := name, address := h.address, tls := h.tls } true) with
      | .ok got => pure (s.hold name got, failed)
      | .error e =>
        pure (if e.kind = .notFound then (s.drop name, failed)
          else (s.fail ("reloading the client certificate for Host " ++ name ++ ": " ++ e.text),
            true))

/-- Reload, once the mounted certificate is the Secret's. -/
def reloadAll (s : Scope) (digest : String) : Code (Outcome Scope) := do
  let (s, failed) ← s.held.sortedKeys.foldlM reload (s, false)
  pure { scope := if failed then s else { s with state := { s.state with reloaded := digest } } }

/-- `Reload`: battery reads its client certificate again. -/
def Reload.reconcile (o : Options) (digest : Bytes → String) : SubReconciler Code Scope := fun s =>
  match s.clientCertificate with
  | none => pure { scope := s }
  | some cert =>
    if s.state.reloaded = digest cert then pure { scope := s }
    else do
      match ← ask .mountedCertificate with
      | .error (.other text) =>
        pure { scope := s.fail ("reading the mounted client certificate: " ++ text) }
      | .error .notExist =>
        pure { scope := s, result := { requeueAfter := o.mountPollOrDefault } }
      | .ok mounted =>
        if mounted = cert then reloadAll s (digest cert)
        else pure { scope := s, result := { requeueAfter := o.mountPollOrDefault } }

/-- `Publish`. -/
def Publish.reconcile : SubReconciler Code Scope := fun s => do
  publishPlaceable s
  pure { scope := s }

/-- `Report`: the reconcile fails with every Host's failure. -/
def Report.reconcile : SubReconciler Code Scope := fun s =>
  pure { scope := s, err := joinErrors s.errs }

/-! ## 4. The reconcile -/

/-- `InventoryReconciler`: its timings, the key of battery's client Secret, and the SHA-256 digest
    in hex. -/
structure InventoryReconciler where
  options : Options
  clientSecret : ObjectKey
  digest : Bytes → String

namespace InventoryReconciler

/-- `NewChain`. -/
def chain (r : InventoryReconciler) : Chain Code Scope where
  steps :=
    [Admit.reconcile, Settle.reconcile r.options, Withdraw.reconcile, Cordon.reconcile,
      Register.reconcile, Secure.reconcile, Remove.reconcile r.options,
      Reload.reconcile r.options r.digest]
  finally_ := [Publish.reconcile, Report.reconcile]

/-- `clientCertificate`: none when the Secret, or its certificate, is not there. -/
def clientCertificate (r : InventoryReconciler) : Code (Except String (Option Bytes)) := do
  match ← ask .getSecret with
  | .error e =>
    pure (if e.isNotFound then .ok none
      else .error ("reading Secret " ++ r.clientSecret.string ++ ": " ++ e.text))
  | .ok cert => pure (.ok (if cert = [] then none else some cert))

/-- battery's Hosts by name. -/
def byName (hosts : List Host) : Dict String Host :=
  hosts.foldl (fun held h => held.insert h.name h) ∅

/-- **`Reconcile`.** -/
def reconcile (r : InventoryReconciler) : Code (Result × Option String) := do
  match ← ask .listNodes with
  | .error e => pure ({}, some e.text)
  | .ok nodes =>
    match ← ask .listHosts with
    | .error e => pure ({}, some ("listing battery's Hosts: " ++ e.text))
    | .ok held =>
      match ← r.clientCertificate with
      | .error err => pure ({}, some err)
      | .ok cert => do
          let state ← ask .state
          let o ← r.chain.run
            { nodes := nodes, held := byName held, clientCertificate := cert, state := state }
          ask (.remember o.scope.state)
          pure ({ requeueAfter := o.result.requeueAfter }, o.err)

end InventoryReconciler

end BatteryOperator.Inventory
