/-
  Subject:   battery's Hosts, the published HostSet (internal/controller/inventory/hostset.go) and
             the Inventory Controller as one machine.

  battery's Hosts are as docs/requirements/10-battery.md#hosts and internal/fakebattery/hostadmin.go
  have them: a Host is stored under its name, never without an address, uncordoned at first; its
  cordon state outlasts an update. A call may fail with any error, before or after battery acted.
  Nobody but the Operator changes the Hosts; one reconcile runs at a time.
-/
import BatteryOperator.Inventory.Controller
import BatteryOperator.Text

namespace BatteryOperator.Inventory

open Lib

/-! ## 1. battery's Hosts -/

/-- battery's Hosts by name. -/
structure HostTable where
  entries : Dict String Host
  /-- A Host is stored under its name, and has an address. -/
  valid : ∀ n h, entries.lookup n = some h → h.name = n ∧ h.address ≠ ""

namespace HostTable

/-- No Hosts. -/
def empty : HostTable := ⟨∅, nofun⟩

/-- The Host of that name. -/
def find (t : HostTable) (name : String) : Option Host := t.entries.lookup name

/-- The Host stored under its name. -/
def put (t : HostTable) (h : Host) (ha : h.address ≠ "") : HostTable where
  entries := t.entries.insert h.name h
  valid n h' hl := by
    rw [Dict.lookup_insert_eq] at hl
    split at hl
    next hn =>
      cases hl
      exact ⟨hn.symm, ha⟩
    · exact t.valid n h' hl

/-- The Host of that name removed. -/
def erase (t : HostTable) (name : String) : HostTable where
  entries := t.entries.erase name
  valid n h hl := by
    rw [Dict.lookup_erase_eq] at hl
    split at hl
    · cases hl
    · exact t.valid n h hl

theorem find_put (t : HostTable) (h : Host) (ha : h.address ≠ "") (n : String) :
    (t.put h ha).find n = if n = h.name then some h else t.find n :=
  Dict.lookup_insert_eq t.entries h.name n h

theorem find_erase (t : HostTable) (name n : String) :
    (t.erase name).find n = if n = name then none else t.find n :=
  Dict.lookup_erase_eq t.entries name n

theorem find_name {t : HostTable} {n : String} {h : Host} (hf : t.find n = some h) : h.name = n :=
  (t.valid n h hf).1

theorem find_address {t : HostTable} {n : String} {h : Host} (hf : t.find n = some h) :
    h.address ≠ "" := (t.valid n h hf).2

/-- ListHosts. -/
def list (t : HostTable) : List Host := t.entries.entries.map Sigma.snd

def invalid (text : String) : BatteryError := ⟨.invalid, text⟩

def notHeld (name : String) : BatteryError := ⟨.notFound, "host " ++ quote name ++ " not found"⟩

/-- GetHost. -/
def getHost (t : HostTable) (name : String) : Except BatteryError Host :=
  match t.find name with
  | none => .error (notHeld name)
  | some h => .ok h

/-- AddHost: a Host battery holds stays as it is; a new one is stored uncordoned. -/
def addHost (t : HostTable) (host : Host) : Except BatteryError Host × HostTable :=
  if host.name = "" then (.error (invalid "host.name is required"), t)
  else if ha : host.address = "" then
    (.error (invalid ("host " ++ quote host.name ++ ": address is required")), t)
  else
    match t.find host.name with
    | some _ => (.error ⟨.alreadyExists, "host " ++ quote host.name ++ " already exists"⟩, t)
    | none =>
      let h := { host with cordoned := false, cordonedReason := "" }
      (.ok h, t.put h ha)

/-- UpdateHost: the Host's address and TLS settings are replaced, its cordon state is kept. -/
def updateHost (t : HostTable) (host : Host) : Except BatteryError Host × HostTable :=
  match t.find host.name with
  | none => (.error (notHeld host.name), t)
  | some old =>
    if ha : host.address = "" then
      (.error (invalid ("host " ++ quote host.name ++ ": address is required")), t)
    else
      let h := { host with cordoned := old.cordoned, cordonedReason := old.cordonedReason }
      (.ok h, t.put h ha)

/-- RemoveHost. -/
def removeHost (t : HostTable) (name : String) : Except BatteryError Unit × HostTable :=
  match t.find name with
  | none => (.error (notHeld name), t)
  | some _ => (.ok (), t.erase name)

/-- CordonHost and UncordonHost. -/
def setCordoned (t : HostTable) (name : String) (cordoned : Bool) (reason : String) :
    Except BatteryError Host × HostTable :=
  match hf : t.find name with
  | none => (.error ⟨.failedPrecondition, "host " ++ quote name ++ " is not registered"⟩, t)
  | some old =>
    let h := { old with cordoned := cordoned, cordonedReason := reason }
    (.ok h, t.put h (find_address (h := old) hf))

end HostTable

/-! ## 2. The HostSet -/

/-- `HostSet`: what the Pool Controller reads. -/
structure HostSet where
  hosts : Hosts := ∅
  synced : Bool := false

/-- `publish`: nothing happens where the Hosts are the published ones. -/
def HostSet.publish (s : HostSet) (hosts : Hosts) : HostSet :=
  if s.synced = true ∧ s.hosts.same hosts = true then s else { hosts := hosts, synced := true }

theorem HostSet.lookup_publish (s : HostSet) (hosts : Hosts) (n : String) :
    (s.publish hosts).hosts.lookup n = hosts.lookup n := by
  unfold publish
  split
  next h => exact Dict.same_iff.mp h.2 n
  · rfl

/-! ## 3. The machine -/

/-- The Nodes in the cache, the Secret and its mount, the time, battery's Hosts and the Operator's
    memory. -/
structure Shared where
  nodes : List Node
  secret : Except ApiError Bytes
  mounted : Except MountError Bytes
  now : Time
  hosts : HostTable
  hostSet : HostSet
  state : State

/-- How a call ends: answered, or failed after or before it took effect. -/
inductive Choice where
  | ok
  | fail (applied : Bool) (e : BatteryError)

/-- A call of battery that may change its Hosts. -/
def Choice.call {α : Type} (served : Except BatteryError α × HostTable) (s : Shared) :
    Choice → Except BatteryError α × Shared
  | .ok => (served.1, { s with hosts := served.2 })
  | .fail true e => (.error e, { s with hosts := served.2 })
  | .fail false e => (.error e, s)

/-- A read of battery's Hosts. -/
def Choice.read {α : Type} (value : Except BatteryError α) : Choice → Except BatteryError α
  | .ok => value
  | .fail _ e => .error e

/-- A read of the API server. -/
def Choice.apiRead {α : Type} (value : Except ApiError α) : Choice → Except ApiError α
  | .ok => value
  | .fail _ e => .error ⟨.other, e.text⟩

/-- **One operation of the reconcile.** -/
def exec (f : Choice) : (o : Op) → Shared → o.Ans × Shared
  | .listNodes, s => (f.apiRead (.ok s.nodes), s)
  | .listHosts, s => (f.read (.ok s.hosts.list), s)
  | .getSecret, s => (f.apiRead s.secret, s)
  | .mountedCertificate, s => (s.mounted, s)
  | .now, s => (s.now, s)
  | .addHost host _, s => f.call (s.hosts.addHost host) s
  | .getHost name, s => (f.read (s.hosts.getHost name), s)
  | .updateHost host _, s => f.call (s.hosts.updateHost host) s
  | .removeHost name, s => f.call (s.hosts.removeHost name) s
  | .cordonHost name reason, s => f.call (s.hosts.setCordoned name true reason) s
  | .uncordonHost name, s => f.call (s.hosts.setCordoned name false "") s
  | .publish hosts, s => ((), { s with hostSet := s.hostSet.publish hosts })
  | .state, s => (s.state, s)
  | .remember state, s => ((), { s with state := state })

/-- What happens without the Operator. -/
inductive EnvAct where
  | setNodes (nodes : List Node)
  | setSecret (secret : Except ApiError Bytes)
  | setMounted (mounted : Except MountError Bytes)
  /-- Time passes. -/
  | tick (nanoseconds : Nat)

def env : EnvAct → Shared → Shared
  | .setNodes nodes, s => { s with nodes := nodes }
  | .setSecret secret, s => { s with secret := secret }
  | .setMounted mounted, s => { s with mounted := mounted }
  | .tick n, s => { s with now := s.now + n }

/-- **The machine.** A crash of the Operator leaves nothing published and nothing remembered. -/
def machine (r : InventoryReconciler) : Machine Unit Choice EnvAct Op Op.Ans Shared where
  exec _ f o s := some (exec f o s)
  env a s := some (env a s)
  prog _ := do
    let _ ← r.reconcile
    pure ()
  crash s := { s with hostSet := {}, state := {} }

abbrev InventoryWorld := World Unit Op Op.Ans Shared

/-- An Operator that has just started; battery's Hosts are arbitrary. -/
structure Start (w : InventoryWorld) : Prop where
  hostSet : w.shared.hostSet = {}
  running : w.running () = none

/-- **The worlds reached.** -/
def Reachable (r : InventoryReconciler) (w : InventoryWorld) : Prop :=
  ∃ w0, Start w0 ∧ (machine r).Run (fun _ _ => True) w0 w

end BatteryOperator.Inventory
