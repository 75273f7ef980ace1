/-
  Subject:   The Claim Controller (internal/controller/microvmclaim_controller.go), its recovery
             (internal/controller/microvmclaim_recovery.go), and what they keep in memory: the
             MicroVMs reported deleted (internal/controller/claim/deleted.go) and what the last
             recovery learnt (internal/controller/claim/recover.go). A map is the list of its
             entries.

  Left out: the work queue and the watches that fill it. A reconcile of any claim and a recovery
  may start at any time.
-/
import BatteryOperator.Claim.Steps

namespace BatteryOperator

open Lib

/-! ## 1. The memory -/

/-- `DeletedVMs`. -/
structure DeletedVMs where
  retention : Duration := 0
  seen : List (String × Time) := []

namespace DeletedVMs

/-- How long an entry is kept; zero is an hour. -/
def keep (d : DeletedVMs) : Duration := if d.retention ≤ 0 then 3600 * second else d.retention

/-- `DeletedVMs.Add`: entries past their time go, and the uid is seen now. -/
def add (d : DeletedVMs) (now : Time) (uid : String) : DeletedVMs :=
  { d with
    seen := (uid, now) ::
      (d.seen.filter fun e => ¬ (d.keep < now - e.2)).filter fun e => e.1 ≠ uid }

/-- `DeletedVMs.Has`. -/
def has (d : DeletedVMs) (uid : String) : Bool := d.seen.any fun e => e.1 = uid

theorem has_add {d : DeletedVMs} {now : Time} {uid uid' : String}
    (h : (d.add now uid).has uid' = true) : uid' = uid ∨ d.has uid' = true := by
  unfold has add at h
  simp only [List.any_cons, Bool.or_eq_true, decide_eq_true_eq, List.any_eq_true,
    List.mem_filter] at h
  rcases h with h | ⟨e, ⟨⟨he, _⟩, _⟩, heq⟩
  · exact .inl h.symm
  · refine .inr ?_
    unfold has
    exact List.any_eq_true.mpr ⟨e, he, decide_eq_true heq⟩

end DeletedVMs

/-- `RecoveredLeases`: a lease id maps to battery's record, or to none when battery did not list
    it. -/
structure RecoveredLeases where
  leases : List (String × Option LeaseRecord) := []

namespace RecoveredLeases

/-- `byID[id]`: the last record listed under the id. -/
def byID (listed : List LeaseRecord) (id : String) : Option LeaseRecord :=
  listed.reverse.find? fun l => l.leaseID = id

/-- `RecoveredLeases.Record`. -/
def record (recorded : List String) (listed : List LeaseRecord) : RecoveredLeases :=
  ⟨recorded.map fun id => (id, byID listed id)⟩

/-- `r.leases[id]`, if the map has it. -/
def get (r : RecoveredLeases) (id : String) : Option (Option LeaseRecord) :=
  (r.leases.find? fun e => e.1 = id).map Prod.snd

/-- `RecoveredLeases.lookup`: a record battery listed is handed out once. -/
def lookup (r : RecoveredLeases) (id : String) : Option (Option LeaseRecord) × RecoveredLeases :=
  match r.get id with
  | some (some rec) => (some (some rec), ⟨r.leases.filter fun e => e.1 ≠ id⟩)
  | answer => (answer, r)

variable {listed : List LeaseRecord} {id : String}

theorem byID_some {rec : LeaseRecord} (h : byID listed id = some rec) :
    rec ∈ listed ∧ rec.leaseID = id := by
  refine ⟨?_, by simpa using List.find?_some h⟩
  exact List.mem_reverse.mp (List.mem_of_find?_eq_some h)

theorem byID_none (h : byID listed id = none) : ∀ rec ∈ listed, rec.leaseID ≠ id := by
  intro rec hrec he
  have := List.find?_eq_none.mp h rec (List.mem_reverse.mpr hrec)
  simp [he] at this

theorem mem_record {recorded : List String} {e : String × Option LeaseRecord}
    (h : e ∈ (record recorded listed).leases) : e.1 ∈ recorded ∧ e.2 = byID listed e.1 := by
  obtain ⟨id, hid, rfl⟩ := List.mem_map.mp h
  exact ⟨hid, rfl⟩

theorem get_mem {r : RecoveredLeases} {rec : Option LeaseRecord} (h : r.get id = some rec) :
    (id, rec) ∈ r.leases := by
  obtain ⟨e, he, rfl⟩ := Option.map_eq_some_iff.mp h
  have hid : e.1 = id := by simpa using List.find?_some he
  subst hid
  exact List.mem_of_find?_eq_some he

/-- What `lookup` hands out was in the memory, and what it leaves was too. -/
theorem lookup_mem {r r' : RecoveredLeases} {a : Option (Option LeaseRecord)}
    (h : r.lookup id = (a, r')) :
    (∀ rec, a = some rec → (id, rec) ∈ r.leases) ∧ ∀ e ∈ r'.leases, e ∈ r.leases := by
  unfold lookup at h
  split at h
  next rec hl =>
    cases h
    refine ⟨fun rec' heq => ?_, fun e he => (List.mem_filter.mp he).1⟩
    cases heq
    exact get_mem hl
  next answer hn =>
    cases h
    exact ⟨fun rec' heq => get_mem heq, fun e he => he⟩

end RecoveredLeases

/-! ## 2. The controller -/

/-- `MicroVMClaimReconciler`: its `Backoff`, and how many ClaimVM calls its `slots` let be in
    flight, one fewer than its concurrent reconciles. -/
structure MicroVMClaimReconciler where
  backoff : Backoff := ⟨0, 0⟩
  slots : Option Nat := some 3

namespace MicroVMClaimReconciler

/-- `chain`: the subreconcilers, in the order they run. -/
def chain (r : MicroVMClaimReconciler) : Chain Code Scope :=
  let backoff := if r.backoff = ⟨0, 0⟩ then defaultBackoff else r.backoff
  { steps := [
      Release.reconcile ⟨backoff⟩,
      EnsureFinalizer.reconcile,
      Bind.reconcile { slots := r.slots },
      Pending.reconcile ⟨backoff⟩,
      ExpireDeleted.reconcile,
      Recover.reconcile,
      Renew.reconcile ⟨backoff⟩,
      CheckExpiry.reconcile ⟨backoff⟩,
      AgentAddress.reconcile,
      HostReady.reconcile]
    finally_ := [Synced.reconcile] }

/-- `Reconcile` of a claim that was read. The patch runs even when the chain failed. -/
def reconcileClaim (r : MicroVMClaimReconciler) (c : MicroVMClaim) :
    Code (Result × Option String) := do
  let o ← r.chain.run (Scope.new c)
  let perr ← o.scope.patch
  match joinErrors (o.err.toList ++ perr.toList) with
  | some err => pure ({}, some err)
  | none => pure ({ requeueAfter := o.result.requeueAfter }, none)

/-- `Reconcile`. -/
def reconcile (r : MicroVMClaimReconciler) (req : ObjectKey) :
    Code (Result × Option String) := do
  match ← ask (.cacheGet req) with
  | .error e => pure ({}, if e.isNotFound then none else some e.text)
  | .ok c => r.reconcileClaim c

end MicroVMClaimReconciler

/-- `claimRecovery.run`: the claims that hold a Lease, then every Lease, then what battery said of
    each. Its requests for reconciles go to the work queue. -/
def claimRecovery.run : Code (Option String) := do
  match ← ask .cacheList with
  | .error e => pure (some ("listing MicroVMClaims: " ++ e.text))
  | .ok claims => do
      let bound := claims.filter holdsLease
      let recorded := bound.map fun c => c.status.leaseID
      match ← callBattery "" (.listLeases none) with
      | .error e => pure (some ("listing battery's Leases: " ++ e.text))
      | .ok leases => do
          ask (.record recorded leases)
          pure none

end BatteryOperator
