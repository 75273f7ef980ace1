/-
  Subject:   The specification of the Claim Controller's threads: what a reconcile owes before each
             operation, and what the rest of the system may do to it meanwhile.

  * `CallOk`, `MetaOk`, `StatusOk`, `RecordOk` -- the duties before a call to battery, a metadata
    patch, a status patch and a `Record`. A status patch is one of four: it touches nothing but
    conditions (`TouchOk`), leaves the claim Pending (`PendingOk`), binds it (`BoundOk`), or keeps
    or expires its Lease (`HeldOk`);
  * `Rely` -- what happens to a reconcile between two of its operations: the history goes on, its
    claim is stored with the finalizer and the status it had if it had the finalizer, and nobody
    else leases or renews for it;
  * `claimSpec` -- the specification.
-/
import BatteryOperator.Claim.Preserve
import BatteryOperator.Lib.RelyGuarantee

namespace BatteryOperator

open Lib

/-! ## 1. Duties -/

/-- The Bound condition: its status and its reason. -/
def boundOf (conditions : List (Condition ClaimCondition)) : Option (ConditionStatus × String) :=
  (findStatusCondition conditions .bound).map fun c => (c.status, c.reason)

/-- Battery does not hold the Lease, or with an expiry that has passed. -/
def Over (s : Shared) (leaseID : String) : Prop :=
  ∀ l ∈ s.battery.leases, l.leaseID = leaseID → l.expiresAt ≤ s.now

/-- The claim is stored with the release finalizer and without a Lease. -/
def Awaiting (s : Shared) (k : ObjectKey) (uid : String) (pool : PoolRef) : Prop :=
  ∃ st, s.stored k = some st ∧ st.uid = uid ∧ st.hasRelease = true ∧ st.status.leaseID = "" ∧
    poolOf st = pool

/-- Before a call to battery for the claim of this uid. -/
def CallOk (s : Shared) (k : ObjectKey) (uid : String) : Call → Prop
  | .claimVM pool rid => rid = uid ∧ Awaiting s k uid pool
  | .heartbeat id =>
    ∃ v, Version s.claims k v ∧ v.uid = uid ∧ v.status.leaseID = id ∧ id ≠ "" ∧
      Kept s.claims k uid
  | .releaseVM id =>
    ∃ v, Version s.claims k v ∧ v.uid = uid ∧ v.status.leaseID = id ∧ id ≠ "" ∧
      v.deleting = true
  | .listLeases _ => True

/-- While a call is on its way: a ClaimVM, and only one, is outstanding for the claim. -/
def InFlight (s : Shared) (k : ObjectKey) : Call → Prop
  | .claimVM _ rid => s.binding k = some ⟨rid, none⟩
  | _ => s.binding k = none

/-- Before a metadata patch: it adds the release finalizer to a claim that is not being deleted,
    or takes it from one whose Lease has ended, which no copy left to be read shows otherwise. -/
structure MetaOk (s : Shared) (k : ObjectKey) (original object : MicroVMClaim) : Prop where
  version : Version s.claims k original
  binding : s.binding k = none
  change : (object = original.addFinalizer releaseFinalizer ∧ original.hasRelease = false ∧
      original.deleting = false) ∨
    (object = original.removeFinalizer releaseFinalizer ∧ original.deleting = true ∧
      (original.status.leaseID = "" ∨ Gone s.history original.status.leaseID) ∧
      ∀ v, some v ∈ (s.claims k).window → original.resourceVersion ≤ v.resourceVersion)

/-- A status that differs in conditions other than Bound only. -/
structure TouchOk (base : MicroVMClaim) (d : MicroVMClaimStatus) : Prop where
  status : d = { base.status with conditions := d.conditions }
  bound : boundOf d.conditions = boundOf base.status.conditions

/-- A claim without a Lease is left Pending. -/
structure PendingOk (s : Shared) (k : ObjectKey) (base : MicroVMClaim) (d : MicroVMClaimStatus) :
    Prop where
  unbound : base.status.leaseID = ""
  awaiting : Awaiting s k base.uid (poolOf base)
  status : d = { base.status with phase := .pending, conditions := d.conditions }
  bound : ∃ reason, boundOf d.conditions = some (.false, reason)

/-- Battery answered a ClaimVM of the claim with a Lease that the claim does not record yet. -/
structure Won (s : Shared) (k : ObjectKey) (base : MicroVMClaim) (claimed : Claim) : Prop where
  unbound : base.status.leaseID = ""
  awaiting : Awaiting s k base.uid (poolOf base)
  binding : s.binding k = some ⟨base.uid, some claimed⟩
  replied : Fact.replied base.uid claimed ∈ s.history
  leased : ∃ e, Fact.leased claimed.leaseID claimed.vmUID base.uid (poolOf base) e ∈ s.history
  newest : Newest s.history base.uid claimed.leaseID
  relayed : ∀ r, base.spec.renewTime = some r → Relayed s.history base.uid claimed.leaseID r

/-- The claim records the Lease battery answered with. -/
structure BoundOk (s : Shared) (k : ObjectKey) (base : MicroVMClaim) (d : MicroVMClaimStatus)
    (claimed : Claim) : Prop extends Won s k base claimed where
  status : ∃ now, d = { boundStatus base claimed base.spec.renewTime now with
    conditions := d.conditions }
  bound : boundOf d.conditions = some (.true, reasonBound)

/-- A Bound claim keeps its Lease, or is expired: battery holds the Lease no more, or with an
    expiry that has passed and with no renewal pending on the copy. -/
structure HeldOk (s : Shared) (k : ObjectKey) (base : MicroVMClaim) (d : MicroVMClaimStatus) :
    Prop where
  holds : holdsLease base = true
  kept : Kept s.claims k base.uid
  leaseID : d.leaseID = base.status.leaseID
  microVM : d.microVM = base.status.microVM
  nodeName : d.nodeName = base.status.nodeName
  boundTime : d.boundTime = base.status.boundTime
  expiry : d.leaseExpiresAt = base.status.leaseExpiresAt ∨
    ∃ e, d.leaseExpiresAt = some e ∧ Published s.history base.status.leaseID e
  observed : d.observedRenewTime = base.status.observedRenewTime ∨
    (d.observedRenewTime = base.spec.renewTime ∧
      ∀ r, d.observedRenewTime = some r → Relayed s.history base.uid base.status.leaseID r)
  phase : (d.phase = .bound ∧ boundOf d.conditions = boundOf base.status.conditions) ∨
    (d.phase = .expired ∧ boundOf d.conditions = some (.false, reasonLeaseExpired) ∧
      (Gone s.history base.status.leaseID ∨
        (Over s base.status.leaseID ∧ d.observedRenewTime = base.spec.renewTime)))

/-- Before a status patch. -/
structure StatusOk (s : Shared) (k : ObjectKey) (base object : MicroVMClaim) : Prop where
  version : Version s.claims k base
  change : (s.binding k = none ∧ (TouchOk base object.status ∨ PendingOk s k base object.status ∨
      HeldOk s k base object.status)) ∨
    ∃ claimed, BoundOk s k base object.status claimed

/-- Before a `Record`: a Lease that was recorded and is not listed has ended, and a listed expiry
    is one battery set. -/
def RecordOk (h : List Fact) (recorded : List String) (listed : List LeaseRecord) : Prop :=
  ∀ id ∈ recorded,
    (RecoveredLeases.byID listed id = none → Gone h id) ∧
      ∀ rec, RecoveredLeases.byID listed id = some rec → Published h id rec.expiresAt

/-- Before the log line of `expire`: an expiry from memory is of a recorded Lease that has ended. -/
def LogOk (s : Shared) (uid leaseID : String) (why : Why) : Prop :=
  why.fromMemory = true → Gone s.history leaseID ∧
    ∃ k v, Version s.claims k v ∧ v.uid = uid ∧ v.status.leaseID = leaseID

/-- **What a thread owes before an operation.** -/
def Pre : Thread → Op → Shared → Prop
  | .claim k, .send uid call, s => CallOk s k uid call ∧ s.binding k = none
  | .claim k, .receive uid call, s =>
    CallOk s k uid call ∧ Fact.sent uid call ∈ s.history ∧ InFlight s k call
  | .claim k, .patchMeta original object, s => MetaOk s k original object
  | .claim k, .patchStatus base object, s => StatusOk s k base object
  | .recovery, .send _ call, _ => ∃ pool, call = .listLeases pool
  | .recovery, .receive _ call, _ => ∃ pool, call = .listLeases pool
  | .recovery, .patchMeta _ _, _ => False
  | .recovery, .patchStatus _ _, _ => False
  | _, .record recorded listed, s => RecordOk s.history recorded listed
  | _, .logExpired uid id why, s => LogOk s uid id why
  | _, _, _ => True

/-! ## 2. Interference -/

/-- The claim under `k` moves on: no version is forgotten, a copy that can newly be read is new,
    and a claim with the release finalizer stays stored with it and its status. -/
structure Calm (k : ObjectKey) (s s' : Shared) : Prop where
  versions : ∀ v, Version s.claims k v → Version s'.claims k v
  revision : s.revision ≤ s'.revision
  window : ∀ v, some v ∈ (s'.claims k).window →
    some v ∈ (s.claims k).window ∨ s.revision < v.resourceVersion
  kept : ∀ st, s.stored k = some st → st.hasRelease = true →
    ∃ st', s'.stored k = some st' ∧ st'.uid = st.uid ∧ st'.hasRelease = true ∧
      st'.status = st.status ∧ poolOf st' = poolOf st

/-- What the others leave of a reconcile of the claim under `k`. -/
structure OwnRely (k : ObjectKey) (s s' : Shared) : Prop extends Calm k s s' where
  binding : s'.binding k = s.binding k
  leases : ∀ l' ∈ s'.battery.leases, Fact.created k l'.requestID ∈ s.history →
    ∃ l ∈ s.battery.leases, l.leaseID = l'.leaseID ∧ l.requestID = l'.requestID ∧
      l.expiresAt = l'.expiresAt
  leased : ∀ id vm uid p e, Fact.created k uid ∈ s.history →
    Fact.leased id vm uid p e ∈ s'.history → Fact.leased id vm uid p e ∈ s.history

/-- **What happens to a thread between two of its operations.** -/
structure Rely (t : Thread) (s s' : Shared) : Prop where
  history : s.history <:+ s'.history
  now : s.now ≤ s'.now
  own : ∀ k, t = .claim k → OwnRely k s s'

/-- A claim that is not being reconciled has no ClaimVM in flight or unwritten. -/
def Idle : Thread → Shared → Prop
  | .claim k, s => s.binding k = none
  | .recovery, _ => True

/-- **The specification.** -/
def claimSpec : Spec Thread Op Shared := ⟨Inv, Pre, Rely, Idle⟩

theorem Calm.refl (k : ObjectKey) (s : Shared) : Calm k s s :=
  ⟨fun _ hv => hv, Nat.le_refl _, fun _ hv => .inl hv,
    fun st hst hr => ⟨st, hst, rfl, hr, rfl, rfl⟩⟩

theorem Calm.trans {k : ObjectKey} {a b c : Shared} (h1 : Calm k a b) (h2 : Calm k b c) :
    Calm k a c where
  versions v hv := h2.versions v (h1.versions v hv)
  revision := Nat.le_trans h1.revision h2.revision
  window v hv := by
    rcases h2.window v hv with hw | hlt
    · exact h1.window v hw
    · exact .inr (Nat.lt_of_le_of_lt h1.revision hlt)
  kept st hst hr := by
    obtain ⟨st1, hst1, hu1, hr1, hs1, hp1⟩ := h1.kept st hst hr
    obtain ⟨st2, hst2, hu2, hr2, hs2, hp2⟩ := h2.kept st1 hst1 hr1
    exact ⟨st2, hst2, hu2.trans hu1, hr2, hs2.trans hs1, hp2.trans hp1⟩

theorem Rely.refl (t : Thread) (s : Shared) : Rely t s s :=
  ⟨List.suffix_refl _, Int.le_refl _, fun k _ =>
    { Calm.refl k s with
      binding := rfl
      leases := fun l hl _ => ⟨l, hl, rfl, rfl, rfl⟩
      leased := fun _ _ _ _ _ _ hm => hm }⟩

theorem Rely.trans {t : Thread} {a b c : Shared} (h1 : Rely t a b) (h2 : Rely t b c) :
    Rely t a c := by
  refine ⟨h1.history.trans h2.history, Int.le_trans h1.now h2.now, fun k hk => ?_⟩
  have o1 := h1.own k hk
  have o2 := h2.own k hk
  refine { o1.toCalm.trans o2.toCalm with
    binding := o2.binding.trans o1.binding
    leases := fun l'' hl'' hc => ?_
    leased := fun id vm uid p e hc hm =>
      o1.leased id vm uid p e hc (o2.leased id vm uid p e (h1.history.mem hc) hm) }
  obtain ⟨l', hl', hid, hrid, he⟩ := o2.leases l'' hl'' (h1.history.mem hc)
  rw [← hrid] at hc
  obtain ⟨l, hl, hid', hrid', he'⟩ := o1.leases l' hl' hc
  exact ⟨l, hl, hid'.trans hid, hrid'.trans hrid, he'.trans he⟩

end BatteryOperator
