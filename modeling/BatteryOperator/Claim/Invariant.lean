/-
  Subject:   What holds in every state of the machine, whatever the schedule.

  * `StoreInv` -- of the versions of one claim object, a later one keeps what an earlier one
    recorded (`Keeps`), and each version has either no Lease at all (`Unbound`) or one that battery
    answered a ClaimVM for it with (`Recorded`);
  * `OwnedInv` -- a claim with a recorded Lease is stored with the release finalizer until the
    Lease has ended, and so is a claim with a ClaimVM in flight or not yet written;
  * `MemoryInv` -- what the Operator remembers of Leases and MicroVMs is true;
  * `Inv` -- all of it, with battery's `Ledger`.
-/
import BatteryOperator.Claim.System
import BatteryOperator.Ledger

namespace BatteryOperator

open Lib

/-! ## 1. Versions of a claim -/

/-- The node name of a status. -/
def MicroVMClaimStatus.nodeName (st : MicroVMClaimStatus) : Option String :=
  st.host.map HostReference.nodeName

/-- What a later version of one claim object keeps of an earlier one. -/
structure Keeps (old new : MicroVMClaim) : Prop where
  deleting : old.deleting = true → new.deleting = true
  pool : poolOf new = poolOf old
  lease : old.status.leaseID ≠ "" →
    new.status.leaseID = old.status.leaseID ∧ new.status.microVM = old.status.microVM ∧
      new.status.nodeName = old.status.nodeName
  expired : old.status.phase = .expired → new.status.phase = .expired

theorem Keeps.trans {a b c : MicroVMClaim} (h1 : Keeps a b) (h2 : Keeps b c) : Keeps a c where
  deleting h := h2.deleting (h1.deleting h)
  pool := h2.pool.trans h1.pool
  lease h := by
    obtain ⟨hl, hm, hn⟩ := h1.lease h
    obtain ⟨hl', hm', hn'⟩ := h2.lease (by rw [hl]; exact h)
    exact ⟨hl'.trans hl, hm'.trans hm, hn'.trans hn⟩
  expired h := h2.expired (h1.expired h)

/-- The order of the versions under one key: resourceVersions grow, and a later version of one
    object keeps what it must. -/
def Newer (a b : Option MicroVMClaim) : Prop :=
  ∀ new old, a = some new → b = some old →
    old.resourceVersion < new.resourceVersion ∧ (old.uid = new.uid → Keeps old new)

/-- A status without a Lease. -/
structure Unbound (st : MicroVMClaimStatus) : Prop where
  phase : st.phase = .empty ∨ st.phase = .pending
  leaseID : st.leaseID = ""
  microVM : st.microVM = none
  host : st.host = none
  boundTime : st.boundTime = none
  leaseExpiresAt : st.leaseExpiresAt = none
  observedRenewTime : st.observedRenewTime = none

/-- The Holder wrote `r`, and after that battery created the Lease, renewed it, or answered a
    ClaimVM with it again. -/
def Relayed (h : List Fact) (uid leaseID : String) (r : MicroTime) : Prop :=
  (∃ vm p e, Precedes (.wrote uid r) (.leased leaseID vm uid p e) h) ∨
    (∃ e, Precedes (.wrote uid r) (.renewed leaseID e) h) ∨
    Precedes (.wrote uid r) (.replayed uid leaseID) h

variable {h h' : List Fact} {uid : String} {v : MicroVMClaim}

theorem Relayed.mono {id : String} {r : MicroTime} (hr : Relayed h uid id r) (hle : h <:+ h') :
    Relayed h' uid id r := by
  rcases hr with ⟨vm, p, e, hp⟩ | ⟨e, hp⟩ | hp
  · exact .inl ⟨vm, p, e, hp.mono hle⟩
  · exact .inr (.inl ⟨e, hp.mono hle⟩)
  · exact .inr (.inr (hp.mono hle))

/-- The status names the Lease, the MicroVM and the Host of one answer to a ClaimVM sent with the
    claim's uid. -/
def Answered (h : List Fact) (uid : String) (pool : PoolRef) (st : MicroVMClaimStatus) : Prop :=
  ∃ c e, Fact.replied uid c ∈ h ∧ Fact.leased c.leaseID c.vmUID uid pool e ∈ h ∧
    st.leaseID = c.leaseID ∧ st.microVM = some ⟨c.vmUID⟩ ∧ st.nodeName = some c.host.name

/-- A status with a Lease, of the claim with this uid and Pool. -/
structure Recorded (h : List Fact) (uid : String) (pool : PoolRef) (st : MicroVMClaimStatus) :
    Prop where
  phase : st.phase = .bound ∨ st.phase = .expired
  answered : Answered h uid pool st
  boundTime : st.boundTime.isSome = true
  expiry : ∀ e, st.leaseExpiresAt = some e →
    ∃ e', e = truncSecond e' ∧ Published h st.leaseID e'
  observed : ∀ r, st.observedRenewTime = some r → Relayed h uid st.leaseID r

theorem Answered.mono {pool : PoolRef} {st : MicroVMClaimStatus} (ha : Answered h uid pool st)
    (hle : h <:+ h') : Answered h' uid pool st := by
  obtain ⟨c, e, hr, hl, hrest⟩ := ha
  exact ⟨c, e, hle.mem hr, hle.mem hl, hrest⟩

theorem Recorded.mono {pool : PoolRef} {st : MicroVMClaimStatus} (hr : Recorded h uid pool st)
    (hle : h <:+ h') : Recorded h' uid pool st :=
  { hr with
    answered := hr.answered.mono hle
    expiry e he := by
      obtain ⟨e', heq, hp⟩ := hr.expiry e he
      exact ⟨e', heq, hp.mono hle⟩
    observed r he := (hr.observed r he).mono hle }

/-- What holds of every version. -/
structure VersionOk (h : List Fact) (v : MicroVMClaim) : Prop where
  status : Unbound v.status ∨ v.status.leaseID ≠ "" ∧ Recorded h v.uid (poolOf v) v.status
  renewTime : ∀ r, v.spec.renewTime = some r → Fact.wrote v.uid r ∈ h

theorem VersionOk.mono (hv : VersionOk h v) (hle : h <:+ h') : VersionOk h' v where
  status := by
    rcases hv.status with hu | ⟨hne, hr⟩
    · exact .inl hu
    · exact .inr ⟨hne, hr.mono hle⟩
  renewTime r hr := hle.mem (hv.renewTime r hr)

theorem VersionOk.unbound (hv : VersionOk h v) (he : v.status.leaseID = "") : Unbound v.status := by
  rcases hv.status with hu | ⟨hne, _⟩
  · exact hu
  · exact absurd he hne

theorem VersionOk.recorded (hv : VersionOk h v) (hne : v.status.leaseID ≠ "") :
    Recorded h v.uid (poolOf v) v.status := by
  rcases hv.status with hu | ⟨_, hr⟩
  · exact absurd hu.leaseID hne
  · exact hr

/-! ## 2. The store -/

abbrev ClaimStore := ObjectKey → Register (Option MicroVMClaim)

/-- A version of the claim under this key. -/
def Version (claims : ClaimStore) (k : ObjectKey) (v : MicroVMClaim) : Prop :=
  some v ∈ (claims k).versions

/-- **The versions the API server stored.** -/
structure StoreInv (claims : ClaimStore) (revision : Nat) (h : List Fact) : Prop where
  order : ∀ k, (claims k).versions.Pairwise Newer
  revision : ∀ k v, Version claims k v → v.resourceVersion ≤ revision
  key : ∀ k v, Version claims k v → v.key = k
  created : ∀ k v, Version claims k v → Fact.created k v.uid ∈ h
  named : ∀ k uid, Fact.created k uid ∈ h → uid ≠ ""
  once : ∀ k k' uid, Fact.created k uid ∈ h → Fact.created k' uid ∈ h → k = k'
  ok : ∀ k v, Version claims k v → VersionOk h v

/-- The claim of this uid is stored with the release finalizer. -/
def Kept (claims : ClaimStore) (k : ObjectKey) (uid : String) : Prop :=
  ∃ st, (claims k).current = some st ∧ st.uid = uid ∧ st.hasRelease = true

/-- Every other Lease created for the uid ended before this one was created. -/
def Newest (h : List Fact) (uid leaseID : String) : Prop :=
  ∀ id vm p e, Fact.leased id vm uid p e ∈ h → id ≠ leaseID →
    ∃ at_ cause vm' p' e', Precedes (.ended id at_ cause) (.leased leaseID vm' uid p' e') h

/-- **A claim is kept as long as it may own a Lease.** -/
structure OwnedInv (claims : ClaimStore) (binding : ObjectKey → Option Binding)
    (h : List Fact) : Prop where
  window : ∀ k v, some v ∈ (claims k).window → v.hasRelease = true → v.deleting = false →
    Kept claims k v.uid
  recorded : ∀ k v, Version claims k v → v.status.leaseID ≠ "" →
    Kept claims k v.uid ∨ Gone h v.status.leaseID
  binding : ∀ k b, binding k = some b →
    ∃ st, (claims k).current = some st ∧ st.uid = b.requestID ∧ st.hasRelease = true ∧
      st.status.leaseID = ""
  newest : ∀ k v, Version claims k v → v.status.leaseID ≠ "" → Newest h v.uid v.status.leaseID

/-- **What the Operator remembers is true.** -/
structure MemoryInv (b : Battery) (deleted : DeletedVMs) (recovered : RecoveredLeases)
    (h : List Fact) : Prop where
  deleted : ∀ uid, deleted.has uid = true →
    ∃ ev ∈ b.outbox, reportsDeletion ev = true ∧ ev.vmUID = uid
  unlisted : ∀ id, (id, none) ∈ recovered.leases → Gone h id
  listed : ∀ id rec, (id, some rec) ∈ recovered.leases → Published h id rec.expiresAt

/-- The steps that expire a claim from memory. -/
def Why.fromMemory : Why → Bool
  | .deletedVM _ => true
  | .recovered _ => true
  | _ => false

/-- A claim that was expired from memory records a Lease that has ended. -/
def ExpiredInv (claims : ClaimStore) (h : List Fact) : Prop :=
  ∀ uid id why, Fact.expired uid id why ∈ h → why.fromMemory = true →
    Gone h id ∧ ∃ k v, Version claims k v ∧ v.uid = uid ∧ v.status.leaseID = id

/-- **The invariant.** -/
structure Inv (s : Shared) : Prop where
  ledger : Ledger s.battery s.history
  store : StoreInv s.claims s.revision s.history
  owned : OwnedInv s.claims s.binding s.history
  memory : MemoryInv s.battery s.deleted s.recovered s.history
  expired : ExpiredInv s.claims s.history

end BatteryOperator
