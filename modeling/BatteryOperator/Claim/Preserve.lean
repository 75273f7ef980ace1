/-
  Subject:   How the invariant moves with the two parts of the state: a new version of a claim, and
             a longer history with battery's new Leases.

  * `StoreInv.keeps`, `StoreInv.eq_of_version` -- what the stored claim has of an older version;
  * `Inv.store` -- **a new version**, under the duties of whoever writes it; `Inv.touch` and
    `Inv.vanish` are its two common cases;
  * `Inv.extend` -- **a longer history**, which records no Lease for a claim that has one.
-/
import BatteryOperator.Claim.Invariant

namespace BatteryOperator

open Lib

/-! ## 1. Pushing a version -/

section Push

variable {claims : ClaimStore} {k k' : ObjectKey} {c : Option MicroVMClaim} {v : MicroVMClaim}

/-- The store after a new version of the claim under `k`. -/
def pushClaim (claims : ClaimStore) (k : ObjectKey) (c : Option MicroVMClaim) : ClaimStore :=
  Function.update claims k ((claims k).push c)

theorem pushClaim_self : pushClaim claims k c k = (claims k).push c := Function.update_self ..

theorem pushClaim_ne (h : k' ≠ k) : pushClaim claims k c k' = claims k' :=
  Function.update_of_ne h ..

theorem current_pushClaim : (pushClaim claims k c k).current = c := by
  rw [pushClaim_self]
  rfl

theorem version_pushClaim :
    Version (pushClaim claims k c) k' v ↔ (k' = k ∧ c = some v) ∨ Version claims k' v := by
  unfold Version
  by_cases h : k' = k
  · subst h
    rw [pushClaim_self, Register.mem_versions_push]
    simp only [true_and, eq_comm]
  · rw [pushClaim_ne h]
    simp only [h, false_and, false_or]

theorem window_pushClaim : some v ∈ (pushClaim claims k c k').window ↔
    (k' = k ∧ c = some v) ∨ some v ∈ (claims k').window := by
  by_cases h : k' = k
  · subst h
    rw [pushClaim_self, Register.window_push, List.mem_cons]
    simp only [true_and, eq_comm]
  · rw [pushClaim_ne h]
    simp only [h, false_and, false_or]

theorem kept_pushClaim {uid : String} : Kept (pushClaim claims k c) k' uid ↔
    (k' = k ∧ ∃ st, c = some st ∧ st.uid = uid ∧ st.hasRelease = true) ∨
      (k' ≠ k ∧ Kept claims k' uid) := by
  unfold Kept
  by_cases h : k' = k
  · subst h
    rw [current_pushClaim]
    simp only [true_and, ne_eq, not_true_eq_false, false_and, or_false]
  · rw [pushClaim_ne h]
    simp only [h, false_and, ne_eq, not_false_eq_true, true_and, false_or]

/-- The store after the cache caught up with the claim under `k`. -/
def syncClaim (claims : ClaimStore) (k : ObjectKey) (n : Nat) : ClaimStore :=
  Function.update claims k ((claims k).sync n)

theorem syncClaim_spec (n : Nat) : (syncClaim claims k n k').versions = (claims k').versions ∧
    (syncClaim claims k n k').current = (claims k').current ∧
    ∀ c, c ∈ (syncClaim claims k n k').window → c ∈ (claims k').window := by
  unfold syncClaim
  by_cases h : k' = k
  · subst h
    rw [Function.update_self]
    exact ⟨Register.versions_sync _ n, Register.current_sync _ n,
      fun c hc => Register.window_sync_subset _ n hc⟩
  · rw [Function.update_of_ne h]
    exact ⟨rfl, rfl, fun c hc => hc⟩

theorem version_syncClaim {n : Nat} :
    Version (syncClaim claims k n) k' v ↔ Version claims k' v := by
  unfold Version
  rw [(syncClaim_spec n).1]

theorem kept_syncClaim {n : Nat} {uid : String} :
    Kept (syncClaim claims k n) k' uid ↔ Kept claims k' uid := by
  unfold Kept
  rw [(syncClaim_spec n).2.1]

end Push

/-! ## 2. The stored claim and its older versions -/

theorem Keeps.refl (c : MicroVMClaim) : Keeps c c :=
  ⟨id, rfl, fun _ => ⟨rfl, rfl, rfl⟩, id⟩

namespace StoreInv

variable {claims : ClaimStore} {revision : Nat} {h : List Fact} {k k' : ObjectKey}
  {st v v' : MicroVMClaim}

theorem current_version (hst : (claims k).current = some st) : Version claims k st := by
  unfold Version
  rw [← hst]
  exact (claims k).current_mem

variable (hS : StoreInv claims revision h)
include hS

/-- An older version is below the stored one. -/
theorem newer (hst : (claims k).current = some st) (hv : Version claims k v) :
    v = st ∨
      v.resourceVersion < st.resourceVersion ∧ (v.uid = st.uid → Keeps v st) := by
  have hp : ((claims k).current :: (claims k).past).Pairwise Newer := hS.order k
  rcases List.mem_cons.mp hv with heq | hmem
  · exact .inl (Option.some.inj (heq.trans hst))
  · exact .inr ((List.pairwise_cons.mp hp).1 _ hmem st v hst rfl)

/-- **The stored claim keeps what any version of it recorded.** -/
theorem keeps (hst : (claims k).current = some st) (hv : Version claims k v) (hu : v.uid = st.uid) :
    Keeps v st := by
  rcases hS.newer hst hv with rfl | ⟨_, hk⟩
  · exact Keeps.refl v
  · exact hk hu

/-- A version with the stored claim's resourceVersion is the stored claim. -/
theorem eq_of_version (hst : (claims k).current = some st) (hv : Version claims k v)
    (hrv : st.resourceVersion = v.resourceVersion) : st = v := by
  rcases hS.newer hst hv with rfl | ⟨hlt, _⟩
  · rfl
  · omega

/-- Two versions with one uid are of one claim. -/
theorem same_key (hv : Version claims k v) (hv' : Version claims k' v') (hu : v.uid = v'.uid) :
    k = k' := by
  have h1 := hS.created k v hv
  have h2 := hS.created k' v' hv'
  rw [← hu] at h2
  exact hS.once k k' v.uid h1 h2

/-- A new version is above all older ones if it keeps what the stored claim had. -/
theorem keeps_all (hst : (claims k).current = some st) (hu : v.uid = st.uid) (hk : Keeps st v) :
    ∀ old, Version claims k old → old.uid = v.uid → Keeps old v := fun _ hold huold =>
  (hS.keeps hst hold (huold.trans hu)).trans hk

/-- **A new version.** -/
theorem push {c : Option MicroVMClaim}
    (hc : ∀ v, c = some v → v.resourceVersion = revision + 1 ∧ v.key = k ∧
      Fact.created k v.uid ∈ h ∧ VersionOk h v ∧
      ∀ old, Version claims k old → old.uid = v.uid → Keeps old v) :
    StoreInv (pushClaim claims k c) (revision + 1) h := by
  constructor
  case order =>
    intro k'
    by_cases hk : k' = k
    · subst hk
      rw [pushClaim_self, Register.versions_push, List.pairwise_cons]
      refine ⟨fun b hb new old hnew hold => ?_, hS.order k'⟩
      subst hold
      obtain ⟨hrv, _, _, _, hkeeps⟩ := hc new hnew
      have hle := hS.revision k' old hb
      exact ⟨by omega, hkeeps old hb⟩
    · rw [pushClaim_ne hk]
      exact hS.order k'
  case revision =>
    intro k' v hv
    rcases version_pushClaim.mp hv with ⟨_, hcv⟩ | hv
    · exact le_of_eq (hc v hcv).1
    · exact Nat.le_succ_of_le (hS.revision k' v hv)
  case key =>
    intro k' v hv
    rcases version_pushClaim.mp hv with ⟨rfl, hcv⟩ | hv
    · exact (hc v hcv).2.1
    · exact hS.key k' v hv
  case created =>
    intro k' v hv
    rcases version_pushClaim.mp hv with ⟨rfl, hcv⟩ | hv
    · exact (hc v hcv).2.2.1
    · exact hS.created k' v hv
  case named => exact hS.named
  case once => exact hS.once
  case ok =>
    intro k' v hv
    rcases version_pushClaim.mp hv with ⟨_, hcv⟩ | hv
    · exact (hc v hcv).2.2.2.1
    · exact hS.ok k' v hv

/-- A longer history in which no claim was created. -/
theorem extend {h' : List Fact} (hle : h <:+ h')
    (hc : ∀ k uid, Fact.created k uid ∈ h' → Fact.created k uid ∈ h) :
    StoreInv claims revision h' :=
  { hS with
    created k v hv := hle.mem (hS.created k v hv)
    named k uid hm := hS.named k uid (hc k uid hm)
    once k k' uid hm hm' := hS.once k k' uid (hc k uid hm) (hc k' uid hm')
    ok k v hv := (hS.ok k v hv).mono hle }

end StoreInv

/-! ## 3. Ownership -/

namespace OwnedInv

variable {claims : ClaimStore} {binding : ObjectKey → Option Binding} {h : List Fact}
  {k : ObjectKey}

/-- **A new version**: the claims that must be kept are kept by it. -/
theorem push (hO : OwnedInv claims binding h) {c : Option MicroVMClaim}
    (hwin : ∀ v, some v ∈ (claims k).window → v.hasRelease = true → v.deleting = false →
      ∃ st, c = some st ∧ st.uid = v.uid ∧ st.hasRelease = true)
    (hrec : ∀ v, c = some v ∨ Version claims k v → v.status.leaseID ≠ "" →
      (∃ st, c = some st ∧ st.uid = v.uid ∧ st.hasRelease = true) ∨ Gone h v.status.leaseID)
    (hbind : ∀ b, binding k = some b →
      ∃ st, c = some st ∧ st.uid = b.requestID ∧ st.hasRelease = true ∧ st.status.leaseID = "")
    (hnew : ∀ v, c = some v → v.status.leaseID ≠ "" → Newest h v.uid v.status.leaseID) :
    OwnedInv (pushClaim claims k c) binding h := by
  constructor
  case window =>
    intro k' v hv hr hd
    rcases window_pushClaim.mp hv with ⟨rfl, hcv⟩ | hold
    · exact kept_pushClaim.mpr (.inl ⟨rfl, v, hcv, rfl, hr⟩)
    · by_cases hk : k' = k
      · subst hk
        exact kept_pushClaim.mpr (.inl ⟨rfl, hwin v hold hr hd⟩)
      · exact kept_pushClaim.mpr (.inr ⟨hk, hO.window k' v hold hr hd⟩)
  case recorded =>
    intro k' v hv hne
    by_cases hk : k' = k
    · subst hk
      have hv' : c = some v ∨ Version claims k' v := by
        rcases version_pushClaim.mp hv with ⟨_, hcv⟩ | hv
        · exact .inl hcv
        · exact .inr hv
      rcases hrec v hv' hne with hst | hg
      · exact .inl (kept_pushClaim.mpr (.inl ⟨rfl, hst⟩))
      · exact .inr hg
    · rcases version_pushClaim.mp hv with ⟨hkk, _⟩ | hv
      · exact absurd hkk hk
      · rcases hO.recorded k' v hv hne with hkept | hg
        · exact .inl (kept_pushClaim.mpr (.inr ⟨hk, hkept⟩))
        · exact .inr hg
  case binding =>
    intro k' b hb
    by_cases hk : k' = k
    · subst hk
      rw [current_pushClaim]
      exact hbind b hb
    · rw [pushClaim_ne hk]
      exact hO.binding k' b hb
  case newest =>
    intro k' v hv hne
    rcases version_pushClaim.mp hv with ⟨_, hcv⟩ | hv
    · exact hnew v hcv hne
    · exact hO.newest k' v hv hne

/-- A longer history, which records no Lease for a claim that has one. -/
theorem extend (hO : OwnedInv claims binding h) {h' : List Fact} (hle : h <:+ h')
    (hl : ∀ id vm uid p e, Fact.leased id vm uid p e ∈ h' →
      (∃ k v, Version claims k v ∧ v.status.leaseID ≠ "" ∧ v.uid = uid) →
      Fact.leased id vm uid p e ∈ h) :
    OwnedInv claims binding h' where
  window := hO.window
  recorded k v hv hne := by
    rcases hO.recorded k v hv hne with hkept | hg
    · exact .inl hkept
    · exact .inr (hg.mono hle)
  binding := hO.binding
  newest k v hv hne id vm p e hm hid := by
    have hm' := hl id vm v.uid p e hm ⟨k, v, hv, hne, rfl⟩
    obtain ⟨at_, cause, vm', p', e', hp⟩ := hO.newest k v hv hne id vm p e hm' hid
    exact ⟨at_, cause, vm', p', e', hp.mono hle⟩

/-- A ClaimVM that is in flight or answered, for a claim that is stored unbound, or none. -/
theorem setBinding (hO : OwnedInv claims binding h) {b : Option Binding}
    (hb : ∀ b', b = some b' → ∃ st, (claims k).current = some st ∧ st.uid = b'.requestID ∧
      st.hasRelease = true ∧ st.status.leaseID = "") :
    OwnedInv claims (Function.update binding k b) h :=
  { hO with
    binding k' b' hb' := by
      by_cases hk : k' = k
      · subst hk
        rw [Function.update_self] at hb'
        exact hb b' hb'
      · rw [Function.update_of_ne hk] at hb'
        exact hO.binding k' b' hb' }

end OwnedInv

/-! ## 4. The whole invariant -/

theorem MemoryInv.extend {b b' : Battery} {deleted : DeletedVMs} {recovered : RecoveredLeases}
    {h h' : List Fact} (hM : MemoryInv b deleted recovered h) (hle : h <:+ h')
    (hout : ∀ ev ∈ b.outbox, ev ∈ b'.outbox) : MemoryInv b' deleted recovered h' where
  deleted uid hd := by
    obtain ⟨ev, hev, hrest⟩ := hM.deleted uid hd
    exact ⟨ev, hout ev hev, hrest⟩
  unlisted id hm := (hM.unlisted id hm).mono hle
  listed id rec hm := (hM.listed id rec hm).mono hle

namespace Inv

variable {s : Shared} {k : ObjectKey}

/-- The stored claim is a version. -/
theorem stored_version {st : MicroVMClaim} (hst : s.stored k = some st) :
    Version s.claims k st := StoreInv.current_version hst

/-- **A new version of a claim.** -/
theorem store_push (hI : Inv s) {c : Option MicroVMClaim}
    (hc : ∀ v, c = some v → v.resourceVersion = s.revision + 1 ∧ v.key = k ∧
      Fact.created k v.uid ∈ s.history ∧ VersionOk s.history v ∧
      ∀ old, Version s.claims k old → old.uid = v.uid → Keeps old v)
    (hwin : ∀ v, some v ∈ (s.claims k).window → v.hasRelease = true → v.deleting = false →
      ∃ st, c = some st ∧ st.uid = v.uid ∧ st.hasRelease = true)
    (hrec : ∀ v, c = some v ∨ Version s.claims k v → v.status.leaseID ≠ "" →
      (∃ st, c = some st ∧ st.uid = v.uid ∧ st.hasRelease = true) ∨
        Gone s.history v.status.leaseID)
    (hbind : ∀ b, s.binding k = some b →
      ∃ st, c = some st ∧ st.uid = b.requestID ∧ st.hasRelease = true ∧ st.status.leaseID = "")
    (hnew : ∀ v, c = some v → v.status.leaseID ≠ "" → Newest s.history v.uid v.status.leaseID) :
    Inv (s.store k c) where
  ledger := hI.ledger
  store := hI.store.push hc
  owned := hI.owned.push hwin hrec hbind hnew
  memory := hI.memory
  expired uid id why hm hw := by
    obtain ⟨hg, k', v, hv, hrest⟩ := hI.expired uid id why hm hw
    exact ⟨hg, k', v, version_pushClaim.mpr (.inr hv), hrest⟩

/-- A new version of the stored claim with the same status and at least the release finalizer. -/
theorem touch (hI : Inv s) {st v : MicroVMClaim} (hst : s.stored k = some st)
    (hrv : v.resourceVersion = s.revision + 1) (hkey : v.key = st.key) (hu : v.uid = st.uid)
    (hs : v.status = st.status) (hp : v.spec.poolRef = st.spec.poolRef)
    (hd : st.deleting = true → v.deleting = true)
    (hr : st.hasRelease = true → v.hasRelease = true)
    (hw : ∀ r, v.spec.renewTime = some r → Fact.wrote v.uid r ∈ s.history) :
    Inv (s.store k (some v)) := by
  have hver : Version s.claims k st := stored_version hst
  have hok : VersionOk s.history st := hI.store.ok k st hver
  have hns : v.namespace_ = st.namespace_ := congrArg ObjectKey.namespace_ hkey
  have hpool : poolOf v = poolOf st := by
    unfold poolOf
    rw [hp, hns]
  have hkeeps : Keeps st v :=
    ⟨hd, hpool, fun _ => by rw [hs]; exact ⟨rfl, rfl, rfl⟩, fun h => by rw [hs]; exact h⟩
  -- whoever was kept is the stored claim, so the new version keeps it
  have kept : ∀ uid, Kept s.claims k uid →
      ∃ st', some v = some st' ∧ st'.uid = uid ∧ st'.hasRelease = true := by
    intro uid hkept
    obtain ⟨st', hst', hu', hr'⟩ := hkept
    rw [show (s.claims k).current = some st from hst] at hst'
    cases hst'
    exact ⟨v, rfl, hu.trans hu', hr hr'⟩
  refine hI.store_push ?_ ?_ ?_ ?_ ?_
  · intro v' hv'
    cases hv'
    refine ⟨hrv, hkey.trans (hI.store.key k st hver), ?_, ⟨?_, hw⟩,
      hI.store.keeps_all hst hu hkeeps⟩
    · rw [hu]
      exact hI.store.created k st hver
    · rw [hs, hu, hpool]
      exact hok.status
  · intro v' hv' hr' hd'
    exact kept v'.uid (hI.owned.window k v' hv' hr' hd')
  · intro v' hv' hne
    have hcase : Kept s.claims k v'.uid ∨ Gone s.history v'.status.leaseID := by
      rcases hv' with hv' | hv'
      · cases hv'
        rw [hs] at hne ⊢
        rw [hu]
        exact hI.owned.recorded k st hver hne
      · exact hI.owned.recorded k v' hv' hne
    rcases hcase with hk | hg
    · exact .inl (kept v'.uid hk)
    · exact .inr hg
  · intro b hb
    obtain ⟨st', hst', hu', hr', he⟩ := hI.owned.binding k b hb
    rw [show (s.claims k).current = some st from hst] at hst'
    cases hst'
    exact ⟨v, rfl, hu.trans hu', hr hr', by rw [hs]; exact he⟩
  · intro v' hv' hne
    cases hv'
    rw [hs] at hne ⊢
    rw [hu]
    exact hI.owned.newest k st hver hne

/-- The stored claim, without the release finalizer, goes away. -/
theorem vanish (hI : Inv s) {st : MicroVMClaim} (hst : s.stored k = some st)
    (hr : st.hasRelease = false) : Inv (s.store k none) := by
  have not_kept : ∀ uid, ¬ Kept s.claims k uid := by
    intro uid hkept
    obtain ⟨st', hst', _, hr'⟩ := hkept
    rw [show (s.claims k).current = some st from hst] at hst'
    cases hst'
    rw [hr] at hr'
    cases hr'
  refine hI.store_push ?_ ?_ ?_ ?_ ?_
  · intro v hv
    cases hv
  · intro v hv hr' hd'
    exact absurd (hI.owned.window k v hv hr' hd') (not_kept v.uid)
  · intro v hv hne
    rcases hv with hv | hv
    · cases hv
    · exact .inr ((hI.owned.recorded k v hv hne).resolve_left (not_kept v.uid))
  · intro b hb
    obtain ⟨st', hst', hu', hr', _⟩ := hI.owned.binding k b hb
    exact absurd ⟨st', hst', hu', hr'⟩ (not_kept b.requestID)
  · intro v hv
    cases hv

/-- **Battery's Leases and the history move on**: no claim is created, no expiry from memory is
    noted, and no Lease is created for a claim that records one. -/
theorem extend (hI : Inv s) {b : Battery} {h : List Fact} (hL : Ledger b h)
    (hle : s.history <:+ h) (hout : ∀ ev ∈ s.battery.outbox, ev ∈ b.outbox)
    (hc : ∀ k uid, Fact.created k uid ∈ h → Fact.created k uid ∈ s.history)
    (he : ∀ uid id why, Fact.expired uid id why ∈ h → why.fromMemory = true →
      Fact.expired uid id why ∈ s.history ∨
        (Gone h id ∧ ∃ k v, Version s.claims k v ∧ v.uid = uid ∧ v.status.leaseID = id))
    (hl : ∀ id vm uid p e, Fact.leased id vm uid p e ∈ h →
      (∃ k v, Version s.claims k v ∧ v.status.leaseID ≠ "" ∧ v.uid = uid) →
      Fact.leased id vm uid p e ∈ s.history) :
    Inv { s with battery := b, history := h } where
  ledger := hL
  store := hI.store.extend hle hc
  owned := hI.owned.extend hle hl
  memory := hI.memory.extend hle hout
  expired uid id why hm hw := by
    rcases he uid id why hm hw with hm' | hnew
    · obtain ⟨hg, hrest⟩ := hI.expired uid id why hm' hw
      exact ⟨hg.mono hle, hrest⟩
    · exact hnew

end Inv

end BatteryOperator
