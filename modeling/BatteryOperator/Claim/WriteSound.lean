/-
  Subject:   The two writes of a claim, a metadata patch and a status patch, keep the invariant
             under their duties.

  * `merge_touch`, `merge_pending`, `merge_bound`, `merge_held` -- what the API server stores after
    each of the four status patches;
  * `inv_release` -- the release finalizer goes only from a claim whose Lease has ended;
  * `inv_touchStatus`, `inv_pendingStatus`, `inv_boundStatus`, `inv_heldStatus` -- the four status
    patches, against any status that may be stored by then;
  * `inv_patchMeta`, `inv_patchStatus` -- **the results**.
-/
import BatteryOperator.Claim.EnvSound

namespace BatteryOperator

open Lib

namespace MicroVMClaimStatus

variable {b st : MicroVMClaimStatus} {cs : List (Condition ClaimCondition)}

/-! ## 1. The Bound condition on the wire -/

theorem boundOf_encode (st : MicroVMClaimStatus) :
    boundOf st.encode.conditions = boundOf st.conditions := by
  have key : ∀ cs : List (Condition ClaimCondition),
      boundOf (cs.map fun c => { c with lastTransitionTime := truncSecond c.lastTransitionTime }) =
        boundOf cs := by
    intro cs
    induction cs with
    | nil => rfl
    | cons c cs ih =>
      unfold boundOf findStatusCondition at ih ⊢
      rw [List.map_cons, List.find?_cons, List.find?_cons]
      by_cases hc : c.type = .bound
      · simp [hc]
      · simp only [hc, decide_false]
        exact ih
  exact key st.conditions

/-- The Bound condition after a patch is the stored one, if the patch leaves the list alone, or the
    wanted one. -/
theorem boundOf_merge (b d st : MicroVMClaimStatus) :
    (b.encode.conditions = d.encode.conditions ∧
        (merge b.encode d.encode st).conditions = st.conditions) ∨
      boundOf (merge b.encode d.encode st).conditions = boundOf d.conditions := by
  rcases mergeField_cases b.encode.conditions d.encode.conditions st.conditions with
    ⟨he, hm⟩ | ⟨_, hm⟩
  · exact .inl ⟨he, hm⟩
  · refine .inr ?_
    rw [← boundOf_encode d]
    exact congrArg boundOf hm

/-! ## 2. The four patches -/

/-- A patch that touches conditions only changes conditions only. -/
theorem merge_touch (b st : MicroVMClaimStatus) (cs : List (Condition ClaimCondition)) :
    merge b.encode { b with conditions := cs }.encode st =
      { st with
        conditions := (merge b.encode { b with conditions := cs }.encode st).conditions } := by
  simp only [merge, encode, mergeField_self, mergeObject_self]

theorem merge_pending (b st : MicroVMClaimStatus) (cs : List (Condition ClaimCondition)) :
    merge b.encode { b with phase := .pending, conditions := cs }.encode st =
      { st with
        phase := mergeField b.phase .pending st.phase
        conditions := (merge b.encode
          { b with phase := .pending, conditions := cs }.encode st).conditions } := by
  simp only [merge, encode, mergeField_self, mergeObject_self]

/-- A patch that binds an unbound claim stores what it says. -/
theorem merge_bound {c : MicroVMClaim} (hb : Unbound c.status) (hs : Unbound st)
    (claimed : Claim) (r : Option MicroTime) (now : Time) (cs : List (Condition ClaimCondition)) :
    ∃ cs', merge c.status.encode { boundStatus c claimed r now with conditions := cs }.encode st =
      { phase := .bound
        leaseID := claimed.leaseID
        microVM := some ⟨claimed.vmUID⟩
        host := some ⟨claimed.host.name, ""⟩
        boundTime := some (truncSecond now)
        leaseExpiresAt := none
        observedRenewTime := r
        conditions := cs' } := by
  refine ⟨(merge c.status.encode
    { boundStatus c claimed r now with conditions := cs }.encode st).conditions, ?_⟩
  have hphase : mergeField c.status.phase .bound st.phase = .bound := by
    refine mergeField_of_ne ?_ _
    rcases hb.phase with h | h
    · rw [h]
      decide
    · rw [h]
      decide
  simp only [merge, encode, boundStatus, hb.leaseID, hb.microVM, hb.host, hb.boundTime,
    hb.leaseExpiresAt, hb.observedRenewTime, hs.leaseID, hs.microVM, hs.host, hs.boundTime,
    hs.leaseExpiresAt, hs.observedRenewTime, hphase, mergeField_base, mergeObject, mergeMicroVM,
    mergeHost, Option.map_none, Option.map_some, Option.getD_none, reduceCtorEq, if_false]

/-- The node name after a patch that keeps it. -/
theorem nodeName_mergeHost {base desired stored : Option HostReference}
    (hd : desired.map HostReference.nodeName = base.map HostReference.nodeName)
    (hb : base.isSome = true) (hs : stored.isSome = true) :
    (mergeObject ⟨"", ""⟩ mergeHost base desired stored).map HostReference.nodeName =
      stored.map HostReference.nodeName := by
  obtain ⟨b, rfl⟩ := Option.isSome_iff_exists.mp hb
  obtain ⟨s, rfl⟩ := Option.isSome_iff_exists.mp hs
  cases desired with
  | none => cases hd
  | some d =>
    have hn : d.nodeName = b.nodeName := Option.some.inj hd
    rw [mergeObject_some]
    by_cases he : (some b : Option HostReference) = some d
    · rw [if_pos he]
    · rw [if_neg he]
      simp only [Option.getD_some, mergeHost, hn, mergeField_self, Option.map_some]

/-- **A patch of a claim that has its Lease** keeps the Lease, the MicroVM, the Node and the time it
    was bound. -/
theorem merge_held {d : MicroVMClaimStatus} (hl : d.leaseID = b.leaseID)
    (hm : d.microVM = b.microVM) (hn : d.nodeName = b.nodeName) (ht : d.boundTime = b.boundTime)
    (hb : b.host.isSome = true) (hs : st.host.isSome = true) :
    (merge b.encode d.encode st).leaseID = st.leaseID ∧
      (merge b.encode d.encode st).microVM = st.microVM ∧
      (merge b.encode d.encode st).nodeName = st.nodeName ∧
      (merge b.encode d.encode st).boundTime = st.boundTime := by
  refine ⟨?_, ?_, nodeName_mergeHost hn hb hs, ?_⟩
  · simp only [merge, encode, hl, mergeField_self]
  · simp only [merge, encode, hm, mergeObject_self]
  · simp only [merge, encode, ht, mergeField_self]

end MicroVMClaimStatus

variable {s s' : Shared} {k : ObjectKey}

/-- A ClaimVM is in flight or answered for a claim that is stored unbound, or none is. -/
theorem Inv.setBinding (hI : Inv s) {b : Option Binding}
    (hb : ∀ b', b = some b' → ∃ st, s.stored k = some st ∧ st.uid = b'.requestID ∧
      st.hasRelease = true ∧ st.status.leaseID = "") : Inv (s.setBinding k b) :=
  ⟨hI.ledger, hI.store, hI.owned.setBinding hb, hI.memory, hI.expired⟩

/-! ## 3. The metadata patch -/

/-- What a metadata patch does: nothing, or a new version, or the object is gone. -/
theorem patchMeta_cases (s : Shared) (original object : MicroVMClaim) :
    (∃ e, s.patchMeta original object = (.error e, s)) ∨
      ∃ st, s.stored original.key = some st ∧ st.resourceVersion = original.resourceVersion ∧
        ((((s.patchedMeta original object st).deleting &&
            (s.patchedMeta original object st).finalizers.isEmpty) = true ∧
          s.patchMeta original object =
            (.ok (s.patchedMeta original object st), s.store original.key none)) ∨
         (((s.patchedMeta original object st).deleting &&
            (s.patchedMeta original object st).finalizers.isEmpty) = false ∧
          s.patchMeta original object = (.ok (s.patchedMeta original object st),
            s.store original.key (some (s.patchedMeta original object st))))) := by
  unfold Shared.patchMeta
  cases hst : s.stored original.key with
  | none => exact .inl ⟨_, rfl⟩
  | some st =>
    by_cases hrv : st.resourceVersion ≠ original.resourceVersion
    · exact .inl ⟨_, if_pos hrv⟩
    · refine .inr ⟨st, rfl, not_not.mp hrv, ?_⟩
      simp only [if_neg hrv]
      by_cases hg : ((s.patchedMeta original object st).deleting &&
          (s.patchedMeta original object st).finalizers.isEmpty) = true
      · exact .inl ⟨hg, if_pos hg⟩
      · exact .inr ⟨by simpa using hg, if_neg hg⟩

theorem hasRelease_addFinalizer {c : MicroVMClaim} :
    (c.addFinalizer releaseFinalizer).hasRelease = true := by
  rw [hasRelease_iff]
  unfold MicroVMClaim.addFinalizer
  split
  next h => exact List.contains_iff_mem.mp h
  · exact List.mem_append_right _ (List.mem_singleton.mpr rfl)

variable {st object base : MicroVMClaim}

/-- The release finalizer goes: the stored claim is a copy that is being deleted, whose Lease has
    ended and than which no copy left to be read is older. -/
theorem inv_release (hI : Inv s) {c : Option MicroVMClaim} (hst : s.stored k = some st)
    (hbind : s.binding k = none) (hdel : st.deleting = true)
    (hlease : st.status.leaseID = "" ∨ Gone s.history st.status.leaseID)
    (hwin : ∀ v, some v ∈ (s.claims k).window → st.resourceVersion ≤ v.resourceVersion)
    (hc : ∀ v, c = some v → v.resourceVersion = s.revision + 1 ∧ v.key = st.key ∧
      v.uid = st.uid ∧ v.status = st.status ∧ v.spec = st.spec ∧ v.deleting = true) :
    Inv (s.store k c) := by
  have hver : Version s.claims k st := Inv.stored_version hst
  have hok : VersionOk s.history st := hI.store.ok k st hver
  -- every version with a Lease under this key has one that ended
  have gone : ∀ v, Version s.claims k v → v.status.leaseID ≠ "" →
      Gone s.history v.status.leaseID := by
    intro v hv hne
    rcases hI.owned.recorded k v hv hne with ⟨st', hst', hu, _⟩ | hg
    · rw [show (s.claims k).current = some st from hst] at hst'
      cases hst'
      obtain ⟨hl, _⟩ := (hI.store.keeps hst hv hu.symm).lease hne
      rw [← hl]
      refine hlease.resolve_left fun he => hne ?_
      rw [← hl]
      exact he
    · exact hg
  refine hI.store_push ?_ ?_ ?_ ?_ ?_
  · intro v hv
    obtain ⟨hrv, hkey, hu, hs, hsp, hd⟩ := hc v hv
    have hns : v.namespace_ = st.namespace_ := congrArg ObjectKey.namespace_ hkey
    have hpool : poolOf v = poolOf st := by
      unfold poolOf
      rw [hsp, hns]
    refine ⟨hrv, hkey.trans (hI.store.key k st hver), ?_, ⟨?_, ?_⟩, ?_⟩
    · rw [hu]
      exact hI.store.created k st hver
    · rw [hs, hu, hpool]
      exact hok.status
    · rw [hsp, hu]
      exact hok.renewTime
    · refine hI.store.keeps_all hst hu ⟨fun _ => hd, hpool, fun _ => ?_, fun h => ?_⟩
      · rw [hs]
        exact ⟨rfl, rfl, rfl⟩
      · rw [hs]
        exact h
  · intro v hv hr hd
    have hv' : Version s.claims k v := (s.claims k).window_subset hv
    have hle := hwin v hv
    rcases hI.store.newer hst hv' with rfl | ⟨hlt, _⟩
    · simp [hdel] at hd
    · omega
  · intro v hv hne
    rcases hv with hv | hv
    · obtain ⟨_, _, _, hs, _, _⟩ := hc v hv
      rw [hs] at hne ⊢
      exact .inr (gone st hver hne)
    · exact .inr (gone v hv hne)
  · intro b hb
    simp [hbind] at hb
  · intro v hv hne
    obtain ⟨_, _, hu, hs, _, _⟩ := hc v hv
    rw [hs] at hne ⊢
    rw [hu]
    exact hI.owned.newest k st hver hne

/-- **A metadata patch keeps the invariant.** -/
theorem inv_patchMeta (hI : Inv s) {original : MicroVMClaim} (hm : MetaOk s k original object) :
    Inv (s.patchMeta original object).2 := by
  have hkey : original.key = k := hI.store.key k original hm.version
  rcases patchMeta_cases s original object with ⟨e, he⟩ | ⟨st, hst, hrv, hcase⟩
  · rw [he]
    exact hI
  · rw [hkey] at hst hcase
    have heq : st = original := hI.store.eq_of_version hst hm.version hrv
    subst heq
    have hfin : (s.patchedMeta st object st).finalizers = object.finalizers :=
      mergeField_base st.finalizers object.finalizers
    have hok := hI.store.ok k st hm.version
    rcases hm.change with ⟨hobj, _, hd⟩ | ⟨hobj, hd, hlease, hwin⟩
    · rcases hcase with ⟨hg, _⟩ | ⟨_, hp⟩
      · have hd' : (s.patchedMeta st object st).deleting = false := hd
        simp [hd'] at hg
      · rw [hp]
        refine hI.touch hst rfl rfl rfl rfl rfl id (fun _ => ?_) hok.renewTime
        rw [hasRelease_iff, hfin, hobj, ← hasRelease_iff]
        exact hasRelease_addFinalizer
    · rcases hcase with ⟨_, hp⟩ | ⟨_, hp⟩
      · rw [hp]
        exact inv_release hI hst hm.binding hd hlease hwin fun v hv => by cases hv
      · rw [hp]
        refine inv_release hI hst hm.binding hd hlease hwin fun v hv => ?_
        cases hv
        exact ⟨rfl, rfl, rfl, rfl, rfl, hd⟩

/-! ## 4. The status patch -/

theorem patchStatus_cases (s : Shared) (base object : MicroVMClaim) :
    (∃ r, s.patchStatus base object = (r, s)) ∨
      ∃ st, s.stored base.key = some st ∧ s.patchStatus base object =
        (.ok (s.patchedStatus base object st),
          s.store base.key (some (s.patchedStatus base object st))) := by
  unfold Shared.patchStatus
  cases hst : s.stored base.key with
  | none => exact .inl ⟨_, rfl⟩
  | some st =>
    by_cases he : (s.patchedStatus base object st).status = st.status
    · exact .inl ⟨_, if_pos he⟩
    · exact .inr ⟨st, rfl, if_neg he⟩

/-- A new status of the stored claim. -/
theorem inv_status (hI : Inv s) {v : MicroVMClaim} {m : MicroVMClaimStatus}
    (hst : s.stored k = some st) (hbind : s.binding k = none)
    (hv : v = { st with status := m, resourceVersion := s.revision + 1 })
    (hok : Unbound m ∨ m.leaseID ≠ "" ∧ Recorded s.history st.uid (poolOf st) m)
    (hkeep : st.status.leaseID ≠ "" → m.leaseID = st.status.leaseID ∧
      m.microVM = st.status.microVM ∧ m.nodeName = st.status.nodeName)
    (hexp : st.status.phase = .expired → m.phase = .expired)
    (hrec : m.leaseID ≠ "" → st.hasRelease = true ∨ Gone s.history m.leaseID)
    (hnew : m.leaseID ≠ "" → Newest s.history st.uid m.leaseID) : Inv (s.store k (some v)) := by
  subst hv
  have hver : Version s.claims k st := Inv.stored_version hst
  have kept : ∀ uid, Kept s.claims k uid → ∃ st',
      some { st with status := m, resourceVersion := s.revision + 1 } = some st' ∧
        st'.uid = uid ∧ st'.hasRelease = true := by
    intro uid hkept
    obtain ⟨st', hst', hu, hr⟩ := hkept
    rw [show (s.claims k).current = some st from hst] at hst'
    cases hst'
    exact ⟨_, rfl, hu, hr⟩
  refine hI.store_push ?_ ?_ ?_ ?_ ?_
  · intro v hv
    cases hv
    refine ⟨rfl, hI.store.key k st hver, hI.store.created k st hver,
      ⟨hok, (hI.store.ok k st hver).renewTime⟩, hI.store.keeps_all hst rfl ?_⟩
    exact ⟨id, rfl, hkeep, hexp⟩
  · intro v hv hr hd
    exact kept v.uid (hI.owned.window k v hv hr hd)
  · intro v hv hne
    rcases hv with hv | hv
    · cases hv
      rcases hrec hne with hr | hg
      · exact .inl ⟨_, rfl, rfl, hr⟩
      · exact .inr hg
    · rcases hI.owned.recorded k v hv hne with hk | hg
      · exact .inl (kept v.uid hk)
      · exact .inr hg
  · intro b hb
    simp [hbind] at hb
  · intro v hv hne
    cases hv
    exact hnew hne

/-- What `inv_status` asks of a status that keeps the stored Lease, or the lack of one. -/
theorem inv_status_keep (hI : Inv s) {v : MicroVMClaim} {m : MicroVMClaimStatus}
    (hst : s.stored k = some st) (hbind : s.binding k = none)
    (hv : v = { st with status := m, resourceVersion := s.revision + 1 })
    (hok : Unbound m ∨ m.leaseID ≠ "" ∧ Recorded s.history st.uid (poolOf st) m)
    (hl : m.leaseID = st.status.leaseID) (hm : m.microVM = st.status.microVM)
    (hn : m.nodeName = st.status.nodeName)
    (hexp : st.status.phase = .expired → m.phase = .expired) : Inv (s.store k (some v)) := by
  have hver : Version s.claims k st := Inv.stored_version hst
  refine inv_status hI hst hbind hv hok (fun _ => ⟨hl, hm, hn⟩) hexp (fun hne => ?_) fun hne => ?_
  · rw [hl] at hne ⊢
    rcases hI.owned.recorded k st hver hne with ⟨st', hst', _, hr⟩ | hg
    · rw [show (s.claims k).current = some st from hst] at hst'
      cases hst'
      exact .inl hr
    · exact .inr hg
  · rw [hl] at hne ⊢
    exact hI.owned.newest k st hver hne

/-- The claim with the merged status. -/
theorem patchedStatus_eq {m : MicroVMClaimStatus}
    (hm : MicroVMClaimStatus.merge base.status.encode object.status.encode st.status = m) :
    s.patchedStatus base object st =
      { st with status := m, resourceVersion := s.revision + 1 } := by
  rw [← hm]
  rfl

/-- A patch of conditions. -/
theorem inv_touchStatus (hI : Inv s) (hbind : s.binding k = none) (hst : s.stored k = some st)
    (hd : TouchOk base object.status) :
    Inv (s.store k (some (s.patchedStatus base object st))) := by
  have hm := MicroVMClaimStatus.merge_touch base.status st.status object.status.conditions
  rw [← hd.status] at hm
  have hok := hI.store.ok k st (Inv.stored_version hst)
  refine inv_status_keep hI hst hbind (patchedStatus_eq hm) ?_ rfl rfl rfl id
  rcases hok.status with hu | ⟨hne, hr⟩
  · exact .inl ⟨hu.phase, hu.leaseID, hu.microVM, hu.host, hu.boundTime, hu.leaseExpiresAt,
      hu.observedRenewTime⟩
  · exact .inr ⟨hne, hr.phase, hr.answered, hr.boundTime, hr.expiry, hr.observed⟩

/-- A patch that leaves the claim Pending. -/
theorem inv_pendingStatus (hI : Inv s) (hbind : s.binding k = none) (hst : s.stored k = some st)
    (hver : Version s.claims k base) (hd : PendingOk s k base object.status) :
    Inv (s.store k (some (s.patchedStatus base object st))) := by
  obtain ⟨st', hst', _, _, hl, _⟩ := hd.awaiting
  rw [hst] at hst'
  cases hst'
  have hub : Unbound base.status := (hI.store.ok k base hver).unbound hd.unbound
  have hus : Unbound st.status := (hI.store.ok k st (Inv.stored_version hst)).unbound hl
  have hm := MicroVMClaimStatus.merge_pending base.status st.status object.status.conditions
  rw [← hd.status] at hm
  have hphase : mergeField base.status.phase .pending st.status.phase = .empty ∨
      mergeField base.status.phase .pending st.status.phase = .pending := by
    rcases mergeField_cases base.status.phase .pending st.status.phase with ⟨_, h⟩ | ⟨_, h⟩
    · rw [h]
      exact hus.phase
    · exact .inr h
  refine inv_status_keep hI hst hbind (patchedStatus_eq hm) (.inl ?_) rfl rfl rfl fun he => ?_
  · exact ⟨hphase, hus.leaseID, hus.microVM, hus.host, hus.boundTime, hus.leaseExpiresAt,
      hus.observedRenewTime⟩
  · rcases hus.phase with h | h
    · simp [h] at he
    · simp [h] at he

/-- A patch that binds the claim; its ClaimVM is settled by it. -/
theorem inv_boundStatus (hI : Inv s) {claimed : Claim} (hst : s.stored k = some st)
    (hver : Version s.claims k base) (hd : BoundOk s k base object.status claimed) :
    Inv ((s.store k (some (s.patchedStatus base object st))).setBinding k none) := by
  obtain ⟨st', hst', hu, hr, hl, hp⟩ := hd.awaiting
  rw [hst] at hst'
  cases hst'
  have hub : Unbound base.status := (hI.store.ok k base hver).unbound hd.unbound
  have hus : Unbound st.status := (hI.store.ok k st (Inv.stored_version hst)).unbound hl
  obtain ⟨now, hstatus⟩ := hd.status
  obtain ⟨e, hleased⟩ := hd.leased
  have hne : claimed.leaseID ≠ "" := (hI.ledger.named _ _ _ _ _ hleased).1
  obtain ⟨cs, hm⟩ := MicroVMClaimStatus.merge_bound hub hus claimed base.spec.renewTime now
    object.status.conditions
  rw [← hstatus] at hm
  have hI0 : Inv (s.setBinding k none) := hI.setBinding nofun
  refine inv_status hI0 hst (Function.update_self ..) (patchedStatus_eq hm) (.inr ⟨hne, ?_⟩) ?_ ?_
    (fun _ => .inl hr) ?_
  · refine ⟨.inl rfl, ⟨claimed, e, ?_, ?_, rfl, rfl, rfl⟩, rfl, ?_, ?_⟩
    · rw [hu]
      exact hd.replied
    · rw [hu, hp]
      exact hleased
    · nofun
    · intro r hr'
      rw [hu]
      exact hd.relayed r hr'
  · exact fun hne' => absurd hl hne'
  · intro he
    rcases hus.phase with h | h
    · rw [h] at he
      cases he
    · rw [h] at he
      cases he
  · intro _
    rw [hu]
    exact hd.newest

/-- A held Lease: the copy, the stored claim and their Lease. -/
theorem HeldOk.stored {d : MicroVMClaimStatus} (hI : Inv s) (hver : Version s.claims k base)
    (hd : HeldOk s k base d) :
    ∃ st, s.stored k = some st ∧ st.uid = base.uid ∧ base.status.phase = .bound ∧
      base.status.leaseID ≠ "" ∧ Keeps base st ∧
      Recorded s.history st.uid (poolOf st) st.status ∧
      Recorded s.history base.uid (poolOf base) base.status := by
  have hh := hd.holds
  unfold holdsLease at hh
  simp only [Bool.and_eq_true, decide_eq_true_eq] at hh
  obtain ⟨⟨hphase, hne⟩, _⟩ := hh
  obtain ⟨st, hst, hu, _⟩ := hd.kept
  have hk : Keeps base st := hI.store.keeps hst hver hu.symm
  have hok := hI.store.ok k st (Inv.stored_version hst)
  refine ⟨st, hst, hu, hphase, hne, hk, hok.recorded ?_, (hI.store.ok k base hver).recorded hne⟩
  rw [(hk.lease hne).1]
  exact hne

theorem Recorded.host {h : List Fact} {uid : String} {pool : PoolRef} {st : MicroVMClaimStatus}
    (hr : Recorded h uid pool st) : st.host.isSome = true := by
  obtain ⟨c, e, _, _, _, _, hn⟩ := hr.answered
  unfold MicroVMClaimStatus.nodeName at hn
  cases hh : st.host with
  | none =>
    simp [hh] at hn
  | some host => rfl

/-- A patch that keeps or expires a Lease. -/
theorem inv_heldStatus (hI : Inv s) (hbind : s.binding k = none) (hst : s.stored k = some st)
    (hver : Version s.claims k base) (hd : HeldOk s k base object.status) :
    Inv (s.store k (some (s.patchedStatus base object st))) := by
  obtain ⟨st', hst', hu, hphase, hne, hk, hrs, hrb⟩ := hd.stored hI hver
  rw [hst] at hst'
  cases hst'
  obtain ⟨hl, hm, hn, ht⟩ := MicroVMClaimStatus.merge_held hd.leaseID hd.microVM hd.nodeName
    hd.boundTime hrb.host hrs.host
  have hlease : st.status.leaseID = base.status.leaseID := (hk.lease hne).1
  -- the phase stays, or the wanted one is Expired
  have hph : (MicroVMClaimStatus.merge base.status.encode object.status.encode st.status).phase =
      st.status.phase ∨
      (MicroVMClaimStatus.merge base.status.encode object.status.encode st.status).phase =
        .expired := by
    rcases mergeField_cases base.status.phase object.status.phase st.status.phase with
      ⟨_, h⟩ | ⟨hne', h⟩
    · exact .inl h
    · rcases hd.phase with ⟨hb, _⟩ | ⟨hx, _⟩
      · exact absurd (hphase.trans hb.symm) hne'
      · exact .inr (h.trans hx)
  refine inv_status_keep hI hst hbind rfl (.inr ⟨?_, ?_⟩) hl hm hn ?_
  · rw [hl, hlease]
    exact hne
  · constructor
    case phase =>
      rcases hph with h | h
      · rw [h]
        exact hrs.phase
      · exact .inr h
    case answered =>
      obtain ⟨c, e, h1, h2, h3, h4, h5⟩ := hrs.answered
      exact ⟨c, e, h1, h2, hl.trans h3, hm.trans h4, hn.trans h5⟩
    case boundTime =>
      rw [ht]
      exact hrs.boundTime
    case expiry =>
      intro e he
      rw [hl]
      rcases mergeField_cases (base.status.leaseExpiresAt.map truncSecond)
        (object.status.leaseExpiresAt.map truncSecond) st.status.leaseExpiresAt with
        ⟨_, h⟩ | ⟨hne', h⟩
      · exact hrs.expiry e (h.symm.trans he)
      · rcases hd.expiry with heq | ⟨e0, heq, hpub⟩
        · rw [heq] at hne'
          exact absurd rfl hne'
        · have he' : object.status.leaseExpiresAt.map truncSecond = some e := h.symm.trans he
          rw [heq] at he'
          refine ⟨e0, (Option.some.inj he').symm, ?_⟩
          rw [hlease]
          exact hpub
    case observed =>
      intro r hr
      rw [hl]
      rcases mergeField_cases base.status.observedRenewTime object.status.observedRenewTime
        st.status.observedRenewTime with ⟨_, h⟩ | ⟨hne', h⟩
      · exact hrs.observed r (h.symm.trans hr)
      · rcases hd.observed with heq | ⟨_, hrel⟩
        · exact absurd heq.symm hne'
        · have hr' := hrel r (h.symm.trans hr)
          rw [hu, hlease]
          exact hr'
  · intro he
    rcases hph with h | h
    · exact h.trans he
    · exact h

/-- **A status patch keeps the invariant**, and settles the claim's ClaimVM. -/
theorem inv_patchStatus (hI : Inv s) (hs : StatusOk s k base object) :
    Inv ((s.patchStatus base object).2.setBinding k none) := by
  have hkey : base.key = k := hI.store.key k base hs.version
  rcases patchStatus_cases s base object with ⟨r, hp⟩ | ⟨st, hst, hp⟩
  · rw [hp]
    exact hI.setBinding nofun
  · rw [hkey] at hst hp
    rw [hp]
    rcases hs.change with ⟨hb, hmode⟩ | ⟨claimed, hd⟩
    · have hI' : Inv (s.store k (some (s.patchedStatus base object st))) := by
        rcases hmode with hd | hd | hd
        · exact inv_touchStatus hI hb hst hd
        · exact inv_pendingStatus hI hb hst hs.version hd
        · exact inv_heldStatus hI hb hst hs.version hd
      exact hI'.setBinding nofun
    · exact inv_boundStatus hI hst hs.version hd

end BatteryOperator
