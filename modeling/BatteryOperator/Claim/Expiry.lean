/-
  Subject:   WHEN A CLAIM IS EXPIRED. A claim is to be Expired once its Lease is over, and not while
             a renewal that battery would still grant is pending.

  Neither holds in every interleaving: a reconcile decides on the copy it read and writes without a
  lock, and the next one may read a copy from before that write.
  * `heartbeat_revives_expired`, `pending_renewal_expired` -- the two schedules;
  * `expired_over` -- no Heartbeat for a claim that is stored Expired: then **an Expired claim's
    Lease is over for good**;
  * `pending_renewal_kept` -- a status patch meets the renewal it was decided on: then **no pending
    renewal is dropped** while battery holds the Lease;
  * `expired_from_memory` -- **what the Operator expires from memory has ended**, always.
-/
import BatteryOperator.Claim.Ownership

namespace BatteryOperator

open Lib

variable {r : MicroVMClaimReconciler} {w w' : ClaimWorld}

/-! ## 1. A Lease that is over -/

/-- Battery carries out no Heartbeat for a claim that is stored Expired. -/
def heartbeatInTime (w : ClaimWorld) : ClaimAct → Bool
  | .exec (.claim k) (.serve .carryOut _) =>
    match w.running (.claim k), w.shared.stored k with
    | some (.op (.receive _ (.heartbeat _)) _), some st => st.status.phase ≠ .expired
    | _, _ => true
  | _ => true

/-- Every claim that was stored Expired has a Lease that is over. -/
def ExpiredOver (s : Shared) : Prop :=
  ∀ k v, Version s.claims k v → v.status.phase = .expired → Over s v.status.leaseID

section Over

variable {s s' : Shared} {k : ObjectKey} {v : MicroVMClaim}

/-- An Expired claim records a Lease. -/
theorem Inv.expired_recorded (hI : Inv s) (hv : Version s.claims k v)
    (he : v.status.phase = .expired) : v.status.leaseID ≠ "" := by
  intro hid
  rcases ((hI.store.ok k v hv).unbound hid).phase with hp | hp
  · simp [hp] at he
  · simp [hp] at he

theorem Over.of_gone (hI : Inv s) {id : String} (hg : Gone s.history id) : Over s id :=
  fun l hl hid => absurd hid (hI.ledger.not_held_of_gone hg l hl)

theorem Over.aside {id : String} (h : Over s id) (ha : Aside s s') : Over s' id := by
  intro l hl hid
  rw [ha.battery] at hl
  exact Int.le_trans (h l hl hid) ha.now

/-- Only a Heartbeat for the Lease takes it back. -/
theorem Over.served (hI : Inv s) (hI' : Inv s') (hv : Version s.claims k v)
    (hne : v.status.leaseID ≠ "") (h : Over s v.status.leaseID) {t : Thread} (uid : String)
    {call : Call} {f : Choice} {x : Except BatteryError call.Answer}
    (hx : execReceive t call s f = some (x, s'))
    (hc : ∀ pool rid, call = .claimVM pool rid → ∃ k', CallOk s k' uid call)
    (hh : ∀ lost, f = .serve .carryOut lost → call ≠ .heartbeat v.status.leaseID) :
    Over s' v.status.leaseID := by
  obtain ⟨hcl, _, hnow, _⟩ := receive_frame hx
  have hv' : Version s'.claims k v := by
    rw [hcl]
    exact hv
  intro l' hl' hid
  rw [hnow]
  rcases receive_served hx with ⟨hb, _⟩ | ⟨sv, lost, r0, hf, hs⟩
  · rw [hb] at hl'
    exact h l' hl' hid
  · rcases (Battery.serve_frame hs).leases l' hl' with ⟨l, hl, hid', _, he⟩ | ⟨pool, rfl⟩ |
      ⟨rfl, _⟩
    · rw [← he]
      exact h l hl (hid'.trans hid)
    · -- a new Lease is for a claim that records none
      obtain ⟨k', hrid, ha⟩ := hc pool _ rfl
      have hreq : l'.requestID = v.uid := hI'.held_requestID hv' hne hl' hid
      exact absurd ⟨k, v, hv, hne, hreq.symm.trans hrid⟩ (ha.unrecorded hI)
    · cases sv with
      | carryOut => exact absurd (congrArg Call.heartbeat hid) (hh lost hf)
      | grant | unconfirmed => cases hs
      | refuse e =>
        obtain ⟨_, heq⟩ := Option.ite_none_right_eq_some.mp hs
        have hb : s.battery = s'.battery := congrArg (fun x => x.2.1) (Option.some.inj heq)
        rw [← hb] at hl'
        exact h l' hl' hid

/-- What a step leaves over. -/
theorem over_step (hI : Inv s) (hI' : Inv s') (hv : Version s.claims k v)
    (he : v.status.phase = .expired) (h : Over s v.status.leaseID) {t : Thread} {f : Choice}
    {o : Op} {x : o.Ans} (hpre : Pre t o s) (hx : exec t f o s = some (x, s'))
    (hok : ∀ uid id lost, o = .receive uid (.heartbeat id) → f = .serve .carryOut lost →
      ∀ k' st, t = .claim k' → s.stored k' = some st → st.status.phase ≠ .expired) :
    Over s' v.status.leaseID := by
  have hne := hI.expired_recorded hv he
  rcases exec_frame hx with ⟨uid, call, rfl⟩ | ha
  · refine h.served hI hI' hv hne uid hx (fun pool rid hc => ?_) fun lost hf hc => ?_
    · cases t with
      | claim k' => exact ⟨k', hpre.1⟩
      | recovery =>
        obtain ⟨_, hl⟩ := hpre
        simp [hc] at hl
    · cases t with
      | claim k' =>
        -- the Heartbeat is for this claim, which is stored Expired
        subst hc
        obtain ⟨vh, hvh, hu, hid, _, st, hst, hstu, _⟩ := hpre.1
        have huid : v.uid = vh.uid := hI.alone hv hvh hne (.inl hid.symm)
        have hk : k = k' := hI.store.same_key hv hvh huid
        subst hk
        have hkeeps := hI.store.keeps hst hv (huid.trans (hu.trans hstu.symm))
        exact hok uid _ lost rfl hf k st rfl hst (hkeeps.expired he)
      | recovery =>
        obtain ⟨_, hl⟩ := hpre
        simp [hc] at hl
  · exact h.aside ha

/-- The version a status patch stores Expired has a Lease that is over. -/
theorem Patched.over (hI : Inv s) {base st : MicroVMClaim} {d m : MicroVMClaimStatus}
    (hst : s.stored k = some st) (hexp : ExpiredOver s) (h : Patched s k base d st m)
    (he : m.phase = .expired) : Over s m.leaseID := by
  have hver := Inv.stored_version hst
  cases h with
  | touched _ same =>
    rw [same] at he ⊢
    exact hexp k st hver he
  | pending _ _ ust same =>
    rw [same] at he
    have hm : mergeField base.status.phase .pending st.status.phase = .expired := he
    rcases mergeField_cases base.status.phase MicroVMClaimPhase.pending st.status.phase with
      ⟨_, hc⟩ | ⟨_, hc⟩
    · rw [hc] at hm
      rcases ust.phase with hp | hp
      · simp [hp] at hm
      · simp [hp] at hm
    · simp [hc] at hm
  | held ok uid bound keeps leaseID phase =>
    have hne := holdsLease_leaseID ok.holds
    rw [leaseID]
    rcases phase with ⟨_, hm⟩ | ⟨hd, _⟩
    · rw [hm] at he
      rw [← (keeps.lease hne).1]
      exact hexp k st hver he
    · rcases ok.phase with ⟨hp, _⟩ | ⟨_, _, hg | ⟨ho, _⟩⟩
      · simp [hp] at hd
      · exact Over.of_gone hI hg
      · exact ho
  | bound _ _ _ _ _ phase =>
    simp [phase] at he

end Over

/-- **An Expired claim's Lease is over for good**, in every run in which battery carries out no
    Heartbeat for a claim that is stored Expired. -/
theorem expired_over (h : ReachableBy r (fun w a => heartbeatInTime w a = true) w) :
    ExpiredOver w.shared := by
  refine h.invariant (fun w0 h0 k v hv => absurd hv h0.no_version) ?_ ?_ ?_
  · intro w e s' _ hI hC hx hI' k v hv he
    have stays : ∀ v', Version w.shared.claims k v' → v'.status.phase = .expired →
        Over s' v'.status.leaseID := by
      intro v' hv' he'
      have hcr := hI.store.created k v' hv'
      exact (lasting_over (hI.expired_recorded hv' he') _ s' ⟨hv', hcr, hC k v' hv' he'⟩
        (env_rely (.claim k) e _ s' hI hx) hI').2.2
    rcases (env_versions hx).version hv with hold | ⟨_, hz⟩ | ⟨st, hst, _, hs⟩
    · exact stays v hold he
    · simp [hz] at he
    · rw [hs] at he ⊢
      exact stays st (Inv.stored_version hst) he
  · intro w t c o f a s' hok hrun hI hpre hC hx hI' k v hv he
    -- the step is no Heartbeat for a claim that is stored Expired
    have hheart : ∀ uid id lost, o = .receive uid (.heartbeat id) → c = .serve .carryOut lost →
        ∀ k' st, t = .claim k' → w.shared.stored k' = some st → st.status.phase ≠ .expired := by
      rintro uid id lost rfl rfl k' st rfl hst
      simp only [heartbeatInTime, hrun, hst] at hok
      exact of_decide_eq_true hok
    have stays : ∀ v', Version w.shared.claims k v' → v'.status.phase = .expired →
        Over s' v'.status.leaseID := fun v' hv' he' =>
      over_step hI hI' hv' he' (hC k v' hv' he') hpre hx hheart
    rcases exec_versions (k := k) hI hpre hx with hkin | ⟨base, object, rfl, rfl, hp⟩
    · rcases hkin.version hv with hold | ⟨_, hz⟩ | ⟨st, hst, _, hs⟩
      · exact stays v hold he
      · simp [hz] at he
      · rw [hs] at he ⊢
        exact stays st (Inv.stored_version hst) he
    · rcases hp.version hI hv with hold | ⟨st, hst, _, hpat⟩
      · exact stays v hold he
      · have ho := hpat.over hI hst hC he
        rcases exec_frame hx with ⟨_, _, hc⟩ | ha
        · cases hc
        · exact ho.aside ha
  · exact fun s _ hC k v hv he => hC k v hv he

instance (s : Shared) (id : String) : Decidable (Over s id) := by
  unfold Over
  infer_instance

/-- The Lease's expiry passes, and a reconcile finds it overdue and is about to write that; the
    Holder renews before the write, and the cache has seen no more than that. -/
def overdue : List ClaimAct :=
  bound none ++ .env (.tick 40000000000) :: reconcileNow ++ operations 5 ++
    .exec (.claim claimKey) (.serve .carryOut none) :: operations 3 ++
    [.env (.renew claimKey (some 40000000)), .env (.sync claimKey 0)]

theorem expired_over_overdue : ∃ w, ReachableBy {} (fun w a => heartbeatInTime w a = true) w ∧
    phaseOf w = some .expired ∧ ExpiredOver w.shared := by
  obtain ⟨w, hr, he⟩ := exists_after heartbeatInTime (overdue ++ operations 1)
    (fun w => phaseOf w = some .expired) (by decide +kernel)
  exact ⟨w, hr, he, expired_over hr⟩

/-- The next reconcile reads the copy from before that write, with the renewal, and battery renews
    the Lease of a claim that is stored Expired. -/
theorem heartbeat_revives_expired : ∃ w st, Reachable {} w ∧
    w.shared.stored claimKey = some st ∧ st.status.phase = .expired ∧
      ¬ Over w.shared st.status.leaseID :=
  exists_stored (overdue ++ operations 2 ++ .spawn (.claim claimKey) :: operations 4 ++
    [.exec (.claim claimKey) (.serve .carryOut none)]) claimKey _ (by decide +kernel)

/-! ## 2. A pending renewal -/

/-- A status patch of a Bound claim meets the `renewTime` and the `observedRenewTime` of the copy it
    was computed from; and if these say that a renewal is pending, then battery does not hold the
    Lease with an expiry that has passed again. -/
def renewalMet (w : ClaimWorld) : ClaimAct → Bool
  | .exec (.claim k) _ =>
    match w.running (.claim k), w.shared.stored k with
    | some (.op (.patchStatus base _) _), some st =>
      st.status.phase ≠ .bound ||
        (st.spec.renewTime = base.spec.renewTime &&
          st.status.observedRenewTime = base.status.observedRenewTime &&
          (!pendingRenewal base || w.shared.battery.leases.all fun l =>
            l.leaseID ≠ st.status.leaseID || w.shared.now < l.expiresAt))
    | _, _ => true
  | _ => true

/-- Between two worlds, no claim goes from Bound to Expired with a renewal pending and its Lease
    held. -/
def RenewalKept (w w' : ClaimWorld) : Prop :=
  ∀ k st st', w.shared.stored k = some st → w'.shared.stored k = some st' →
    st.status.phase = .bound → st'.status.phase = .expired →
    st.spec.renewTime ≠ st.status.observedRenewTime →
    ∀ l ∈ w.shared.battery.leases, l.leaseID ≠ st.status.leaseID

/-- An unbound claim is not Bound. -/
theorem Unbound.phase_ne {st : MicroVMClaimStatus} (h : Unbound st) : st.phase ≠ .bound := by
  rcases h.phase with hp | hp
  · rw [hp]
    decide
  · rw [hp]
    decide

/-- A step that meets the renewal it was decided on keeps a pending one. -/
theorem step_renewal (h : Reachable r w) {a : ClaimAct} (hok : renewalMet w a = true)
    (hs : (machine r).step w a = some w') : RenewalKept w w' := by
  intro k st st' hst hst' hb he hp
  have hI := h.inv
  rcases step_versions (k := k) h.safe hs with hkin | ⟨f, base, object, g, rfl, hrun, hpatch⟩
  · rw [hkin.status hst hst', hb] at he
    cases he
  · obtain ⟨hstat, st2, hst2, hvs⟩ := hpatch
    rw [hst] at hst2
    cases hst2
    rw [current_of_cons hvs] at hst'
    cases hst'
    cases patched_status hI hstat hst with
    | touched _ same =>
      rw [same] at he
      simp [show st.status.phase = .expired from he] at hb
    | pending _ _ ust | bound _ _ _ ust => exact absurd hb ust.phase_ne
    | held ok uid _ keeps _ phase =>
      have hne := holdsLease_leaseID ok.holds
      have hid : st.status.leaseID = base.status.leaseID := (keeps.lease hne).1
      rcases phase with ⟨_, hm⟩ | ⟨hd, _⟩
      · rw [hm, hb] at he
        cases he
      · rcases ok.phase with ⟨hd', _⟩ | ⟨_, _, hg | ⟨hover, _⟩⟩
        · simp [hd] at hd'
        · rw [hid]
          exact hI.ledger.not_held_of_gone hg
        · simp only [renewalMet, hrun, hst, hb] at hok
          have hmet : (st.spec.renewTime = base.spec.renewTime ∧
              st.status.observedRenewTime = base.status.observedRenewTime) ∧
              (pendingRenewal base = false ∨ ∀ l ∈ w.shared.battery.leases,
                l.leaseID ≠ st.status.leaseID ∨ w.shared.now < l.expiresAt) := by
            simpa using hok
          intro l hl hlid
          rcases hmet with ⟨⟨hrenew, hobs⟩, hnone | hlive⟩
          · -- no renewal was pending on the copy, which shows the stored one
            have hsame : base.spec.renewTime = base.status.observedRenewTime :=
              not_not.mp (of_decide_eq_false hnone)
            exact hp (hrenew.trans (hsame.trans hobs.symm))
          · -- the Lease was found overdue
            have hpast : l.expiresAt ≤ w.shared.now := hover l hl (hlid.trans hid)
            rcases hlive l hl with hother | hlt
            · exact hother hlid
            · exact absurd hpast (Int.not_le.mpr hlt)

/-- **No pending renewal is dropped** while battery holds the Lease: in every run whose steps meet
    the renewal they were decided on, no step does it. -/
theorem pending_renewal_kept {w0 : ClaimWorld} (h0 : Start w0)
    (h : (machine r).Run (fun w a => renewalMet w a = true) w0 w) :
    (machine r).Run (fun w a => ∀ w', (machine r).step w a = some w' → RenewalKept w w') w0 w := by
  induction h with
  | start => exact .start
  | step w w' a hrun hok hs ih =>
    have hr : Reachable r w := ⟨w0, h0, hrun.mono fun _ _ _ => trivial⟩
    exact .step w w' a ih (fun w2 hs2 => step_renewal hr hok hs2) hs

/-- Battery swept the Lease; a reconcile with a renewal pending learns that from its Heartbeat and
    writes it. -/
def renewalTooLate : List ClaimAct :=
  bound none ++ .env (.tick 40000000000) :: .env (.battery (.sweep "lease-1")) ::
    .env (.renew claimKey (some 40000000)) :: reconcileNow ++ operations 4 ++
    .exec (.claim claimKey) (.serve (.refuse ⟨.notFound, "no such lease"⟩) none) :: operations 4

theorem pending_renewal_kept_too_late : ∃ w0 w, Start w0 ∧
    (machine {}).Run (fun w a => renewalMet w a = true) w0 w ∧ phaseOf w = some .expired ∧
    (machine {}).Run (fun w a => ∀ w', (machine {}).step w a = some w' → RenewalKept w w')
      w0 w := by
  obtain ⟨w, ⟨w0, h0, hrun⟩, he⟩ := exists_after renewalMet renewalTooLate
    (fun w => phaseOf w = some .expired) (by decide +kernel)
  exact ⟨w0, w, h0, hrun, he, pending_renewal_kept h0 hrun⟩

/-- A renewal of the stored claim is pending. -/
def renewalPending (w : ClaimWorld) : Bool := (w.shared.stored claimKey).any pendingRenewal

/-- Battery holds the stored claim's Lease. -/
def leaseHeld (w : ClaimWorld) : Bool :=
  (w.shared.stored claimKey).any fun st =>
    w.shared.battery.leases.any fun l => l.leaseID = st.status.leaseID

/-- The Holder's renewal lands between the reconcile's read and its write: the claim goes from
    Bound to Expired with the renewal pending and the Lease held. -/
theorem pending_renewal_expired : ∃ w w', Reachable {} w ∧
    (machine {}).step w (.exec (.claim claimKey) .ok) = some w' ∧ phaseOf w = some .bound ∧
    phaseOf w' = some .expired ∧ renewalPending w = true ∧ leaseHeld w = true :=
  exists_step overdue _ _ (by decide +kernel)

/-! ## 3. Expiry from memory -/

/-- **What `Recover` and `ExpireDeleted` expire has ended**: battery does not hold the Lease when
    they set the claim Expired, nor ever after. -/
theorem expired_from_memory (h : Reachable r w) :
    (∀ t uid id why f, w.running t = some (.op (.logExpired uid id why) f) →
      why.fromMemory = true → ∀ l ∈ w.shared.battery.leases, l.leaseID ≠ id) ∧
    ∀ uid id why, Fact.expired uid id why ∈ w.shared.history → why.fromMemory = true →
      (∃ k v, Version w.shared.claims k v ∧ v.uid = uid ∧ v.status.leaseID = id) ∧
        ∀ l ∈ w.shared.battery.leases, l.leaseID ≠ id := by
  have hI := h.inv
  refine ⟨fun t uid id why f hrun hw => ?_, fun uid id why hm hw => ?_⟩
  · have hlog : LogOk w.shared uid id why := by
      have hpre := h.pre hrun
      cases t with
      | claim | recovery => exact hpre
    exact hI.ledger.not_held_of_gone (hlog hw).1
  · obtain ⟨hg, hv⟩ := hI.expired uid id why hm hw
    exact ⟨hv, hI.ledger.not_held_of_gone hg⟩

/-- Battery sweeps the Lease and reports the MicroVM deleted; a reconcile expires the claim. -/
def deletionReported : List ClaimAct :=
  bound none ++ .env (.tick 40000000000) :: .env (.battery (.sweep "lease-1")) ::
    .env (.battery (.emit ⟨"vm-1", .vmDeletedDueToExpiry⟩)) ::
    .env (.deliver ⟨"vm-1", .vmDeletedDueToExpiry⟩) :: reconcileNow ++ operations 4

theorem expired_from_memory_reported : ∃ w, Reachable {} w ∧
    Fact.expired "uid-1" "lease-1" (.deletedVM "vm-1") ∈ w.shared.history ∧
    ∀ l ∈ w.shared.battery.leases, l.leaseID ≠ "lease-1" := by
  obtain ⟨w, hr, hm⟩ := exists_reached deletionReported
    (fun w => Fact.expired "uid-1" "lease-1" (.deletedVM "vm-1") ∈ w.shared.history)
    (by decide +kernel)
  exact ⟨w, hr, hm, ((expired_from_memory hr).2 _ _ _ hm rfl).2⟩

end BatteryOperator
