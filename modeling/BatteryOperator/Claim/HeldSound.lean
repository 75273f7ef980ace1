/-
  Subject:   The rest of the chain is safe: `Pending`, the steps that keep or expire a Bound claim,
             those that mirror its Host, and `Synced`.

  `Going` is what each of them starts from and leaves: a claim whose working copy is Bound has a
  status that keeps its Lease. `wp_expire` is the one place where a claim is expired, on one of two
  grounds (`Ending`).
-/
import BatteryOperator.Claim.BindSound

namespace BatteryOperator

open Lib Machine

variable {k : ObjectKey} {sc : Scope} {s s' : Shared}

/-! ## 1. Going on -/

/-- The status may be written, and a Bound one keeps the Lease. -/
structure Going (k : ObjectKey) (sc : Scope) (s : Shared) : Prop where
  ctx : Ctx k sc.original s
  same : sc.unpatched = sc.original
  binding : s.binding k = none
  status : StatusOk s k sc.original sc.object
  held : sc.object.status.phase = .bound → HeldOk s k sc.original sc.object.status

theorem Going.plan (h : Going k sc s) : Plan k sc s := ⟨h.ctx, .inl ⟨h.same, h.status⟩⟩

theorem lasting_going (sc : Scope) : Lasting k (Going k sc) := fun s s' h hR hI =>
  ⟨lasting_ctx _ s s' h.ctx hR hI, h.same, lasting_binding none s s' h.binding hR hI,
    (lasting_statusOk _ _ s s' ⟨h.ctx, h.status⟩ hR hI).2,
    fun hb => (lasting_heldOk s s' ⟨h.ctx, h.held hb⟩ hR hI).2⟩

theorem Going.called (h : Going k sc s) (method : String) (err : Option BatteryError) :
    Going k (sc.called method err) s := { h with }

/-- A status that keeps or ends the Lease may be written. -/
theorem Going.of_held (hc : Ctx k sc.original s) (hs : sc.unpatched = sc.original)
    (hb : s.binding k = none) (hd : HeldOk s k sc.original sc.object.status) : Going k sc s :=
  ⟨hc, hs, hb, ⟨hc.version, .inl ⟨hb, .inr (.inr hd)⟩⟩, fun _ => hd⟩

theorem Going.setCondition (h : Going k sc s) {type : ClaimCondition} (hne : type ≠ .bound)
    (status : ConditionStatus) (reason message : String) (now : Time) :
    Going k (sc.setCondition type status reason message now) s :=
  ⟨h.ctx, h.same, h.binding, h.status.conditions (boundOf_set hne),
    fun hb => (h.held hb).conditions (boundOf_set hne)⟩

/-- The working copy is the copy read but for its status. -/
theorem Going.meta_eq (h : Going k sc s) : sc.object.uid = sc.original.uid ∧
    sc.object.spec = sc.original.spec ∧ poolOf sc.object = poolOf sc.original ∧
    sc.object.deleting = sc.original.deleting := by
  have hs := h.same
  refine ⟨?_, ?_, ?_, ?_⟩
  · rw [← hs]
    rfl
  · rw [← hs]
    rfl
  · rw [← hs]
    rfl
  · rw [← hs]
    rfl

theorem Going.heldOk (h : Going k sc s) (hh : holdsLease sc.object = true) :
    HeldOk s k sc.original sc.object.status := h.held (holdsLease_iff.mp hh).1

/-! ## 2. Pending -/

/-- A copy that is Bound keeps its Lease. -/
theorem Tried.heldOk (h : Tried k sc s) (hne : sc.original.status.leaseID ≠ "")
    (hb : sc.original.status.phase = .bound) : HeldOk s k sc.original sc.original.status where
  holds := holdsLease_iff.mpr ⟨hb, hne, h.live⟩
  kept := h.kept
  leaseID := rfl
  microVM := rfl
  nodeName := rfl
  boundTime := rfl
  expiry := .inl rfl
  observed := .inl rfl
  phase := .inl ⟨hb, rfl⟩

theorem Tried.going (hI : Inv s) (h : Tried k sc s) : Going k sc s := by
  refine ⟨h.ctx, h.unpatched, h.binding, ?_, fun hb => ?_⟩
  · refine ⟨h.ctx.version, .inl ⟨h.binding, .inl ?_⟩⟩
    rw [h.object]
    exact TouchOk.refl sc.original
  · rw [h.object] at hb ⊢
    rcases h.lease with ⟨hne, _⟩ | ⟨he, _⟩
    · exact h.heldOk hne hb
    · -- a copy without a Lease is not Bound
      rcases ((hI.store.ok k _ h.ctx.version).unbound he).phase with hp | hp
      · simp [hp] at hb
      · simp [hp] at hb

/-- A claim that records a Lease, and whose chain called nobody, has no reason to be Pending. -/
theorem Tried.pendingReason (h : Tried k sc s) {reason : String × String}
    (hp : pendingReason sc (claimError sc) = some reason) :
    sc.original.status.leaseID = "" ∧ Awaiting s k sc.original.uid (poolOf sc.original) := by
  rcases h.lease with ⟨_, hcall, hpool⟩ | hl
  · simp [BatteryOperator.pendingReason, claimError, hcall, hpool] at hp
  · exact hl

section Steps

variable {r : MicroVMClaimReconciler}

theorem wp_pending (p : Pending) (h : Tried k sc s) :
    Wp r k (p.reconcile sc) (After k (Going k)) s := by
  unfold Pending.reconcile
  split
  · exact wp_ret (lasting_tried sc) h fun s' hI ht => ⟨ht.plan, fun _ _ => ht.going hI⟩
  next reason message hp =>
    refine wp_now (lasting_tried sc) h fun now s1 _ h1 _ => ?_
    refine wp_ret (lasting_tried sc) h1 fun s2 _ ht => ?_
    obtain ⟨he, ha⟩ := ht.pendingReason hp
    have hgo : Going k ((sc.setStatus { sc.object.status with phase := .pending }).setCondition
        .bound .false reason message now) s2 := by
      refine ⟨ht.ctx, ?_, ht.binding, ⟨ht.ctx.version, .inl ⟨ht.binding, .inr (.inl ?_)⟩⟩, ?_⟩
      · exact ht.unpatched
      · refine ⟨he, ha, ?_, reason, boundOf_set_bound rfl⟩
        rw [ht.object]
        rfl
      · nofun
    exact ⟨hgo.plan, fun _ _ => hgo⟩

/-! ## 3. Expiring a claim -/

/-- Why a claim may be expired: its Lease has ended, or, not from memory, battery holds it with a
    passed expiry and no renewal is pending on the copy. -/
def Ending (sc : Scope) (why : Why) (s : Shared) : Prop :=
  Gone s.history sc.original.status.leaseID ∨
    (why.fromMemory = false ∧ Over s sc.original.status.leaseID ∧
      sc.object.status.observedRenewTime = sc.original.spec.renewTime)

theorem lasting_ending (sc : Scope) (why : Why) : Lasting k fun s =>
    (Going k sc s ∧ sc.original.status.leaseID ≠ "") ∧ Ending sc why s := by
  intro s s' hpre hR hI
  obtain ⟨⟨hg, hne⟩, he⟩ := hpre
  refine ⟨⟨lasting_going sc s s' hg hR hI, hne⟩, ?_⟩
  rcases he with hgone | ⟨hw, ho, hobs⟩
  · exact .inl (hgone.mono (Rely.history hR))
  · have ho' := (lasting_over hne s s' ⟨hg.ctx.version, hg.ctx.created, ho⟩ hR hI).2.2
    exact .inr ⟨hw, ho', hobs⟩

/-- The plan to expire a claim. -/
theorem Going.expired (h : Going k sc s) (hh : holdsLease sc.object = true) {why : Why}
    (he : Ending sc why s) (now : Time) (message : String) :
    Plan k ((sc.setStatus { sc.object.status with phase := .expired }).setCondition
      .bound .false reasonLeaseExpired message now) s := by
  have hd := h.heldOk hh
  refine ⟨h.ctx, .inl ⟨h.same, h.ctx.version, .inl ⟨h.binding, .inr (.inr ?_)⟩⟩⟩
  exact { holds := hd.holds, kept := hd.kept, leaseID := hd.leaseID, microVM := hd.microVM
          nodeName := hd.nodeName, boundTime := hd.boundTime, expiry := hd.expiry
          observed := hd.observed
          phase := .inr ⟨rfl, boundOf_set_bound rfl, he.imp id And.right⟩ }

/-- **A claim is expired**, and the chain stops. -/
theorem wp_expire {Q : Scope → Shared → Prop} (h : Going k sc s)
    (hh : holdsLease sc.object = true) {why : Why} (he : Ending sc why s) :
    Wp r k (do
      let sc ← expire sc why
      pure (.stopped sc)) (After k Q) s := by
  have hlast := lasting_ending (k := k) sc why
  have hne : sc.original.status.leaseID ≠ "" := holdsLease_leaseID (h.heldOk hh).holds
  refine wp_bind (Rely.refl _) _ _ ?_
  unfold expire
  refine wp_now hlast ⟨⟨h, hne⟩, he⟩ fun now s1 _ h1 _ => ?_
  refine wp_calm hlast rfl h1 ?_ ?_
  · intro s2 hI hpre hmem
    obtain ⟨⟨hg, _⟩, he2⟩ := hpre
    -- from memory there is one ground only
    have hgone : Gone s2.history sc.original.status.leaseID := by
      rcases he2 with hgone | ⟨hw, _⟩
      · exact hgone
      · simp [hw] at hmem
    have hid : sc.object.status.leaseID = sc.original.status.leaseID := (hg.heldOk hh).leaseID
    refine ⟨?_, k, sc.original, hg.ctx.version, hg.meta_eq.1.symm, hid.symm⟩
    show Gone s2.history sc.object.status.leaseID
    rw [hid]
    exact hgone
  · intro s2 _ _ s3 _ _ _ _ hp
    refine wp_ret hlast hp fun s4 _ hp4 => ?_
    refine wp_ret hlast hp4 fun s5 _ hp5 => ?_
    exact After.stopped (hp5.1.1.expired hh hp5.2 now why.text) rfl

/-! ## 4. From memory -/

theorem wp_goOn (h : Going k sc s) {result : Result} :
    Wp r k (pure { scope := sc, result := result }) (After k (Going k)) s :=
  wp_ret (lasting_going sc) h fun _ _ hp => ⟨hp.plan, fun _ _ => hp⟩

theorem wp_failed (h : Going k sc s) {result : Result} {err : String} :
    Wp r k (pure { scope := sc, result := result, err := some err }) (After k (Going k)) s :=
  wp_ret (lasting_going sc) h fun _ _ hp => After.failed hp.plan

theorem wp_expireDeleted (h : Going k sc s) :
    Wp r k (ExpireDeleted.reconcile sc) (After k (Going k)) s := by
  unfold ExpireDeleted.reconcile
  split
  · exact wp_goOn h
  rename_i hh
  rw [Bool.not_eq_true', Bool.not_eq_false] at hh
  split
  · exact wp_goOn h
  next vm hvm =>
    refine wp_calm (lasting_going sc) rfl h (fun _ _ _ => trivial)
      fun s1 c a s2 hI hg hx hI' hg' => ?_
    cases hx
    split
    · exact wp_goOn hg'
    next ha =>
      -- an event reported the MicroVM deleted, so its Lease has ended
      have hd := hg.heldOk hh
      obtain ⟨vm', e, hvm', hl⟩ := hg.ctx.leased hI (holdsLease_leaseID hd.holds)
      obtain ⟨ev, hev, hrep, hevm⟩ := hI.memory.deleted vm.uid (by simpa using ha)
      have heq : vm.uid = vm' := by
        have := hd.microVM
        rw [hvm, hvm'] at this
        rw [Option.some.inj this]
      exact wp_expire hg hh
        (.inl (hI.ledger.gone_of_reported hl hev hrep (hevm.trans heq)))

/-- An expiry battery set may be written into a Bound status. -/
theorem Going.setExpiry (h : Going k sc s) (hh : holdsLease sc.object = true) {e : Time}
    (hp : Published s.history sc.original.status.leaseID e) :
    Going k (sc.setStatus { sc.object.status with leaseExpiresAt := some e }) s := by
  have hd := h.heldOk hh
  refine Going.of_held h.ctx h.same h.binding ?_
  exact { hd with expiry := .inr ⟨e, rfl, hp⟩ }

theorem wp_recover (h : Going k sc s) :
    Wp r k (Recover.reconcile sc) (After k (Going k)) s := by
  unfold Recover.reconcile
  split
  · exact wp_goOn h
  rename_i hh
  rw [Bool.not_eq_true', Bool.not_eq_false] at hh
  refine wp_calm (lasting_going sc) rfl h (fun _ _ _ => trivial)
    fun s1 c a s2 hI hg hx hI' hg' => ?_
  cases hx
  have hid : sc.object.status.leaseID = sc.original.status.leaseID := (hg.heldOk hh).leaseID
  have hl : s1.recovered.lookup sc.object.status.leaseID =
    ((s1.recovered.lookup sc.object.status.leaseID).1,
      (s1.recovered.lookup sc.object.status.leaseID).2) := rfl
  have hmem := (RecoveredLeases.lookup_mem hl).1
  split
  · exact wp_goOn hg'
  next hnone =>
    have hgone := hI.memory.unlisted _ (hmem none hnone)
    rw [hid] at hgone
    exact wp_expire (hg'.called methodListLeases none) hh (.inl hgone)
  next rec hrec =>
    have hpub := hI.memory.listed _ rec (hmem (some rec) hrec)
    rw [hid] at hpub
    have hcalled := hg'.called methodListLeases none
    -- a later expiry is taken over, another one is dropped
    have htaken := hcalled.setExpiry hh hpub
    simp only
    split
    · exact wp_goOn htaken
    · split
      · exact wp_goOn htaken
      · exact wp_goOn hcalled

/-! ## 5. From battery -/

/-- `until` and `retryAfter` only read. -/
theorem wp_until {t : Time} (h : Going k sc s) :
    Wp r k (do
      let after ← until_ t
      pure { scope := sc, result := { requeueAfter := after } }) (After k (Going k)) s :=
  wp_now (lasting_going sc) h fun _ _ _ hp _ => wp_goOn hp

theorem wp_retryAfter {b : Backoff} (h : Going k sc s) :
    Wp r k (do
      let after ← retryAfter sc b
      pure { scope := sc, result := { requeueAfter := after } }) (After k (Going k)) s :=
  wp_now (lasting_going sc) h fun _ _ _ hp _ => wp_goOn hp

/-- A working copy that is Bound has the Bound condition of the copy read. -/
theorem Going.boundOf_eq (h : Going k sc s) (hh : holdsLease sc.object = true) :
    boundOf sc.object.status.conditions = boundOf sc.original.status.conditions := by
  rcases (h.heldOk hh).phase with ⟨_, hb⟩ | ⟨hp, _⟩
  · exact hb
  · simp [(holdsLease_iff.mp hh).1] at hp

/-- The scope after a call that leaves the claims alone. -/
theorem Going.move (h : Going k sc s) (hh : holdsLease sc.object = true)
    (hcl : s'.claims = s.claims) (hrev : s'.revision = s.revision)
    (hb : s'.binding k = none) (hle : s.history <:+ s'.history) : Going k sc s' := by
  have hd := h.heldOk hh
  refine Going.of_held (h.ctx.move hcl hrev hle) h.same hb ?_
  refine { hd with
    kept := by rw [hcl]; exact hd.kept
    expiry := ?_
    observed := ?_
    phase := .inl ⟨(holdsLease_iff.mp hh).1, h.boundOf_eq hh⟩ }
  · rcases hd.expiry with heq | ⟨e, he, hp⟩
    · exact .inl heq
    · exact .inr ⟨e, he, hp.mono hle⟩
  · rcases hd.observed with heq | ⟨heq, hr⟩
    · exact .inl heq
    · exact .inr ⟨heq, fun r hr' => (hr r hr').mono hle⟩

/-- **The answer to a Heartbeat**: NOT_FOUND for a Lease that has ended, or the expiry battery set
    after it read the call. -/
theorem heartbeat_answer {c : MicroVMClaim} (hI : Inv s) (hc : Ctx k c s)
    (hne : c.status.leaseID ≠ "") {f : Choice}
    {res : Except BatteryError (Call.heartbeat c.status.leaseID).Answer}
    (hx : execReceive (.claim k) (.heartbeat c.status.leaseID) s f = some (res, s')) :
    s'.binding = s.binding ∧
      (∀ e, res = .error e → e.kind = .notFound → Gone s'.history c.status.leaseID) ∧
      ∀ e, res = .ok e → Published s'.history c.status.leaseID e ∧
        ∀ r, c.spec.renewTime = some r → Relayed s'.history c.uid c.status.leaseID r := by
  cases execReceive_cases hx with
  | lost e ha | dropped _ _ _ _ _ e ha =>
    refine ⟨rfl, fun e' he' hk => ?_, nofun⟩
    cases he'
    exact absurd hk (kind_ne_notFound ha)
  | served _ _ _ _ hs =>
    cases Battery.serve_cases hs with
    | refused _ e may =>
      refine ⟨rfl, fun e' he' hk => ?_, nofun⟩
      cases he'
      exact hc.gone hI hne (Battery.find_of_mayRefuse hk may)
    | renewed =>
      refine ⟨rfl, nofun, fun e' he' => ?_⟩
      cases he'
      refine ⟨.inr List.mem_cons_self, fun r hr => ?_⟩
      have hw := (hI.store.ok k c hc.version).renewTime r hr
      exact .inr (.inl ⟨_, precedes_cons_self hw⟩)

/-- A renewal battery confirmed may be written into a Bound status. -/
theorem Going.renewed (h : Going k sc s) (hh : holdsLease sc.object = true) {e : Time}
    (hp : Published s.history sc.original.status.leaseID e)
    (hr : ∀ r, sc.original.spec.renewTime = some r →
      Relayed s.history sc.original.uid sc.original.status.leaseID r) :
    Going k (sc.setStatus { sc.object.status with
      leaseExpiresAt := some e, observedRenewTime := sc.original.spec.renewTime }) s := by
  have hd := h.heldOk hh
  refine Going.of_held h.ctx h.same h.binding ?_
  exact { hd with
    expiry := .inr ⟨e, rfl, hp⟩
    observed := .inr ⟨rfl, hr⟩
    phase := .inl ⟨(holdsLease_iff.mp hh).1, h.boundOf_eq hh⟩ }

theorem wp_renew (b : Renew) (h : Going k sc s) :
    Wp r k (b.reconcile sc) (After k (Going k)) s := by
  have hlast := lasting_going (k := k) sc
  unfold Renew.reconcile
  split
  · exact wp_goOn h
  rename_i hskip
  obtain ⟨hh, _⟩ : holdsLease sc.object = true ∧ pendingRenewal sc.object = true := by
    simpa using hskip
  have hne := holdsLease_leaseID (h.heldOk hh).holds
  have hid : sc.object.status.leaseID = sc.original.status.leaseID := (h.heldOk hh).leaseID
  have hspec : sc.object.spec = sc.original.spec := h.meta_eq.2.1
  rw [h.meta_eq.1, hid, hspec]
  refine wp_callBattery hlast rfl h (fun _ hg => hg.binding) (fun s1 _ hg => ?_)
    fun s1 c a s2 hI hg hx hI' => ?_
  · exact ⟨sc.original, hg.ctx.version, rfl, rfl, hne, (hg.heldOk hh).kept⟩
  obtain ⟨hcl, hrev, _, hle⟩ := receive_frame hx
  obtain ⟨hbind, hnf, hok⟩ := heartbeat_answer hI hg.ctx hne hx
  have hg2 : Going k sc s2 :=
    hg.move hh hcl hrev (by rw [hbind]; exact hg.binding) hle
  cases a with
  | error e =>
    have hcalled := hg2.called methodHeartbeat (some e)
    dsimp only
    split
    next hk => exact wp_expire hcalled hh (.inl (hnf e rfl hk))
    · split
      · exact wp_retryAfter hcalled
      · exact wp_failed hcalled
  | ok e =>
    obtain ⟨hpub, hrel⟩ := hok e rfl
    exact wp_until ((hg2.called methodHeartbeat none).renewed hh hpub hrel)

/-- **The answer to a ListLeases on the claim's Pool**: a Lease that is not listed has ended, and a
    listed one is listed as battery holds it. -/
theorem listLeases_answer {c : MicroVMClaim} (hI : Inv s) (hc : Ctx k c s)
    (hne : c.status.leaseID ≠ "") {t : Thread} {f : Choice} {leases : List LeaseRecord}
    (hx : execReceive t (.listLeases (some (poolOf c))) s f = some (.ok leases, s')) :
    (leases.find? (fun l => l.leaseID = c.status.leaseID) = none →
      Gone s.history c.status.leaseID) ∧
    ∀ rec, leases.find? (fun l => l.leaseID = c.status.leaseID) = some rec →
      Published s.history c.status.leaseID rec.expiresAt ∧
        (rec.expiresAt ≤ s.now → Over s c.status.leaseID) := by
  cases execReceive_cases hx with | served _ _ _ _ hs =>
  cases Battery.serve_cases hs with | listed _ _ hlist =>
  obtain ⟨vm, e, _, hl⟩ := hc.leased hI hne
  -- battery holds the Lease, if at all, in the claim's Pool
  have pool : ∀ l ∈ s.battery.leases, l.leaseID = c.status.leaseID → l.pool = poolOf c := by
    intro l hm hid
    obtain ⟨_, _, hp⟩ := hI.ledger.held_as_leased hm hl hid
    exact hp
  constructor
  · intro hnone
    refine hI.ledger.gone_of_not_held hl fun l hm hid => ?_
    have hrec : l.toLeaseRecord ∈ leases :=
      (hlist _).mpr ⟨l, hm, rfl, .inr (by rw [pool l hm hid])⟩
    have := List.find?_eq_none.mp hnone _ hrec
    simp [hid] at this
  · intro rec hsome
    obtain ⟨l, hm, heq, _⟩ := (hlist rec).mp (List.mem_of_find?_eq_some hsome)
    have hid : rec.leaseID = c.status.leaseID := by simpa using List.find?_some hsome
    subst heq
    refine ⟨?_, fun hle l' hm' hid' => ?_⟩
    · rw [← hid]
      exact hI.ledger.current l hm
    · rw [hI.ledger.same l' hm' l hm (hid'.trans hid.symm)]
      exact hle

theorem wp_settle (h : Going k sc s) (hh : holdsLease sc.object = true)
    (hobs : sc.object.status.observedRenewTime = sc.original.spec.renewTime) {now : Time}
    (hnow : now ≤ s.now) {leases : List LeaseRecord}
    (hnone : leases.find? (fun l => l.leaseID = sc.original.status.leaseID) = none →
      Gone s.history sc.original.status.leaseID)
    (hsome : ∀ rec, leases.find? (fun l => l.leaseID = sc.original.status.leaseID) = some rec →
      Published s.history sc.original.status.leaseID rec.expiresAt ∧
        (rec.expiresAt ≤ s.now → Over s sc.original.status.leaseID)) :
    Wp r k (CheckExpiry.settle sc now leases) (After k (Going k)) s := by
  unfold CheckExpiry.settle
  rw [(h.heldOk hh).leaseID]
  simp only
  split
  next hf => exact wp_expire h hh (.inl (hnone hf))
  next rec hf =>
    obtain ⟨hpub, hover⟩ := hsome rec hf
    split
    next hle => exact wp_expire h hh (.inr ⟨rfl, hover (Int.le_trans hle hnow), hobs⟩)
    · exact wp_until (h.setExpiry hh hpub)

theorem wp_checkExpiry (b : CheckExpiry) (h : Going k sc s) :
    Wp r k (b.reconcile sc) (After k (Going k)) s := by
  have hlast := lasting_going (k := k) sc
  unfold CheckExpiry.reconcile
  split
  · exact wp_goOn h
  rename_i hskip
  obtain ⟨hh, hpend⟩ : holdsLease sc.object = true ∧ pendingRenewal sc.object = false := by
    simpa using hskip
  have hne := holdsLease_leaseID (h.heldOk hh).holds
  -- no renewal is pending, on the copy
  have hobs : sc.object.status.observedRenewTime = sc.original.spec.renewTime := by
    rw [← h.meta_eq.2.1]
    unfold pendingRenewal at hpend
    exact (not_not.mp (of_decide_eq_false hpend)).symm
  refine wp_now hlast h fun now s1 _ h1 hnow => ?_
  cases comingExpiry sc.object now with
  | some exp => exact wp_until h1
  | none =>
    simp only
    rw [h.meta_eq.2.2.1]
    refine wp_callBattery (hlast.and (lasting_now now)) rfl ⟨h1, hnow⟩ (fun _ hp => hp.1.binding)
      (fun _ _ _ => trivial) ?_
    intro s2 c a s3 hI hpre hx hI'
    obtain ⟨hg, hnow2⟩ := hpre
    have hsame : s3 = s2 := receive_listLeases hx
    subst hsame
    cases a with
    | error err =>
      have hcalled := hg.called methodListLeases (some err)
      simp only
      split
      · exact wp_retryAfter hcalled
      · exact wp_failed hcalled
    | ok leases =>
      obtain ⟨hnone, hsome⟩ := listLeases_answer hI hg.ctx hne hx
      exact wp_settle (hg.called methodListLeases none) hh hobs hnow2 hnone hsome

/-! ## 6. The Host, and the last call -/

/-- A Bound claim's Host may get another address. -/
theorem Going.setAddress (h : Going k sc s) {host : HostReference}
    (hb : boundNode sc.object = some host) (address : String) :
    Going k (sc.setStatus { sc.object.status with host := some ⟨host.nodeName, address⟩ }) s := by
  obtain ⟨hphase, hb⟩ := Option.ite_none_right_eq_some.mp hb
  have hd := h.held hphase
  have hhost : sc.object.status.host = some host := (Option.filter_eq_some_iff.mp hb).1
  have hnode : some host.nodeName = sc.original.status.nodeName := by
    rw [← hd.nodeName]
    unfold MicroVMClaimStatus.nodeName
    rw [hhost]
    rfl
  exact Going.of_held h.ctx h.same h.binding { hd with nodeName := hnode }

theorem wp_agentAddress (h : Going k sc s) :
    Wp r k (AgentAddress.reconcile sc) (After k (Going k)) s := by
  have hlast := lasting_going (k := k) sc
  unfold AgentAddress.reconcile
  cases hb : boundNode sc.object with
  | none => exact wp_goOn h
  | some host =>
    refine wp_calm hlast rfl h (fun _ _ _ => trivial) fun s1 c a s2 _ _ _ _ hg => ?_
    simp only
    split
    · exact wp_failed hg
    next address _ =>
      refine wp_now hlast hg fun now s3 _ hp _ => ?_
      have hset := hp.setAddress hb address
      split
      · exact wp_goOn (hset.setCondition (by decide) _ _ _ _)
      · exact wp_goOn (hset.setCondition (by decide) _ _ _ _)

theorem wp_hostReady (h : Going k sc s) :
    Wp r k (HostReady.reconcile sc) (After k (Going k)) s := by
  have hlast := lasting_going (k := k) sc
  unfold HostReady.reconcile
  cases boundNode sc.object with
  | none => exact wp_goOn h
  | some host =>
    refine wp_now hlast h fun now s1 _ h1 _ => ?_
    refine wp_calm hlast rfl h1 (fun _ _ _ => trivial) fun s2 c a s3 _ _ _ _ hg => ?_
    simp only
    split
    · exact wp_failed hg
    · exact wp_goOn (hg.setCondition (by decide) _ _ _ _)

theorem wp_synced (h : Plan k sc s) :
    Wp r k (Synced.reconcile sc) (fun o => Plan k o.scope) s := by
  unfold Synced.reconcile
  cases sc.batteryCall with
  | none => exact wp_ret (lasting_plan sc) h fun _ _ hp => hp
  | some call =>
    refine wp_now (lasting_plan sc) h fun now s1 _ h1 _ => ?_
    exact wp_ret (lasting_plan _) (h1.setCondition (by decide) _ _ _ _) fun _ _ hp => hp

end Steps

end BatteryOperator
