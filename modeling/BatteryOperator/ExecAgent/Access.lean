/-
  Subject:   EXEC ACCESS IMPLIES A LIVE LEASE. The Exec Agent and the Claim Controller never talk to
             each other: the agent reads a claim's phase, its MicroVM and its published expiry, and
             what it grants on is sound because of what the controller writes in every schedule.

  Assumed of battery, step by step (`leasesKept`): a Pool's threshold does not change while a Lease
  of it is held, and nobody but the Claim Controller ends a Lease before its expiry.
  * `Released` -- **only the Lease of a claim that is being deleted is released**;
  * `exec_access_live` -- **the agent grants a MicroVM only on a Lease that is not over**, or on the
    Lease of a claim that is being deleted, and no other claim ever names that MicroVM.
-/
import BatteryOperator.Claim.Renewal
import BatteryOperator.ExecAgent.Claims

namespace BatteryOperator.ExecAgent

open Lib

variable {r : MicroVMClaimReconciler} {w : ClaimWorld}

/-! ## 1. Who ends a Lease -/

/-- No threshold changes while a Lease of the Pool is held, and nobody else ends a Lease. -/
def leasesKept (w : ClaimWorld) : ClaimAct → Bool
  | .env (.battery (.drop _)) => false
  | .env (.battery (.setThreshold pool d)) =>
    w.shared.battery.leases.all fun l => l.pool ≠ pool || d = w.shared.battery.threshold pool
  | _ => true

variable {id vmUID : String} {s : Shared} {t : Time}

theorem thresholdKept_of_leasesKept {a : ClaimAct} (h : leasesKept w a = true) :
    thresholdKept id w a = true := by
  unfold leasesKept at h
  unfold thresholdKept
  split at h
  · cases h
  · rw [List.all_eq_true] at h ⊢
    intro l hl
    have hkept := h l hl
    simp only [Bool.or_eq_true] at hkept ⊢
    rcases hkept with hp | hd
    · exact .inl (.inr hp)
    · exact .inr hd
  next hne =>
    split
    · exact absurd rfl (hne _ _)
    · rfl

/-- The Lease is one of a claim that is being deleted. -/
def OfDeleting (claims : ClaimStore) (leaseID : String) : Prop :=
  ∃ k v, Version claims k v ∧ v.status.leaseID = leaseID ∧ v.deleting = true

theorem OfDeleting.grown {s' : Shared} (h : OfDeleting s.claims id) (hg : Grown s s') :
    OfDeleting s'.claims id := by
  obtain ⟨k, v, hv, hid, hd⟩ := h
  exact ⟨k, v, hg k v hv, hid, hd⟩

/-- **Only the Lease of a claim that is being deleted is given back**: one on its way out, and one
    that ended otherwise than by a sweep. -/
structure Released (claims : ClaimStore) (b : Battery) (h : List Fact) : Prop where
  marked : ∀ l ∈ b.leases, l.deleting = true → OfDeleting claims l.leaseID
  ended : ∀ id at_ cause, Fact.ended id at_ cause ∈ h → cause ≠ .swept → OfDeleting claims id

namespace Released

variable {claims : ClaimStore} {b b' : Battery} {now : Time} {h h' : List Fact}

variable (hR : Released claims b h)
include hR

/-- The history goes on with something else than an end. -/
theorem note {f : Fact} (hf : ∀ id at_ cause, f ≠ .ended id at_ cause) :
    Released claims b (f :: h) where
  marked := hR.marked
  ended id at_ cause hm := hR.ended id at_ cause <|
    (List.mem_cons.mp hm).resolve_left fun heq => hf id at_ cause heq.symm

/-- No further Lease is on its way out. -/
theorem keep
    (hl : ∀ l' ∈ b'.leases, l'.deleting = true →
      ∃ l ∈ b.leases, l.leaseID = l'.leaseID ∧ l.deleting = true) :
    Released claims b' h where
  marked l' hl' hd' := by
    obtain ⟨l, hmem, hid, hd⟩ := hl l' hl' hd'
    rw [← hid]
    exact hR.marked l hmem hd
  ended := hR.ended

/-- A new Lease is not on its way out. -/
theorem grant (id vm rid : String) (pool : PoolRef) (host : HostRef) :
    Released claims { b with leases := b.newLease now id vm rid pool host :: b.leases }
      (.leased id vm rid pool (now + b.threshold pool) :: h) := by
  refine (hR.note fun id at_ cause heq => by cases heq).keep fun l hl hd => ?_
  rcases List.mem_cons.mp hl with rfl | hl
  · cases hd
  · exact ⟨l, hl, rfl, hd⟩

/-- A Lease ends. -/
theorem finish {cause : Cause} (hd : cause ≠ .swept → OfDeleting claims id) :
    Released claims (b.remove id) (.ended id now cause :: h) where
  marked l hl := hR.marked l (List.mem_filter.mp hl).1
  ended id' at_ cause' hm hc := by
    rcases List.mem_cons.mp hm with heq | hm
    · injection heq with hid _ hcause
      rw [hid]
      exact hd (hcause ▸ hc)
    · exact hR.ended id' at_ cause' hm hc

/-- **An action of battery**, other than that someone else ends a Lease. -/
theorem act {a : BatteryAct} (hdrop : ∀ id, a ≠ .drop id) (ha : b.act now h a = some (b', h')) :
    Released claims b' h' := by
  cases Battery.act_cases ha with
  | leased id vm pool host => exact hR.grant id vm "" pool host
  | ended id l cause found why =>
    refine hR.finish fun hc => ?_
    obtain ⟨hl, hid⟩ := Ledger.find_some found
    rcases why with ⟨hswept, _⟩ | ⟨_, hd⟩ | ⟨_, hact⟩
    · exact absurd hswept hc
    · rw [← hid]
      exact hR.marked l hl hd
    · exact absurd hact (hdrop id)
  | threshold | emitted => exact hR.keep fun l hl hd => ⟨l, hl, rfl, hd⟩

/-- **An answer of battery**, if a ReleaseVM is for a claim that is being deleted. -/
theorem serve {c : Call} {sv : Serve} {x : Except BatteryError c.Answer}
    (hcall : ∀ id, c = .releaseVM id → OfDeleting claims id)
    (hs : b.serve now h c sv = some (x, b', h')) : Released claims b' h' := by
  cases Battery.serve_cases hs with
  | refused | listed => exact hR
  | granted pool rid id vm host => exact (hR.grant id vm rid pool host).note nofun
  | replayed _ rid l =>
    have hreplayed : Released claims b (.replayed rid l.leaseID :: h) := hR.note nofun
    exact hreplayed.note nofun
  | renewed id =>
    refine (hR.note fun id at_ cause heq => by cases heq).keep fun l' hl' hd' => ?_
    obtain ⟨m, hm, rfl⟩ := List.mem_map.mp hl'
    refine ⟨m, hm, ?_, ?_⟩
    · split <;> rfl
    · split at hd' <;> exact hd'
  | marked id =>
    refine ⟨fun l' hl' hd' => ?_, hR.ended⟩
    obtain ⟨m, hm, rfl⟩ := List.mem_map.mp hl'
    by_cases hmid : m.leaseID = id
    · rw [if_pos hmid]
      show OfDeleting claims m.leaseID
      rw [hmid]
      exact hcall id rfl
    · rw [if_neg hmid] at hd' ⊢
      exact hR.marked m hm hd'
  | released id => exact hR.finish fun _ => hcall id rfl

end Released

/-- A thread that releases a Lease does so for a claim that is being deleted. -/
theorem ofDeleting_of_pre {t : Thread} {uid : String}
    (hpre : Pre t (.receive uid (.releaseVM id)) s) : OfDeleting s.claims id := by
  cases t with
  | claim k =>
    obtain ⟨⟨v, hv, _, hid, _, hd⟩, _⟩ := hpre
    exact ⟨k, v, hv, hid, hd⟩
  | recovery =>
    obtain ⟨_, hc⟩ := hpre
    cases hc

theorem released_of_reachable (h : ReachableBy r (fun w a => leasesKept w a = true) w) :
    Released w.shared.claims w.shared.battery w.shared.history := by
  refine h.battery_invariant (C := fun s => Released s.claims s.battery s.history) ?_ ?_ ?_ ?_
  · intro w0 h0
    rw [h0.history]
    refine ⟨fun l hl => ?_, fun id at_ cause hm => absurd hm List.not_mem_nil⟩
    rw [h0.leases] at hl
    exact absurd hl List.not_mem_nil
  · intro s s' hR ha hg
    rw [ha.battery]
    refine ⟨fun l hl hd => (hR.marked l hl hd).grown hg, fun id at_ cause hm hc => ?_⟩
    exact (hR.ended id at_ cause (ha.mem trivial hm) hc).grown hg
  · intro w a s' hok _ hR hcl _ ha
    rw [hcl]
    refine hR.act (fun id heq => ?_) ha
    rw [heq] at hok
    cases hok
  · intro w t uid call g sv lost r0 s' _ _ _ hpre hR hcl _ hs
    rw [hcl]
    refine hR.serve (fun id heq => ?_) hs
    subst heq
    exact ofDeleting_of_pre hpre

/-! ## 2. Access -/

/-- What the agent granted on: the claim that the token names, Bound, with the MicroVM and an expiry
    after `t`. -/
theorem granted_on {get : ObjectKey → Except ApiError MicroVMClaim} {caller : Caller}
    {hostNode : String} (h : authorizeClaim (kubeClaim get) caller vmUID hostNode t = .ok ()) :
    ∃ s name o e, caller.boundSecret = some s ∧ s.name = name ++ execSecretSuffix ∧
      get ⟨s.namespace_, name⟩ = .ok o ∧ o.status.phase = .bound ∧
      o.status.microVM = some ⟨vmUID⟩ ∧ o.status.leaseExpiresAt = some e ∧ t < e := by
  obtain ⟨s, name, c, hs, hname, _, hget, hauth⟩ := authorizeClaim_ok_iff.mp h
  obtain ⟨_, _, hphase, ⟨hzero, hlt⟩, ⟨hne, hvm⟩, _⟩ := authorize_ok_iff.mp hauth
  unfold kubeClaim at hget
  split at hget
  next o ho =>
    cases hget
    -- a claim without a MicroVM, or without an expiry, reads as a zero one
    cases hm : o.status.microVM with
    | none =>
      rw [claimOf, hm] at hvm
      exact absurd hvm.symm hne
    | some vm =>
      cases he : o.status.leaseExpiresAt with
      | none =>
        rw [claimOf, he] at hzero
        exact absurd rfl hzero
      | some e =>
        rw [claimOf, hm] at hvm
        rw [claimOf, he] at hlt
        have hvm : vm.uid = vmUID := hvm
        refine ⟨s, name, o, e, hs, hname, ho, hphase, ?_, he, hlt⟩
        rw [hm, ← hvm]
  · split at hget
    · cases hget
    · cases hget

/-- The Lease on the MicroVM was created for a ClaimVM sent with the claim's uid, and at `t` it was
    not over, unless the claim is being deleted. -/
structure LiveLease (s : Shared) (st : MicroVMClaim) (vmUID : String) (t : Time) : Prop where
  leased : ∃ pool e, Precedes (.sent st.uid (.claimVM pool st.uid))
    (.leased st.status.leaseID vmUID st.uid pool e) s.history
  live : ((∃ e, lastExpiry st.status.leaseID s.history = some e ∧ t < e) ∧
      ∀ at_ cause, Fact.ended st.status.leaseID at_ cause ∈ s.history → t < at_) ∨
    st.deleting = true

/-- A claim with a recorded Lease whose published expiry is after `t`. -/
theorem liveLease_of_expiry (h : ReachableBy r (fun w a => leasesKept w a = true) w)
    {k : ObjectKey} {st : MicroVMClaim} (hst : w.shared.stored k = some st)
    (hne : st.status.leaseID ≠ "") (hvm : st.status.microVM = some ⟨vmUID⟩) {e : Time}
    (he : st.status.leaseExpiresAt = some e) (hlt : t < e) : LiveLease w.shared st vmUID t := by
  have hI := h.inv
  have hver := Inv.stored_version hst
  have hsteady : BatteryOperator.Steady st.status.leaseID w.shared.battery w.shared.now
      w.shared.history := h.steady fun _ _ => thresholdKept_of_leasesKept
  have hreleased := released_of_reachable h
  obtain ⟨e', hle, hp⟩ := hI.expiry_published hver he
  have hlt' : t < e' := Int.lt_of_lt_of_le hlt hle
  constructor
  case leased =>
    obtain ⟨c, e0, _, hl, hid, hcvm, _⟩ := ((hI.store.ok k st hver).recorded hne).answered
    have huid : st.uid ≠ "" := hI.store.named k st.uid (hI.store.created k st hver)
    rw [hvm] at hcvm
    injection hcvm with hcvm
    injection hcvm with hcvm
    rw [hid, hcvm]
    exact ⟨_, e0, hI.ledger.asked _ _ _ _ _ hl huid⟩
  case live =>
    by_cases hd : st.deleting = true
    · exact .inr hd
    · refine .inl ⟨?_, fun at_ cause hend => ?_⟩
      · obtain ⟨last, hlast, hmax⟩ := hsteady.latest e' hp
        exact ⟨last, hlast, Int.lt_of_lt_of_le hlt' hmax⟩
      · by_cases hc : cause = .swept
        · subst hc
          exact Int.lt_of_lt_of_le hlt' (hsteady.swept at_ hend e' hp)
        · -- a Lease that was given back is one of a claim being deleted, which is this one
          obtain ⟨k', v, hv, hid, hvd⟩ := hreleased.ended _ at_ cause hend hc
          have huid : st.uid = v.uid := hI.alone hver hv hne (.inl hid.symm)
          have hk : k = k' := hI.store.same_key hver hv huid
          subst hk
          exact absurd ((hI.store.keeps hst hv huid.symm).deleting hvd) hd

/-- **Exec access implies a live Lease.** Whenever `authorizeClaim`, given the time `t`, grants the
    MicroVM on what it reads of the claim its caller's token names: battery had created a Lease on
    the MicroVM for a ClaimVM sent with that claim's uid, whose last expiry is after `t` and that
    had not ended by `t`, or the claim is being deleted; and no other claim names the MicroVM,
    before or after. -/
theorem exec_access_live (h : ReachableBy r (fun w a => leasesKept w a = true) w)
    {get : ObjectKey → Except ApiError MicroVMClaim}
    (hget : ∀ key o, get key = .ok o → w.shared.stored key = some o) {caller : Caller}
    {hostNode : String} (hgrant : authorizeClaim (kubeClaim get) caller vmUID hostNode t = .ok ()) :
    ∃ s name st, caller.boundSecret = some s ∧ s.name = name ++ execSecretSuffix ∧
      w.shared.stored ⟨s.namespace_, name⟩ = some st ∧ LiveLease w.shared st vmUID t ∧
      ∀ ok w', (machine r).Run ok w w' → ∀ k v, Version w'.shared.claims k v →
        v.status.microVM = some ⟨vmUID⟩ → v.uid = st.uid := by
  obtain ⟨s, name, st, e, hs, hname, hread, _, hvm, he, hlt⟩ := granted_on hgrant
  have hst := hget _ _ hread
  have hver := Inv.stored_version hst
  have hne : st.status.leaseID ≠ "" := by
    intro hid
    simp [((h.inv.store.ok _ st hver).unbound hid).microVM] at hvm
  refine ⟨s, name, st, hs, hname, hst, liveLease_of_expiry h hst hne hvm he hlt, ?_⟩
  intro ok w' hrun k v hv hvm'
  have hI' : Inv w'.shared := ((sound r).reach h.safe hrun).inv
  exact (hI'.alone (h.grown hrun _ st hver) hv hne (.inr (hvm.trans hvm'.symm))).symm

/-- What the API server answers a read of a claim. -/
def apiRead (s : Shared) (key : ObjectKey) : Except ApiError MicroVMClaim :=
  match s.stored key with
  | some c => .ok c
  | none => .error (Shared.notFound key)

theorem apiRead_ok {key : ObjectKey} {c : MicroVMClaim} (h : apiRead s key = .ok c) :
    s.stored key = some c := by
  unfold apiRead at h
  split at h
  next hst =>
    cases h
    exact hst
  · cases h

/-- The claim's Holder, with a token bound to the claim's Secret. -/
def holder : Caller where
  user := "system:serviceaccount:default:holder"
  boundSecret := some ⟨"default", "claim-exec", "secret-1"⟩

/-- The Holder of a Bound claim with a published expiry is granted its MicroVM. -/
theorem exec_access_live_holder : ∃ w key st,
    ReachableBy {} (fun w a => leasesKept w a = true) w ∧
    authorizeClaim (kubeClaim (apiRead w.shared)) holder "vm-1" "node-1" 0 = .ok () ∧
    w.shared.stored key = some st ∧ LiveLease w.shared st "vm-1" 0 := by
  obtain ⟨w, hr, hc⟩ := exists_after leasesKept relayed
    (fun w => (w.shared.stored claimKey).map claimOf = some
      ⟨"default", "claim", "holder", .bound, "vm-1", "node-1", 30000000000⟩) (by decide +kernel)
  obtain ⟨st, hst, hof⟩ := Option.map_eq_some_iff.mp hc
  have hread : kubeClaim (apiRead w.shared) "default" "claim" = .ok (some (claimOf st)) := by
    unfold kubeClaim apiRead
    rw [show (⟨"default", "claim"⟩ : ObjectKey) = claimKey from rfl, hst]
  have hauth : authorize (claimOf st) holder "vm-1" "node-1" 0 = .ok () := by
    rw [hof]
    refine authorize_ok_iff.mpr ⟨⟨by decide, by decide⟩, ⟨_, rfl, rfl, by decide, by decide⟩, rfl,
      ⟨by decide, by decide⟩, ⟨by decide, rfl⟩, by decide, rfl⟩
  have hgrant : authorizeClaim (kubeClaim (apiRead w.shared)) holder "vm-1" "node-1" 0 = .ok () :=
    authorizeClaim_ok_iff.mpr ⟨_, "claim", _, rfl, by decide, by decide, hread, hauth⟩
  obtain ⟨_, _, st', _, _, hst', hlive, _⟩ :=
    exec_access_live hr (fun _ _ => apiRead_ok) hgrant
  exact ⟨w, _, st', hr, hgrant, hst', hlive⟩

end BatteryOperator.ExecAgent
