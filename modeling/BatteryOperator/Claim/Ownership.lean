/-
  Subject:   WHO OWNS A LEASE. In every interleaving of reconciles, Holders, battery and crashes:

  * `lease_ownership` -- a claim records one Lease, from one answer to its own ClaimVM, and nobody
    else records it;
  * `no_lease_outlives_claim` -- a claim that recorded a Lease leaves the API server after the
    Lease, and one with a ClaimVM outstanding stays;
  * `bind_converges` -- of the Leases battery created for a claim, the recorded one is the last;
  * `live_lease_not_released` -- only a claim being deleted has its Lease released.
-/
import BatteryOperator.Claim.Versions

namespace BatteryOperator

open Lib Machine

variable {r : MicroVMClaimReconciler} {w w' : ClaimWorld}

/-! ## 1. A claim that binds -/

def claimKey : ObjectKey := ⟨"default", "claim"⟩

/-- So many operations of the claim's reconcile that work. -/
def operations (n : Nat) : List ClaimAct := List.replicate n (.exec (.claim claimKey) .ok)

/-- The cache catches up and a reconcile starts. -/
def reconcileNow : List ClaimAct := [.env (.sync claimKey 0), .spawn (.claim claimKey)]

/-- The claim is created, a first reconcile adds the finalizer, and a second one sends its
    ClaimVM. -/
def claimSent (renewTime : Option MicroTime) : List ClaimAct :=
  .env (.create claimKey "uid-1" [] ⟨"pool", renewTime, "holder"⟩) :: reconcileNow ++
    operations 3 ++ reconcileNow ++ operations 5

/-- Battery leases a MicroVM. -/
def granted : ClaimAct :=
  .exec (.claim claimKey) (.serve (.grant "lease-1" "vm-1" ⟨"node-1", ""⟩) none)

/-- Battery has no MicroVM left. -/
def exhausted : ClaimAct :=
  .exec (.claim claimKey) (.serve (.refuse ⟨.exhausted, "no MicroVM available"⟩) none)

/-- The claim is Bound. -/
def bound (renewTime : Option MicroTime) : List ClaimAct :=
  claimSent renewTime ++ granted :: operations 5

/-- The stored phase of the claim. -/
def phaseOf (w : ClaimWorld) : Option MicroVMClaimPhase :=
  (w.shared.stored claimKey).map fun c => c.status.phase

/-! ## 2. Phases -/

/-- How a stored phase may move in one step. -/
def PhaseMove (p p' : MicroVMClaimPhase) : Prop :=
  p' = p ∨ (p = .empty ∧ p' = .pending) ∨ ((p = .empty ∨ p = .pending) ∧ p' = .bound) ∨
    (p = .bound ∧ p' = .expired)

variable {s : Shared} {k : ObjectKey}

theorem Patched.phaseMove {base st : MicroVMClaim} {d m : MicroVMClaimStatus} (hI : Inv s)
    (hst : s.stored k = some st) (h : Patched s k base d st m) :
    PhaseMove st.status.phase m.phase := by
  cases h with
  | touched _ same =>
    rw [same]
    exact .inl rfl
  | pending _ _ ust same =>
    rw [same]
    show PhaseMove st.status.phase (mergeField base.status.phase .pending st.status.phase)
    rcases mergeField_cases base.status.phase MicroVMClaimPhase.pending st.status.phase with
      ⟨_, hm⟩ | ⟨_, hm⟩
    · rw [hm]
      exact .inl rfl
    · rw [hm]
      rcases ust.phase with he | hp
      · exact .inr (.inl ⟨he, rfl⟩)
      · exact .inl hp.symm
  | held ok uid bound keeps _ phase =>
    have hne := holdsLease_leaseID ok.holds
    have hrec := (hI.store.ok k st (Inv.stored_version hst)).recorded
      (by rw [(keeps.lease hne).1]; exact hne)
    rcases phase with ⟨_, hm⟩ | ⟨_, hm⟩
    · rw [hm]
      exact .inl rfl
    · rw [hm]
      rcases hrec.phase with hb | he
      · exact .inr (.inr (.inr ⟨hb, rfl⟩))
      · exact .inl he.symm
  | bound _ _ _ ust _ phase =>
    rw [phase]
    exact .inr (.inr (.inl ⟨ust.phase, rfl⟩))

/-- **A step moves the phase of a stored claim forward.** -/
theorem step_phase {a : ClaimAct} (hw : Safe (machine r) claimSpec w)
    (hs : (machine r).step w a = some w') {st st' : MicroVMClaim}
    (hst : w.shared.stored k = some st) (hst' : w'.shared.stored k = some st') :
    PhaseMove st.status.phase st'.status.phase := by
  rcases step_versions (k := k) hw hs with h | ⟨_, base, object, _, _, _, hp⟩
  · rw [h.status hst hst']
    exact .inl rfl
  · obtain ⟨hok, st2, hst2, hvs⟩ := hp
    rw [hst] at hst2
    cases hst2
    rw [current_of_cons hvs] at hst'
    cases hst'
    exact (patched_status hw.inv hok hst).phaseMove hw.inv hst

/-! ## 3. Ownership -/

/-- What a newer version of one claim has of an older one that records a Lease. -/
def WrittenOnce (new old : Option MicroVMClaim) : Prop :=
  ∀ n o, new = some n → old = some o → o.uid = n.uid → o.status.leaseID ≠ "" →
    n.status.leaseID = o.status.leaseID ∧ n.status.microVM = o.status.microVM ∧
      n.status.nodeName = o.status.nodeName

/-- **Who owns a Lease**, in one world. -/
structure Ownership (r : MicroVMClaimReconciler) (w : ClaimWorld) : Prop where
  /-- The Lease, the MicroVM and the Node are written once. -/
  once : ∀ k, (w.shared.claims k).versions.Pairwise WrittenOnce
  /-- They come from one answer to a ClaimVM sent with the claim's uid, and none comes alone. -/
  answer : ∀ k v, Version w.shared.claims k v →
    (v.status.leaseID = "" ∧ v.status.microVM = none ∧ v.status.nodeName = none) ∨
      ∃ c p, Precedes (.sent v.uid (.claimVM p v.uid)) (.replied v.uid c) w.shared.history ∧
        v.status.leaseID = c.leaseID ∧ v.status.microVM = some ⟨c.vmUID⟩ ∧
        v.status.nodeName = some c.host.name
  /-- The phase moves from empty to Pending, from either to Bound, and from Bound to Expired. -/
  phase : ∀ a w', (machine r).step w a = some w' → ∀ k st st', w.shared.stored k = some st →
    w'.shared.stored k = some st' → PhaseMove st.status.phase st'.status.phase
  /-- A lease id about to be sent is recorded by the claim it is sent for. -/
  sent : ∀ t uid call f, w.running t = some (.op (.send uid call) f) →
    ∀ id, call = .heartbeat id ∨ call = .releaseVM id →
      ∃ k v, t = .claim k ∧ Version w.shared.claims k v ∧ v.uid = uid ∧ v.status.leaseID = id ∧
        id ≠ ""
  /-- No other claim records the Lease or the MicroVM. -/
  alone : ∀ k v k' v', Version w.shared.claims k v → Version w.shared.claims k' v' →
    v.status.leaseID ≠ "" →
    v.status.leaseID = v'.status.leaseID ∨ v.status.microVM = v'.status.microVM → v.uid = v'.uid

namespace Inv

variable {s : Shared}

/-- The answer a recorded Lease comes from. -/
theorem answer (hI : Inv s) {v : MicroVMClaim} (hv : Version s.claims k v)
    (hne : v.status.leaseID ≠ "") :
    ∃ c p, Precedes (.sent v.uid (.claimVM p v.uid)) (.replied v.uid c) s.history ∧
      v.status.leaseID = c.leaseID ∧ v.status.microVM = some ⟨c.vmUID⟩ ∧
      v.status.nodeName = some c.host.name := by
  obtain ⟨c, _, hr, _, hid, hvm, hn⟩ := ((hI.store.ok k v hv).recorded hne).answered
  obtain ⟨_, p, _, _, hp⟩ := hI.ledger.replied _ _ hr
  exact ⟨c, p, hp, hid, hvm, hn⟩

/-- Two versions with one Lease, or one MicroVM, are of one claim. -/
theorem alone (hI : Inv s) {k' : ObjectKey} {v v' : MicroVMClaim} (hv : Version s.claims k v)
    (hv' : Version s.claims k' v') (hne : v.status.leaseID ≠ "")
    (heq : v.status.leaseID = v'.status.leaseID ∨ v.status.microVM = v'.status.microVM) :
    v.uid = v'.uid := by
  obtain ⟨c, e, _, hl, hid, hvm, _⟩ := ((hI.store.ok k v hv).recorded hne).answered
  have hne' : v'.status.leaseID ≠ "" := by
    intro he
    rcases heq with h | h
    · exact hne (h.trans he)
    · have hu := (hI.store.ok k' v' hv').unbound he
      simp [hvm, hu.microVM] at h
  obtain ⟨c', e', _, hl', hid', hvm', _⟩ := ((hI.store.ok k' v' hv').recorded hne').answered
  have hone : c.leaseID = c'.leaseID ∨ c.vmUID = c'.vmUID := by
    rcases heq with h | h
    · rw [hid, hid'] at h
      exact .inl h
    · rw [hvm, hvm'] at h
      injection h with h
      injection h with h
      exact .inr h
  have hfact := hI.ledger.once _ _ _ _ _ _ _ _ _ _ hl hl' hone
  injection hfact

end Inv

/-- A call for a Lease is sent for a claim that records it. -/
theorem CallOk.recorded {uid id : String} {call : Call} (h : CallOk s k uid call)
    (hid : call = .heartbeat id ∨ call = .releaseVM id) :
    ∃ v, Version s.claims k v ∧ v.uid = uid ∧ v.status.leaseID = id ∧ id ≠ "" := by
  rcases hid with rfl | rfl
  · obtain ⟨v, hv, hu, hl, hne, _⟩ := h
    exact ⟨v, hv, hu, hl, hne⟩
  · obtain ⟨v, hv, hu, hl, hne, _⟩ := h
    exact ⟨v, hv, hu, hl, hne⟩

/-- **Lease ownership**, in every world reached. -/
theorem lease_ownership (h : Reachable r w) : Ownership r w := by
  have hI := h.inv
  constructor
  case once =>
    intro k
    refine (hI.store.order k).imp fun {a b} hab n o hn ho hu hne => ?_
    exact ((hab n o hn ho).2 hu).lease hne
  case answer =>
    intro k v hv
    by_cases he : v.status.leaseID = ""
    · have hu := (hI.store.ok k v hv).unbound he
      refine .inl ⟨he, hu.microVM, ?_⟩
      unfold MicroVMClaimStatus.nodeName
      rw [hu.host]
      rfl
    · exact .inr (hI.answer hv he)
  case phase =>
    intro a w' hs k st st' hst hst'
    exact step_phase h.safe hs hst hst'
  case sent =>
    intro t uid call f hrun id hid
    have hpre := h.pre hrun
    cases t with
    | claim k =>
      obtain ⟨v, hv, hu, hl, hne⟩ := hpre.1.recorded hid
      exact ⟨k, v, rfl, hv, hu, hl, hne⟩
    | recovery =>
      obtain ⟨pool, rfl⟩ := hpre
      rcases hid with hid | hid
      · cases hid
      · cases hid
  case alone =>
    intro k v k' v' hv hv' hne heq
    exact hI.alone hv hv' hne heq

theorem lease_ownership_bound :
    ∃ w, Reachable {} w ∧ phaseOf w = some .bound ∧ Ownership {} w := by
  obtain ⟨w, hr, hb⟩ := exists_reached (bound none) (fun w => phaseOf w = some .bound)
    (by decide +kernel)
  exact ⟨w, hr, hb, lease_ownership hr⟩

/-- A claim whose Pool has no MicroVM left goes from the empty phase to Pending. -/
theorem phase_moves_to_pending : ∃ w w', Reachable {} w ∧
    (machine {}).step w (.exec (.claim claimKey) .ok) = some w' ∧
    phaseOf w = some .empty ∧ phaseOf w' = some .pending :=
  exists_step (claimSent none ++ exhausted :: operations 3) _ _ (by decide +kernel)

/-! ## 4. No Lease outlives its claim -/

/-- **The life of a ClaimVM** of the claim under `k`: it is sent when none is outstanding, it ends
    with an answer or without one, and the answer is outstanding until a status patch has written
    it. It is lost in a failed status patch and in a crash, nowhere else. -/
inductive BindingStep (k : ObjectKey) (w : ClaimWorld) (a : ClaimAct) (w' : ClaimWorld) : Prop where
  | same (h : w'.shared.binding k = w.shared.binding k)
  | sent (f : Choice) (uid rid : String) (pool : PoolRef) (g : Unit → Code Unit)
      (ha : a = .exec (.claim k) f)
      (hrun : w.running (.claim k) = some (.op (.send uid (.claimVM pool rid)) g))
      (hb : w.shared.binding k = none) (hb' : w'.shared.binding k = some ⟨rid, none⟩)
  | answered (f : Choice) (uid rid : String) (pool : PoolRef)
      (g : Except BatteryError Claim → Code Unit) (claimed : Claim) (ha : a = .exec (.claim k) f)
      (hrun : w.running (.claim k) = some (.op (.receive uid (.claimVM pool rid)) g))
      (hb : w.shared.binding k = some ⟨rid, none⟩)
      (hb' : w'.shared.binding k = some ⟨rid, some claimed⟩)
  | failed (f : Choice) (uid rid : String) (pool : PoolRef)
      (g : Except BatteryError Claim → Code Unit) (ha : a = .exec (.claim k) f)
      (hrun : w.running (.claim k) = some (.op (.receive uid (.claimVM pool rid)) g))
      (hb : w.shared.binding k = some ⟨rid, none⟩) (hb' : w'.shared.binding k = none)
  | written (base object : MicroVMClaim) (g : Except ApiError MicroVMClaim → Code Unit)
      (rid : String) (claimed : Claim) (st : MicroVMClaim) (ha : a = .exec (.claim k) .ok)
      (hrun : w.running (.claim k) = some (.op (.patchStatus base object) g))
      (hb : w.shared.binding k = some ⟨rid, some claimed⟩) (hst : w'.shared.stored k = some st)
      (huid : st.uid = rid) (hid : st.status.leaseID = claimed.leaseID)
  | writeFailed (f : Choice) (base object : MicroVMClaim)
      (g : Except ApiError MicroVMClaim → Code Unit) (ha : a = .exec (.claim k) f) (hf : f ≠ .ok)
      (hrun : w.running (.claim k) = some (.op (.patchStatus base object) g))
  | crashed (ha : a = .crash)

/-- A status patch that works stores the Lease it was to record. -/
theorem BoundOk.stored {s' : Shared} {base object : MicroVMClaim} {claimed : Claim}
    {x : Except ApiError MicroVMClaim} (hI : Inv s) (hs : StatusOk s k base object)
    (hd : BoundOk s k base object.status claimed)
    (hx : exec (.claim k) .ok (.patchStatus base object) s = some (x, s')) :
    ∃ st, s'.stored k = some st ∧ st.uid = base.uid ∧ st.status.leaseID = claimed.leaseID := by
  obtain ⟨st, hst, hu, _, he, _⟩ := hd.awaiting
  have hkey : base.key = k := hI.store.key k base hs.version
  obtain ⟨_, hleased⟩ := hd.leased
  have hne : claimed.leaseID ≠ "" := (hI.ledger.named _ _ _ _ _ hleased).1
  -- the Lease is new to the stored status
  have hid : (s.patchedStatus base object st).status.leaseID = claimed.leaseID := by
    cases patched_status hI hs hst with
    | touched ok | pending ok =>
      obtain ⟨now, hd2⟩ := hd.status
      have := ok.status
      rw [hd2] at this
      have hl : claimed.leaseID = base.status.leaseID := congrArg MicroVMClaimStatus.leaseID this
      exact absurd (hl.trans hd.unbound) hne
    | held ok => exact absurd hd.unbound (holdsLease_leaseID ok.holds)
    | bound claimed' ok _ _ _ _ leaseID =>
      have hb := ok.binding.symm.trans hd.binding
      cases hb
      exact leaseID
  have hchg : (s.patchedStatus base object st).status ≠ st.status := by
    intro heq
    rw [heq, he] at hid
    exact hne hid.symm
  have hp : s.patchStatus base object = (.ok (s.patchedStatus base object st),
      s.store k (some (s.patchedStatus base object st))) := by
    unfold Shared.patchStatus
    rw [hkey, hst]
    exact if_neg hchg
  cases hx
  refine ⟨s.patchedStatus base object st, ?_, hu, hid⟩
  show ((s.patchStatus base object).2.claims k).current = _
  rw [hp]
  exact current_pushClaim

/-- An operation of the claim's own reconcile. -/
theorem own_binding {f : Choice} {o : Op} {g : o.Ans → Code Unit} {x : o.Ans} {s' : Shared}
    {running : Thread → Option (Code Unit)} (hI : Inv w.shared)
    (hrun : w.running (.claim k) = some (.op o g)) (hpre : Pre (.claim k) o w.shared)
    (hx : exec (.claim k) f o w.shared = some (x, s')) :
    BindingStep k w (.exec (.claim k) f) ⟨s', running⟩ := by
  by_cases hc : o.calm = true
  · exact .same ((rely_calm (.claim k) hc hx).ownRely).binding
  cases o with
  | send uid call =>
    cases call with
    | claimVM pool rid =>
      cases hx
      exact .sent f uid rid pool g rfl hrun hpre.2 (Function.update_self ..)
    | _ => exact absurd rfl hc
  | receive uid call =>
    cases call with
    | claimVM pool rid =>
      cases x with
      | error e => exact .failed f uid rid pool g rfl hrun hpre.2.2 (binding_of_error hx)
      | ok claimed =>
        refine .answered f uid rid pool g claimed rfl hrun hpre.2.2 ?_
        cases execReceive_cases hx with | served => exact Function.update_self ..
    | heartbeat | releaseVM =>
      cases execReceive_cases hx with
      | lost | served | dropped => exact .same rfl
    | listLeases pool => exact absurd rfl hc
  | patchMeta original object =>
    refine .same ?_
    rcases execWrite_state hx with heq | heq
    · exact congrArg (fun s => Shared.binding s k) heq
    · rw [show s' = (w.shared.patchMeta original object).2 from heq]
      exact congrFun (binding_patchMeta _ _ _) k
  | patchStatus base object =>
    by_cases hf : f = .ok
    · subst hf
      rcases hpre.change with ⟨hb, _⟩ | ⟨claimed, hd⟩
      · -- no ClaimVM was outstanding, and none is
        refine .same ?_
        cases hx
        exact (Function.update_self ..).trans hb.symm
      · obtain ⟨st, hst, hu, hid⟩ := hd.stored hI hpre hx
        exact .written base object g base.uid claimed st rfl hrun hd.binding hst hu hid
    · exact .writeFailed f base object g rfl hf hrun
  | _ => exact absurd rfl hc

/-- **What a step does to a ClaimVM that is outstanding.** -/
theorem step_binding {a : ClaimAct} (hw : Safe (machine r) claimSpec w)
    (hs : (machine r).step w a = some w') (k : ObjectKey) : BindingStep k w a w' := by
  cases a with
  | env e =>
    obtain ⟨s, hx, rfl⟩ := step_env hs
    exact .same ((env_rely (.claim k) e _ _ hw.inv hx).ownRely).binding
  | spawn t =>
    obtain ⟨_, rfl⟩ := step_spawn hs
    exact .same rfl
  | exec t f =>
    rcases step_exec hs with ⟨o, g, x, s, hrun, hx, rfl⟩ | ⟨_, rfl⟩
    · have hpre := (hw.safe t _ hrun _ (Rely.refl t _) hw.inv).1
      by_cases ht : t = .claim k
      · subst ht
        exact own_binding hw.inv hrun hpre hx
      · exact .same ((exec_rely (.claim k) t f o _ x s ht hw.inv hpre hx).ownRely).binding
    · exact .same rfl
  | crash => exact .crashed rfl

/-- **No recorded Lease outlives its claim**, and a claim with a ClaimVM outstanding is stored with
    the finalizer until the answer is written. -/
theorem no_lease_outlives_claim (h : Reachable r w) :
    (∀ k v, Version w.shared.claims k v → v.status.leaseID ≠ "" →
      (∀ st, w.shared.stored k = some st → st.uid ≠ v.uid) →
      ∀ l ∈ w.shared.battery.leases, l.leaseID ≠ v.status.leaseID) ∧
    (∀ k b, w.shared.binding k = some b → ∃ st, w.shared.stored k = some st ∧
      st.uid = b.requestID ∧ st.hasRelease = true) ∧
    ∀ a w', (machine r).step w a = some w' → ∀ k, BindingStep k w a w' := by
  have hI := h.inv
  refine ⟨fun k v hv hne hgone => ?_, fun k b hb => ?_, fun a w' hs k => step_binding h.safe hs k⟩
  · rcases hI.owned.recorded k v hv hne with ⟨st, hst, hu, _⟩ | hg
    · exact absurd hu (hgone st hst)
    · exact hI.ledger.not_held_of_gone hg
  · obtain ⟨st, hst, hu, hr, _⟩ := hI.owned.binding k b hb
    exact ⟨st, hst, hu, hr⟩

/-- The claim is deleted, and a reconcile releases its Lease and lets it go. -/
def released : List ClaimAct :=
  bound none ++ .env (.delete claimKey) :: reconcileNow ++ operations 2 ++
    .exec (.claim claimKey) (.serve .carryOut none) :: operations 3

theorem no_lease_outlives_claim_released : ∃ w, Reachable {} w ∧
    w.shared.stored claimKey = none ∧ ∃ v, Version w.shared.claims claimKey v ∧
      v.status.leaseID = "lease-1" ∧ ∀ l ∈ w.shared.battery.leases, l.leaseID ≠ "lease-1" := by
  obtain ⟨w, hr, hn, hv⟩ := exists_reached released
    (fun w => w.shared.stored claimKey = none ∧
      ((w.shared.claims claimKey).versions.any fun c =>
        c.any fun v => v.status.leaseID = "lease-1") = true) (by decide +kernel)
  obtain ⟨c, hc, hid⟩ := List.any_eq_true.mp hv
  obtain ⟨v, rfl, hid⟩ := (Option.any_eq_true ..).mp hid
  have hid : v.status.leaseID = "lease-1" := of_decide_eq_true hid
  refine ⟨w, hr, hn, v, hc, hid, ?_⟩
  rw [← hid]
  refine (no_lease_outlives_claim hr).1 claimKey v hc (by rw [hid]; decide) fun st hst => ?_
  simp [hn] at hst

/-! ## 5. A retried bind -/

/-- **A retried bind converges on one Lease.** A ClaimVM takes effect before its caller goes on or
    not at all: battery serves none whose caller gave up. -/
theorem bind_converges (h : Reachable r w) :
    (∀ k uid, Fact.created k uid ∈ w.shared.history → ∀ l ∈ w.shared.battery.leases,
      ∀ l' ∈ w.shared.battery.leases, l.requestID = uid → l'.requestID = uid → l = l') ∧
    (∀ k v, Version w.shared.claims k v → v.status.leaseID ≠ "" → ∀ id vm p e,
      Fact.leased id vm v.uid p e ∈ w.shared.history → id ≠ v.status.leaseID →
      ∃ at_ cause vm' p' e', Precedes (.ended id at_ cause)
        (.leased v.status.leaseID vm' v.uid p' e') w.shared.history) ∧
    ∀ t o f uid pool rid, w.running t = some (.op o f) →
      o = .send uid (.claimVM pool rid) ∨ o = .receive uid (.claimVM pool rid) →
      rid = uid ∧ ∀ k v, Version w.shared.claims k v → v.uid = uid → v.status.leaseID = "" := by
  have hI := h.inv
  refine ⟨fun k uid hc l hl l' hl' hu hu' => ?_, fun k v hv hne => hI.owned.newest k v hv hne, ?_⟩
  · have hne : l.requestID ≠ "" := by
      rw [hu]
      exact hI.store.named k uid hc
    exact hI.ledger.one l hl l' hl' (hu.trans hu'.symm) hne
  · intro t o f uid pool rid hrun ho
    have hpre := h.pre hrun
    -- before and while it is on its way, a ClaimVM is for a claim that is stored unbound
    have hcall : ∃ k, CallOk w.shared k uid (.claimVM pool rid) := by
      cases t with
      | claim k =>
        rcases ho with rfl | rfl
        · exact ⟨k, hpre.1⟩
        · exact ⟨k, hpre.1⟩
      | recovery =>
        rcases ho with rfl | rfl
        · obtain ⟨_, hc⟩ := hpre
          cases hc
        · obtain ⟨_, hc⟩ := hpre
          cases hc
    obtain ⟨k, rfl, ha⟩ := hcall
    refine ⟨rfl, fun k' v hv hu => ?_⟩
    by_contra hne
    exact ha.unrecorded hI ⟨k', v, hv, hne, hu⟩

/-- A first ClaimVM's answer is lost and its Lease swept; the next one gets another Lease. -/
def rebound : List ClaimAct :=
  claimSent none ++ .exec (.claim claimKey) (.serve (.grant "lease-0" "vm-0" ⟨"node-1", ""⟩)
      (some ⟨.unavailable, "connection reset"⟩)) :: operations 5 ++
    .env (.tick 30000000000) :: .env (.battery (.sweep "lease-0")) :: reconcileNow ++
    operations 5 ++ granted :: operations 5

theorem bind_converges_rebound : ∃ w, Reachable {} w ∧ phaseOf w = some .bound ∧
    ∃ at_ cause vm p e, Precedes (.ended "lease-0" at_ cause)
      (.leased "lease-1" vm "uid-1" p e) w.shared.history := by
  obtain ⟨w, hr, hb, hs, hl⟩ := exists_reached rebound
    (fun w => phaseOf w = some .bound ∧
      (w.shared.stored claimKey).map (fun c => (c.uid, c.status.leaseID)) =
        some ("uid-1", "lease-1") ∧
      Fact.leased "lease-0" "vm-0" "uid-1" ⟨"pool", "default"⟩ 30000000000 ∈ w.shared.history)
    (by decide +kernel)
  obtain ⟨c, hc, heq⟩ := Option.map_eq_some_iff.mp hs
  injection heq with hu hid
  have hne : c.status.leaseID ≠ "" := by
    rw [hid]
    decide
  have h := (bind_converges hr).2.1 claimKey c (Inv.stored_version hc) hne "lease-0" "vm-0"
    ⟨"pool", "default"⟩ 30000000000 (by rw [hu]; exact hl) (by rw [hid]; decide)
  rw [hu, hid] at h
  exact ⟨w, hr, hb, h⟩

/-! ## 6. A live claim keeps its Lease -/

/-- **A live claim's Lease is not released.** While a ReleaseVM is on its way, the claim that is
    stored with its Lease is being deleted, however old the copy is that the call was made for. -/
theorem live_lease_not_released {t : Thread} {uid id : String} {f} {st : MicroVMClaim}
    (h : Reachable r w) (hrun : w.running t = some (.op (.receive uid (.releaseVM id)) f))
    (hst : w.shared.stored k = some st) (hid : st.status.leaseID = id) : st.deleting = true := by
  have hI := h.inv
  have hpre := h.pre hrun
  cases t with
  | claim k' =>
    obtain ⟨⟨v, hv, _, hl, hne, hdel⟩, _⟩ := hpre
    -- two claims that record one Lease are one, and its deletion stays
    have hu : v.uid = st.uid :=
      hI.alone hv (Inv.stored_version hst) (by rw [hl]; exact hne) (.inl (hl.trans hid.symm))
    obtain rfl := hI.store.same_key hv (Inv.stored_version hst) hu
    exact (hI.store.keeps hst hv hu).deleting hdel
  | recovery =>
    obtain ⟨_, hc⟩ := hpre
    cases hc

/-- The Lease whose ReleaseVM is on its way. -/
def releases (w : ClaimWorld) : Option String :=
  match w.running (.claim claimKey) with
  | some (.op (.receive _ (.releaseVM id)) _) => some id
  | _ => none

theorem live_lease_not_released_deleted : ∃ w st, Reachable {} w ∧
    releases w = some st.status.leaseID ∧ w.shared.stored claimKey = some st ∧ st.deleting := by
  obtain ⟨w, st, hr, hst, hrun⟩ := exists_stored
    (bound none ++ .env (.delete claimKey) :: reconcileNow ++ operations 2) claimKey
    (fun w st => releases w = some st.status.leaseID) (by decide +kernel)
  refine ⟨w, st, hr, hrun, hst, ?_⟩
  unfold releases at hrun
  split at hrun
  next hk => exact live_lease_not_released hr hk hst (Option.some.inj hrun).symm
  · cases hrun

end BatteryOperator
