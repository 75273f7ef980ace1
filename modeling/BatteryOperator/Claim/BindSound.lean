/-
  Subject:   The first steps of the chain are safe: `Release`, `EnsureFinalizer`, `Bind`.

  Each step leaves a plan for the patch, and where it does not stop the chain, what the next step
  starts from (`After`):
  * `Begun` -- nothing has happened yet; `Live`, `Guarded` -- and the claim is not being deleted,
    and has the release finalizer;
  * `Tried` -- the claim records a Lease, or its ClaimVM was refused or not made.

  `won_of_answer` is the one place where a ClaimVM's answer is looked at.
-/
import BatteryOperator.Claim.Plan

namespace BatteryOperator

open Lib Machine

/-! ## 1. Between two steps -/

/-- A step leaves a plan, and `Q` where the chain goes on. -/
def After (k : ObjectKey) (Q : Scope → Shared → Prop) (o : Outcome Scope) (s : Shared) : Prop :=
  Plan k o.scope s ∧ (o.err = none → o.result.stop = false → Q o.scope s)

variable {k : ObjectKey} {sc : Scope} {s s' : Shared}

variable {Q : Scope → Shared → Prop} {c : MicroVMClaim} {f : Choice}

theorem lasting_after (hQ : ∀ sc, Lasting k (Q sc)) (o : Outcome Scope) :
    Lasting k (After k Q o) := fun s s' h hR hI =>
  ⟨lasting_plan o.scope s s' h.1 hR hI, fun he hs => hQ o.scope s s' (h.2 he hs) hR hI⟩

theorem After.stopped (h : Plan k sc s) {result : Result} (hs : result.stop = true)
    {err : Option String} : After k Q ⟨sc, result, err⟩ s :=
  ⟨h, fun _ hn => absurd (hs.symm.trans hn) (by decide)⟩

theorem After.failed (h : Plan k sc s) {result : Result} {err : String} :
    After k Q ⟨sc, result, some err⟩ s :=
  ⟨h, nofun⟩

/-- The working copy is the copy read. -/
structure Untouched (k : ObjectKey) (sc : Scope) (s : Shared) : Prop where
  ctx : Ctx k sc.original s
  object : sc.object = sc.original
  binding : s.binding k = none

theorem TouchOk.refl (c : MicroVMClaim) : TouchOk c c.status := ⟨rfl, rfl⟩

theorem Untouched.unpatched (h : Untouched k sc s) : sc.unpatched = sc.original := by
  unfold Scope.unpatched
  rw [h.object]

theorem Untouched.plan (h : Untouched k sc s) : Plan k sc s := by
  refine ⟨h.ctx, .inl ⟨h.unpatched, h.ctx.version, .inl ⟨h.binding, .inl ?_⟩⟩⟩
  rw [h.object]
  exact TouchOk.refl sc.original

theorem lasting_untouched (sc : Scope) : Lasting k (Untouched k sc) := fun s s' h hR hI =>
  ⟨lasting_ctx _ s s' h.ctx hR hI, h.object, lasting_binding none s s' h.binding hR hI⟩

/-- Nothing has happened yet. -/
structure Begun (k : ObjectKey) (sc : Scope) (s : Shared) : Prop extends Untouched k sc s where
  call : sc.batteryCall = none
  pool : sc.poolDeleting = false

theorem lasting_begun (sc : Scope) : Lasting k (Begun k sc) := fun s s' h hR hI =>
  { lasting_untouched sc s s' h.toUntouched hR hI with call := h.call, pool := h.pool }

/-- The claim of a chain that has begun is not being deleted. -/
def Live (k : ObjectKey) (sc : Scope) (s : Shared) : Prop :=
  Begun k sc s ∧ sc.original.deleting = false

/-- ... and has the release finalizer. -/
def Guarded (k : ObjectKey) (sc : Scope) (s : Shared) : Prop :=
  Live k sc s ∧ sc.original.hasRelease = true

theorem lasting_live (sc : Scope) : Lasting k (Live k sc) :=
  (lasting_begun sc).and (lasting_const _)

theorem lasting_guarded (sc : Scope) : Lasting k (Guarded k sc) :=
  (lasting_live sc).and (lasting_const _)

/-! ## 2. The end of a call -/

/-- Settling a ClaimVM changes nothing else. -/
theorem settleBinding_eq (t : Thread) (s : Shared) (call : Call)
    (r : Except BatteryError call.Answer) :
    ∃ b, settleBinding t s call r = { s with binding := b } := by
  cases call with
  | claimVM pool rid =>
    cases t with
    | claim | recovery =>
      cases r with
      | ok | error => exact ⟨_, rfl⟩
  | heartbeat | releaseVM | listLeases => exact ⟨_, rfl⟩

section Receive

variable {t : Thread} {call : Call} {f : Choice} {r : Except BatteryError call.Answer}

/-- What the end of a call leaves of the claims. -/
theorem receive_frame (hx : execReceive t call s f = some (r, s')) :
    s'.claims = s.claims ∧ s'.revision = s.revision ∧ s'.now = s.now ∧
      s.history <:+ s'.history := by
  have settled := fun s1 => settleBinding_eq t s1 call r
  cases execReceive_cases hx with
  | lost =>
    obtain ⟨b', heq⟩ := settled s
    rw [heq]
    exact ⟨rfl, rfl, rfl, List.suffix_refl _⟩
  | served _ _ b h hs | dropped _ _ b h hs =>
    obtain ⟨b', heq⟩ := settled { s with battery := b, history := h }
    rw [heq]
    exact ⟨rfl, rfl, rfl, (Battery.serve_frame hs).1⟩

/-- Battery after the end of a call. -/
theorem receive_served (hx : execReceive t call s f = some (r, s')) :
    (s'.battery = s.battery ∧ s'.history = s.history) ∨
      ∃ sv lost r0, f = .serve sv lost ∧
        s.battery.serve s.now s.history call sv = some (r0, s'.battery, s'.history) := by
  have settled := fun s1 => settleBinding_eq t s1 call r
  cases execReceive_cases hx with
  | lost =>
    obtain ⟨b', heq⟩ := settled s
    rw [heq]
    exact .inl ⟨rfl, rfl⟩
  | served sv _ b h hs | dropped sv _ b h hs =>
    obtain ⟨b', heq⟩ := settled { s with battery := b, history := h }
    rw [heq]
    exact .inr ⟨sv, _, _, rfl, hs⟩

end Receive

/-- The copy read, after a step that leaves the claims alone. -/
theorem Ctx.move (h : Ctx k c s) (hcl : s'.claims = s.claims) (hrev : s'.revision = s.revision)
    (hle : s.history <:+ s'.history) : Ctx k c s' where
  version := by
    rw [hcl]
    exact h.version
  revision := by
    rw [hrev]
    exact h.revision
  window := by
    rw [hcl]
    exact h.window
  created := hle.mem h.created
  kept := by
    rw [hcl]
    exact h.kept

theorem Awaiting.move {uid : String} {pool : PoolRef} (h : Awaiting s k uid pool)
    (hcl : s'.claims = s.claims) : Awaiting s' k uid pool := by
  unfold Awaiting Shared.stored at h ⊢
  rw [hcl]
  exact h

/-- The Lease of a copy that records one was created for it. -/
theorem Ctx.leased (hI : Inv s) (h : Ctx k c s) (hne : c.status.leaseID ≠ "") :
    ∃ vm e, c.status.microVM = some ⟨vm⟩ ∧
      Fact.leased c.status.leaseID vm c.uid (poolOf c) e ∈ s.history := by
  obtain ⟨a, e, _, hl, hid, hvm, _⟩ := ((hI.store.ok k c h.version).recorded hne).answered
  refine ⟨a.vmUID, e, hvm, ?_⟩
  rw [hid]
  exact hl

/-- A Lease battery does not hold has ended. -/
theorem Ctx.gone (hI : Inv s) (h : Ctx k c s) (hne : c.status.leaseID ≠ "")
    (hf : s.battery.find c.status.leaseID = none) : Gone s.history c.status.leaseID := by
  obtain ⟨vm, e, _, hl⟩ := h.leased hI hne
  exact hI.ledger.gone_of_not_held hl (Ledger.find_none hf)

/-- An error that is no answer is no NOT_FOUND. -/
theorem kind_ne_notFound {e : BatteryError} (h : answered (some e) = false) :
    e.kind ≠ .notFound := by
  intro hk
  simp [answered, hk] at h

section Calls

variable {r : MicroVMClaimReconciler} {β : Type} {Q : β → Shared → Prop} {P : Shared → Prop}

/-- **A call other than ClaimVM**, while no ClaimVM is outstanding. -/
theorem wp_callBattery (hP : Lasting k P) {uid : String} {call : Call}
    {f : Except BatteryError call.Answer → Code β} (hc : (Op.send uid call).calm = true) (h : P s)
    (hb : ∀ s', P s' → s'.binding k = none)
    (hok : ∀ s', Inv s' → P s' → CallOk s' k uid call)
    (hk : ∀ s' c a s'', Inv s' → P s' → execReceive (.claim k) call s' c = some (a, s'') →
      Inv s'' → Wp r k (f a) Q s'') : Wp r k (callBattery uid call >>= f) Q s := by
  show Wp r k (ask (.send uid call) >>= fun _ => ask (.receive uid call) >>= f) Q s
  refine wp_calm hP hc h (fun s1 hI hp => ⟨hok s1 hI hp, hb s1 hp⟩) fun s1 _ _ s2 _ _ hx _ hp => ?_
  have hsent : Fact.sent uid call ∈ s2.history := by
    cases hx
    cases call with
    | claimVM | heartbeat | releaseVM | listLeases => exact List.mem_cons_self
  refine wp_call (hP.and (lasting_mem _)) ⟨hp, hsent⟩ (fun s3 hI hp => ?_) ?_
  · have hflight : InFlight s3 k call := by
      cases call with
      | claimVM pool rid => cases hc
      | heartbeat | releaseVM | listLeases => exact hb s3 hp.1
    exact ⟨hok s3 hI hp.1, hp.2, hflight⟩
  · exact fun s3 c a s4 hI hp hx hI' => hk s3 c a s4 hI hp.1 hx hI'

end Calls

/-! ## 3. Release and EnsureFinalizer -/

/-- A ReleaseVM that succeeded or found no Lease leaves none. -/
theorem released_gone (hI : Inv s) (hc : Ctx k c s) (hne : c.status.leaseID ≠ "")
    {res : Except BatteryError (Call.releaseVM c.status.leaseID).Answer}
    (hx : execReceive (.claim k) (.releaseVM c.status.leaseID) s f = some (res, s'))
    (hres : ∀ e, res = .error e → e.kind = .notFound) : Gone s'.history c.status.leaseID := by
  have hle := (receive_frame hx).2.2.2
  cases execReceive_cases hx with
  | lost e ha | dropped _ _ _ _ _ e ha => exact absurd (hres e rfl) (kind_ne_notFound ha)
  | served _ _ _ _ hs =>
    cases Battery.serve_cases hs with
    | refused _ e may =>
      exact (hc.gone hI hne (Battery.find_of_mayRefuse (hres e rfl) may)).mono hle
    | released => exact ⟨s.now, .released, List.mem_cons_self⟩
    | marked => cases hres _ rfl

/-- The plan to give up the finalizer. -/
theorem Untouched.removed (h : Untouched k sc s) (hd : sc.original.deleting = true)
    (hl : sc.original.status.leaseID = "" ∨ Gone s.history sc.original.status.leaseID) :
    Plan k sc.removeFinalizer s := by
  refine ⟨h.ctx, .inr ⟨⟨h.ctx.version, h.binding, .inr ⟨?_, hd, hl, h.ctx.window⟩⟩, ?_⟩⟩
  · unfold Scope.unpatched Scope.removeFinalizer
    simp only [h.object]
    rfl
  · unfold Scope.removeFinalizer
    simp only [h.object]
    exact TouchOk.refl sc.original

/-- The plan to take the finalizer. -/
theorem Untouched.added (h : Untouched k sc s) (hd : sc.original.deleting = false)
    (hr : sc.original.hasRelease = false) : Plan k sc.addFinalizer s := by
  have hc : sc.original.finalizers.contains releaseFinalizer = false := hr
  refine ⟨h.ctx, .inr ⟨⟨h.ctx.version, h.binding, .inl ⟨?_, hr, hd⟩⟩, ?_⟩⟩
  · unfold Scope.unpatched Scope.addFinalizer MicroVMClaim.addFinalizer
    simp only [h.object, hc]
    rfl
  · unfold Scope.addFinalizer MicroVMClaim.addFinalizer
    simp only [h.object, hc]
    exact TouchOk.refl sc.original

section Steps

variable {r : MicroVMClaimReconciler}

/-- `unavailableSince` only reads. -/
theorem wp_unavailableSince {P : Shared → Prop} (hP : Lasting k P) {β : Type}
    {Q : β → Shared → Prop} {f : Time → Code β} (h : P s)
    (hk : ∀ n s', Inv s' → P s' → Wp r k (f n) Q s') (hI : Inv s) :
    Wp r k (unavailableSince sc >>= f) Q s := by
  have read : Wp r k (ask .now >>= f) Q s := wp_now hP h fun n s' hI' hp _ => hk n s' hI' hp
  unfold unavailableSince
  split
  · split
    · exact read
    · exact hk _ s hI h
  · exact read

theorem wp_releaseVM (b : Release) (h : Begun k sc s) (hd : sc.original.deleting = true)
    (hne : sc.original.status.leaseID ≠ "") :
    Wp r k (b.release sc) (After k (Live k)) s := by
  unfold Release.release
  rw [h.object]
  refine wp_callBattery (lasting_begun sc) rfl h (fun _ hb => hb.binding) (fun s' hI hb => ?_)
    fun s1 c a s2 hI hb hx hI' => ?_
  · exact ⟨sc.original, hb.ctx.version, rfl, rfl, hne, hd⟩
  obtain ⟨hcl, hrev, _, hle⟩ := receive_frame hx
  have hbind : s2.binding k = none := by
    cases execReceive_cases hx with
    | lost | served | dropped => exact hb.binding
  have hu : ∀ err, Untouched k (sc.called methodReleaseVM err) s2 := fun err =>
    ⟨hb.ctx.move hcl hrev hle, hb.object, hbind⟩
  have removed : ∀ err, (∀ e, a = .error e → e.kind = .notFound) →
      Wp r k (pure (.stopped (sc.called methodReleaseVM err).removeFinalizer)) (After k (Live k))
        s2 := by
    intro err hres
    have hg := released_gone hI hb.ctx hne hx hres
    refine wp_ret ((lasting_untouched _).and lasting_gone) ⟨hu err, hg⟩ fun s' _ hp => ?_
    exact After.stopped (hp.1.removed hd (.inr hp.2)) rfl
  cases a with
  | ok u => exact removed none nofun
  | error e =>
    dsimp only
    split
    next hnf =>
      refine removed (some e) fun e' hc => ?_
      cases hc
      exact hnf
    · split
      · refine wp_now (lasting_untouched _) (hu (some e)) fun n s3 hI3 hp _ => ?_
        refine wp_unavailableSince (lasting_untouched _) hp (fun n' s4 _ hp' => ?_) hI3
        exact wp_ret (lasting_untouched _) hp' fun s5 _ hp'' => After.stopped hp''.plan rfl
      · exact wp_ret (lasting_untouched _) (hu (some e)) fun s5 _ hp => After.stopped hp.plan rfl

theorem wp_release (b : Release) (h : Begun k sc s) :
    Wp r k (b.reconcile sc) (After k (Live k)) s := by
  have hlast := lasting_begun (k := k) sc
  unfold Release.reconcile
  rw [h.object]
  split
  next hd =>
    exact wp_ret hlast h fun s' _ hb => ⟨hb.plan, fun _ _ => ⟨hb, by simpa using hd⟩⟩
  next hd =>
    rw [Bool.not_eq_true', Bool.not_eq_false] at hd
    split
    · exact wp_ret hlast h fun s' _ hb => After.stopped hb.plan rfl
    · split
      next he =>
        exact wp_ret hlast h fun s' _ hb => After.stopped (hb.removed hd (.inl he)) rfl
      next he => exact wp_releaseVM b h hd he

theorem wp_ensureFinalizer (h : Live k sc s) :
    Wp r k (EnsureFinalizer.reconcile sc) (After k (Guarded k)) s := by
  have hlast := lasting_live (k := k) sc
  unfold EnsureFinalizer.reconcile
  rw [h.1.object, if_neg (by simp [h.2])]
  split
  next hr => exact wp_ret hlast h fun s' _ hl => ⟨hl.1.plan, fun _ _ => ⟨hl, hr⟩⟩
  next hr =>
    exact wp_ret hlast h fun s' _ hl =>
      After.stopped (hl.1.added hl.2 (by simpa using hr)) rfl

end Steps

/-! ## 4. Bind -/

/-- The claim records a Lease and no call was made, or it is still without one. -/
structure Tried (k : ObjectKey) (sc : Scope) (s : Shared) : Prop extends Untouched k sc s where
  live : sc.original.deleting = false
  kept : Kept s.claims k sc.original.uid
  lease : (sc.original.status.leaseID ≠ "" ∧ sc.batteryCall = none ∧ sc.poolDeleting = false) ∨
    (sc.original.status.leaseID = "" ∧ Awaiting s k sc.original.uid (poolOf sc.original))

theorem lasting_tried (sc : Scope) : Lasting k (Tried k sc) := by
  intro s s' h hR hI
  refine { lasting_untouched sc s s' h.toUntouched hR hI with
    live := h.live
    kept := lasting_kept s s' h.kept hR hI
    lease := ?_ }
  rcases h.lease with hl | ⟨he, ha⟩
  · exact .inl hl
  · exact .inr ⟨he, lasting_awaiting _ s s' ha hR hI⟩

theorem execRead_ok {α : Type} {value : Except ApiError α} {a : α}
    (hx : execRead value s f = some (.ok a, s')) : value = .ok a := by
  unfold execRead at hx
  split at hx
  · cases hx
    rfl
  · cases hx
  · cases hx

/-- The API server's claim is the one that was read, and its Pool is the copy's. -/
theorem Ctx.fresh {st : MicroVMClaim} (hI : Inv s) (hc : Ctx k c s) (hk : Kept s.claims k c.uid)
    (hst : s.stored k = some st) (hr : st.hasRelease = true) (he : st.status.leaseID = "") :
    st.uid = c.uid ∧ Awaiting s k c.uid (poolOf c) := by
  obtain ⟨st', hst', hu, _⟩ := hk
  rw [show (s.claims k).current = some st from hst] at hst'
  cases hst'
  have hkeeps := hI.store.keeps hst hc.version hu.symm
  exact ⟨hu, st, hst, hu, hr, he, hkeeps.pool⟩

/-- **The answer to a ClaimVM.** A Lease that battery just created comes after the end of every
    other one of the claim; one that it held already has no other beside it. -/
theorem won_of_answer (hI : Inv s) (hc : Ctx k c s) (he : c.status.leaseID = "")
    (ha : Awaiting s k c.uid (poolOf c)) {claimed : Claim}
    (hx : execReceive (.claim k) (.claimVM (poolOf c) c.uid) s f = some (.ok claimed, s')) :
    Won s' k c claimed := by
  obtain ⟨hcl, _, _, hle⟩ := receive_frame hx
  have huid : c.uid ≠ "" := hI.store.named k c.uid hc.created
  have hwrote : ∀ r, c.spec.renewTime = some r → Fact.wrote c.uid r ∈ s.history :=
    (hI.store.ok k c hc.version).renewTime
  cases execReceive_cases hx with | served _ _ b h hs =>
  have hbind := Function.update_self k (some (⟨c.uid, some claimed⟩ : Binding)) s.binding
  cases Battery.serve_cases hs with
  | granted _ _ id vm host hnone =>
    refine { unbound := he, awaiting := ha.move hcl, binding := hbind
             replied := List.mem_cons_self
             leased := ⟨_, List.mem_cons_of_mem _ List.mem_cons_self⟩
             newest := ?_, relayed := ?_ }
    · intro id' vm' p' e' hm hid
      replace hm := List.mem_cons.mp hm
      simp only [List.mem_cons, reduceCtorEq, false_or, Fact.leased.injEq] at hm
      rcases hm with ⟨rfl, _⟩ | hm
      · exact absurd rfl hid
      · obtain ⟨at_, cause, hend⟩ := hI.ledger.gone_of_byRequest_none hnone huid hm
        exact ⟨at_, cause, vm, _, _, (precedes_cons_self hend).mono (List.suffix_cons _ _)⟩
    · intro r hr'
      exact .inl ⟨vm, _, _, (precedes_cons_self (hwrote r hr')).mono (List.suffix_cons _ _)⟩
  | replayed _ _ l hl _ hpool =>
    obtain ⟨hlmem, hlreq, _⟩ := Ledger.byRequest_some hl
    obtain ⟨e0, hheld⟩ := hI.ledger.held l hlmem
    have hheld' : Fact.leased l.leaseID l.vmUID c.uid (poolOf c) e0 ∈ s.history := by
      rw [← hlreq, ← hpool]
      exact hheld
    refine { unbound := he, awaiting := ha.move hcl, binding := hbind
             replied := List.mem_cons_self
             leased := ⟨e0, hle.mem hheld'⟩
             newest := ?_, relayed := ?_ }
    · intro id' vm' p' e' hm hid
      have hm' : Fact.leased id' vm' c.uid p' e' ∈ s.history := by
        simpa only [List.mem_cons, reduceCtorEq, false_or] using List.mem_cons.mp hm
      rcases hI.ledger.order _ _ _ _ _ _ _ _ _ hm' hheld' huid hid with ⟨at_, cause, hp⟩ |
        ⟨at_, cause, hp⟩
      · exact ⟨at_, cause, _, _, _, hp.mono hle⟩
      · exact absurd ⟨at_, cause, hp.older_mem⟩ (hI.ledger.live l hlmem)
    · intro r hr'
      exact .inr (.inr ((precedes_cons_self (hwrote r hr')).mono (List.suffix_cons _ _)))

/-- A ClaimVM that was not answered with a Lease is settled. -/
theorem binding_of_error {pool : PoolRef} {rid : String} {e : BatteryError}
    (hx : execReceive (.claim k) (.claimVM pool rid) s f = some (.error e, s')) :
    s'.binding k = none := by
  cases execReceive_cases hx with
  | lost | served | dropped => exact Function.update_self ..

section Steps

variable {r : MicroVMClaimReconciler}

/-- What a reconcile knows once it may send a ClaimVM. -/
structure Ready (k : ObjectKey) (sc : Scope) (s : Shared) : Prop extends Untouched k sc s where
  live : sc.original.deleting = false
  kept : Kept s.claims k sc.original.uid
  unbound : sc.original.status.leaseID = ""
  awaiting : Awaiting s k sc.original.uid (poolOf sc.original)

theorem Ready.tried (h : Ready k sc s) : Tried k sc s :=
  { h.toUntouched with live := h.live, kept := h.kept, lease := .inr ⟨h.unbound, h.awaiting⟩ }

theorem lasting_ready (sc : Scope) : Lasting k (Ready k sc) := fun s s' h hR hI =>
  { lasting_untouched sc s s' h.toUntouched hR hI with
    live := h.live
    kept := lasting_kept s s' h.kept hR hI
    unbound := h.unbound
    awaiting := lasting_awaiting _ s s' h.awaiting hR hI }

/-- The plan to record a Lease. -/
theorem Won.plan (sc : Scope) {claimed : Claim} (hc : Ctx k sc.original s)
    (hobj : sc.object = sc.original) (h : Won s k sc.original claimed) (now : Time)
    (message : String) :
    Plan k ((sc.setStatus (boundStatus sc.object claimed sc.object.spec.renewTime now)).setCondition
      .bound .true reasonBound message now) s := by
  refine ⟨hc, .inl ⟨?_, hc.version, .inr ⟨claimed, { h with status := ⟨now, ?_⟩, bound := ?_ }⟩⟩⟩
  · show { sc.object with status := sc.original.status } = sc.original
    rw [hobj]
  · rw [hobj]
    rfl
  · exact boundOf_set_bound rfl

/-- **`Bind` from the ClaimVM on.** -/
theorem wp_claimVM {fresh : MicroVMClaim} (h : Ready k sc s) (hu : fresh.uid = sc.original.uid) :
    Wp r k (Bind.claim sc fresh) (After k (Tried k)) s := by
  unfold Bind.claim
  rw [h.object, hu]
  show Wp r k (ask (.send sc.original.uid (.claimVM (poolOf sc.original) sc.original.uid)) >>=
    fun _ => ask (.receive sc.original.uid (.claimVM (poolOf sc.original) sc.original.uid)) >>=
      _) _ s
  refine wp_call (lasting_ready sc) h (fun s' _ hr => ⟨⟨rfl, hr.awaiting⟩, hr.binding⟩) ?_
  intro s1 _ _ s2 _ hr1 hx1 _
  -- in flight: the claims are as they were, and the call is sent
  have hflight : Ctx k sc.original s2 ∧ Kept s2.claims k sc.original.uid ∧
      Awaiting s2 k sc.original.uid (poolOf sc.original) ∧
      Fact.sent sc.original.uid (.claimVM (poolOf sc.original) sc.original.uid) ∈ s2.history ∧
      s2.binding k = some ⟨sc.original.uid, none⟩ := by
    cases hx1
    exact ⟨hr1.ctx.move rfl rfl (List.suffix_cons _ _), hr1.kept, hr1.awaiting.move rfl,
      List.mem_cons_self, Function.update_self ..⟩
  refine wp_call ((lasting_ctx _).and (lasting_kept.and ((lasting_awaiting _).and
    ((lasting_mem _).and (lasting_binding _))))) hflight
    (fun s' _ hp => ⟨⟨rfl, hp.2.2.1⟩, hp.2.2.2.1, hp.2.2.2.2⟩) ?_
  intro s3 c a s4 hI3 hpre hx _
  obtain ⟨hc3, hk3, ha3, _⟩ := hpre
  obtain ⟨hcl, hrev, _, hle⟩ := receive_frame hx
  have hc4 : Ctx k sc.original s4 := hc3.move hcl hrev hle
  cases a with
  | error e =>
    have hready : Ready k (sc.called methodClaimVM (some e)) s4 :=
      { ctx := hc4, object := h.object, binding := binding_of_error hx, live := h.live
        kept := by rw [hcl]; exact hk3
        unbound := h.unbound, awaiting := ha3.move hcl }
    simp only
    split
    · exact wp_ret (lasting_ready _) hready fun s' _ hp => ⟨hp.plan, fun _ _ => hp.tried⟩
    · exact wp_ret (lasting_ready _) hready fun s' _ hp => After.failed hp.plan
  | ok claimed =>
    have hw := won_of_answer hI3 hc3 h.unbound ha3 hx
    refine wp_now (lasting_won sc.original claimed) ⟨hc4, hw⟩ fun now s5 _ hp _ => ?_
    refine wp_ret (lasting_won sc.original claimed) hp fun s6 _ hp' => After.stopped ?_ rfl
    have hplan := Won.plan (sc.called methodClaimVM none) hp'.1 h.object hp'.2 now
      ("Leased MicroVM " ++ claimed.vmUID ++ " on Node " ++ claimed.host.name)
    rw [Scope.called_object, h.object] at hplan
    rw [Scope.called_object, h.object]
    exact hplan

/-- `poolDeleting` only reads. -/
theorem wp_poolDeleting {P : Shared → Prop} (hP : Lasting k P) {β : Type}
    {Q : β → Shared → Prop} {f : Except String Bool → Code β} (h : P s)
    (hk : ∀ a s', Inv s' → P s' → Wp r k (f a) Q s') : Wp r k (poolDeleting sc >>= f) Q s := by
  refine wp_bind (Rely.refl _) _ _ ?_
  unfold poolDeleting
  refine wp_calm hP rfl h (fun _ _ _ => trivial) fun s1 c a s2 _ _ _ _ hp => ?_
  have done : ∀ x : Except String Bool,
      Wp r k (pure x) (fun a s' => Wp r k (f a) Q s') s2 := fun x =>
    wp_ret hP hp fun s' hI hp' => hk x s' hI hp'
  cases a with
  | ok pool => exact done _
  | error e =>
    simp only
    split
    · exact done _
    · exact done _

theorem wp_withSlot (b : Bind) {fresh : MicroVMClaim} (h : Ready k sc s)
    (hu : fresh.uid = sc.original.uid) :
    Wp r k (b.withSlot sc fresh) (After k (Tried k)) s := by
  unfold Bind.withSlot
  cases b.slots with
  | none => exact wp_claimVM h hu
  | some n =>
    refine wp_calm (lasting_ready sc) rfl h (fun _ _ _ => trivial) fun s1 c a s2 _ _ _ _ hp => ?_
    dsimp only
    split
    · refine wp_seq (Rely.refl _) (wp_claimVM hp hu) fun o s3 _ ho => ?_
      have hlast : Lasting k (After k (Tried k) o) := lasting_after lasting_tried o
      refine wp_calm hlast rfl ho (fun _ _ _ => trivial) fun _ _ _ s5 _ _ _ _ hp' => ?_
      exact wp_ret hlast hp' fun _ _ hp'' => hp''
    · exact wp_ret (lasting_ready sc) hp fun s' _ hp' => After.stopped hp'.plan rfl

theorem wp_bindStep (b : Bind) (h : Guarded k sc s) :
    Wp r k (b.reconcile sc) (After k (Tried k)) s := by
  have hd : sc.original.deleting = false := h.1.2
  have hr : sc.original.hasRelease = true := h.2
  have hlast := lasting_guarded (k := k) sc
  unfold Bind.reconcile
  rw [h.1.1.object]
  split
  next hne =>
    refine wp_ret hlast h fun s' _ hg => ⟨hg.1.1.plan, fun _ _ => ?_⟩
    exact { hg.1.1.toUntouched with
      live := hd
      kept := hg.1.1.ctx.kept hr hd
      lease := .inl ⟨hne, hg.1.1.call, hg.1.1.pool⟩ }
  rename_i hne
  have he : sc.original.status.leaseID = "" := not_not.mp hne
  refine wp_calm hlast rfl h (fun _ _ _ => trivial) fun s1 c a s2 hI hg hx hI' hg' => ?_
  have hsame : s2 = s1 := execRead_state hx
  have stopped : Wp r k (pure (.stopped sc)) (After k (Tried k)) s2 :=
    wp_ret hlast hg' fun s' _ hp => After.stopped hp.1.1.plan rfl
  cases a with
  | error e =>
    simp only
    split
    · exact stopped
    · exact wp_ret hlast hg' fun s' _ hp => After.failed hp.1.1.plan
  | ok fresh =>
    simp only
    split
    · exact stopped
    rename_i hf
    split
    · exact stopped
    split
    · exact stopped
    rename_i hrel
    -- the claim as the API server shows it is the one read, with the finalizer and no Lease
    have hst : s2.stored k = some fresh := by
      have hv := execRead_ok hx
      have hkey : sc.original.key = k := hI.store.key k _ hg.1.1.ctx.version
      rw [hkey] at hv
      rw [hsame]
      split at hv
      next c' hc' =>
        cases hv
        exact hc'
      · cases hv
    have hkept := hg'.1.1.ctx.kept hr hd
    obtain ⟨hu, hawait⟩ := hg'.1.1.ctx.fresh hI' hkept hst (by simpa using hrel)
      (not_not.mp hf)
    have hready : Ready k sc s2 :=
      { hg'.1.1.toUntouched with live := hd, kept := hkept, unbound := he, awaiting := hawait }
    refine wp_poolDeleting (lasting_ready sc) hready fun p s3 _ hp => ?_
    match p with
    | .error e => exact wp_ret (lasting_ready sc) hp fun s' _ hp' => After.failed hp'.plan
    | .ok true =>
      refine wp_ret (lasting_ready sc) hp fun s' _ hp' => ?_
      have ht : Tried k ⟨sc.original, sc.original, sc.batteryCall, true⟩ s' :=
        { ctx := hp'.ctx, object := rfl, binding := hp'.binding, live := hp'.live,
          kept := hp'.kept, lease := .inr ⟨hp'.unbound, hp'.awaiting⟩ }
      exact ⟨ht.plan, fun _ _ => ht⟩
    | .ok false => exact wp_withSlot b hp hu

end Steps

end BatteryOperator
