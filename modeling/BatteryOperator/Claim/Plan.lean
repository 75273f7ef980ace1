/-
  Subject:   The rules for the programs of one claim's thread, and what the patch at the end of a
             reconcile needs of the scope (`Scope.Patch`).

  * `Lasting k P` -- nobody but the reconcile of `k` can take `P` away; `Kept`, `Awaiting`, `Over`,
    `Newest` and everything the history says last;
  * `wp_calm`, `wp_now` -- **the rules** of its own, beside those of Lib/RelyGuarantee;
  * `Ctx` -- what a reconcile knows of the copy it read;
  * `Plan` -- the scope's changes are ones the writes may make, and stay so (`lasting_plan`);
    conditions other than Bound may change at will (`Plan.setCondition`);
  * `wp_patch` -- **under a plan the patch is safe**, and it settles the claim's ClaimVM.
-/
import BatteryOperator.Claim.ExecSound

namespace BatteryOperator

open Lib Machine

/-! ## 1. What lasts -/

/-- A fact that everybody but the reconcile of the claim under `k` leaves alone. -/
abbrev Lasting (k : ObjectKey) (P : Shared → Prop) : Prop :=
  Stable claimSpec (.claim k) P

section Lasting

variable {k : ObjectKey} {uid id : String}

theorem Rely.ownRely {s s' : Shared} (h : Rely (.claim k) s s') : OwnRely k s s' := h.own k rfl

theorem lasting_const (p : Prop) : Lasting k fun _ => p := fun _ _ hp _ _ => hp

theorem lasting_mem (f : Fact) : Lasting k fun s => f ∈ s.history :=
  fun _ _ hm hR _ => (Rely.history hR).mem hm

theorem lasting_gone : Lasting k fun s => Gone s.history id :=
  fun _ _ hg hR _ => Gone.mono hg (Rely.history hR)

theorem lasting_now (t : Time) : Lasting k fun s => t ≤ s.now :=
  fun _ _ ht hR _ => Int.le_trans ht (Rely.now hR)

theorem lasting_binding (b : Option Binding) : Lasting k fun s => s.binding k = b :=
  fun _ _ hb hR _ => (Rely.ownRely hR).binding.trans hb

theorem lasting_version (v : MicroVMClaim) : Lasting k fun s => Version s.claims k v :=
  fun _ _ hv hR _ => (Rely.ownRely hR).versions v hv

theorem lasting_kept : Lasting k fun s => Kept s.claims k uid := by
  intro s s' hpre hR _
  obtain ⟨st, hst, hu, hr⟩ := hpre
  obtain ⟨st', hst', hu', hr', _⟩ := (Rely.ownRely hR).kept st hst hr
  exact ⟨st', hst', hu'.trans hu, hr'⟩

theorem lasting_awaiting (pool : PoolRef) : Lasting k fun s => Awaiting s k uid pool := by
  intro s s' hpre hR _
  obtain ⟨st, hst, hu, hr, he, hp⟩ := hpre
  obtain ⟨st', hst', hu', hr', hs', hp'⟩ := (Rely.ownRely hR).kept st hst hr
  exact ⟨st', hst', hu'.trans hu, hr', by rw [hs']; exact he, hp'.trans hp⟩

/-- No Lease is created for the claim meanwhile, so the newest one stays the newest. -/
theorem lasting_newest : Lasting k fun s =>
    Fact.created k uid ∈ s.history ∧ Newest s.history uid id := by
  intro s s' hpre hR _
  obtain ⟨hc, hn⟩ := hpre
  refine ⟨(Rely.history hR).mem hc, fun id' vm p e hm hne => ?_⟩
  have hm' := (Rely.ownRely hR).leased id' vm uid p e hc hm
  obtain ⟨at_, cause, vm', p', e', hp⟩ := hn id' vm p e hm' hne
  exact ⟨at_, cause, vm', p', e', hp.mono (Rely.history hR)⟩

/-- Nobody else renews the claim's Lease, so an expiry that has passed stays passed. -/
theorem lasting_over {v : MicroVMClaim} (hne : v.status.leaseID ≠ "") : Lasting k fun s =>
    Version s.claims k v ∧ Fact.created k v.uid ∈ s.history ∧ Over s v.status.leaseID := by
  intro s s' hpre hR hI'
  obtain ⟨hv, hc, ho⟩ := hpre
  have hv' := (Rely.ownRely hR).versions v hv
  refine ⟨hv', (Rely.history hR).mem hc, fun l' hl' hid => ?_⟩
  have hreq : l'.requestID = v.uid := Inv.held_requestID hI' hv' hne hl' hid
  obtain ⟨l, hl, hid', _, he⟩ := (Rely.ownRely hR).leases l' hl' (by rw [hreq]; exact hc)
  rw [← he]
  exact Int.le_trans (ho l hl (hid'.trans hid)) (Rely.now hR)

end Lasting

/-! ## 2. The rules -/

/-- What a program of the reconcile of `k` needs to end in `Q`. -/
abbrev Wp (r : MicroVMClaimReconciler) (k : ObjectKey) {α : Type} (p : Code α)
    (Q : α → Shared → Prop) (s : Shared) : Prop :=
  wp (machine r) claimSpec (.claim k) p Q s

section Rules

variable {r : MicroVMClaimReconciler} {k : ObjectKey} {α β : Type} {P : Shared → Prop}
  {Q : β → Shared → Prop} {s : Shared}

/-- **A calm operation** leaves what is known. -/
theorem wp_calm (hP : Lasting k P) {o : Op} {f : o.Ans → Code β} (hc : o.calm = true) (h : P s)
    (hpre : ∀ s', Inv s' → P s' → Pre (.claim k) o s')
    (hk : ∀ s' c a s'', Inv s' → P s' → exec (.claim k) c o s' = some (a, s'') → Inv s'' →
      P s'' → Wp r k (f a) Q s'') : Wp r k (ask o >>= f) Q s := by
  refine wp_call hP h hpre fun s' c a s'' hI hp hx hI' => ?_
  exact hk s' c a s'' hI hp hx hI' (hP s' s'' hp (rely_calm _ hc hx) hI')

/-- Reading the clock. -/
theorem wp_now (hP : Lasting k P) {f : Time → Code β} (h : P s)
    (hk : ∀ n s', Inv s' → P s' → n ≤ s'.now → Wp r k (f n) Q s') :
    Wp r k (ask .now >>= f) Q s := by
  refine wp_calm hP rfl h (fun _ _ _ => trivial) fun s' c a s'' _ _ hx hI' hp => ?_
  cases hx
  exact hk s'.now s' hI' hp (Int.le_refl _)

end Rules

/-! ## 3. The copy read -/

/-- The copy a reconcile read, and what no other thread takes from it: it is a version, none that
    can be read is older, and with the release finalizer it is stored. -/
structure Ctx (k : ObjectKey) (original : MicroVMClaim) (s : Shared) : Prop where
  version : Version s.claims k original
  revision : original.resourceVersion ≤ s.revision
  window : ∀ v, some v ∈ (s.claims k).window → original.resourceVersion ≤ v.resourceVersion
  created : Fact.created k original.uid ∈ s.history
  kept : original.hasRelease = true → original.deleting = false → Kept s.claims k original.uid

variable {k : ObjectKey}

theorem lasting_ctx (original : MicroVMClaim) : Lasting k (Ctx k original) := by
  intro s s' h hR hI
  have hown := Rely.ownRely hR
  refine ⟨hown.versions _ h.version, Nat.le_trans h.revision hown.revision, fun v hv => ?_,
    (Rely.history hR).mem h.created, fun hr hd => lasting_kept s s' (h.kept hr hd) hR hI⟩
  rcases hown.window v hv with hold | hnew
  · exact h.window v hold
  · exact Nat.le_of_lt (Nat.lt_of_le_of_lt h.revision hnew)

/-- The copy in the cache is the oldest that can be read. -/
theorem Ctx.of_copy {s : Shared} (hI : Inv s) {c : MicroVMClaim}
    (hc : (s.claims k).copy = some c) : Ctx k c s := by
  have hwin : some c ∈ (s.claims k).window := by
    rw [← hc]
    exact (s.claims k).copy_mem_window
  have hver : Version s.claims k c := (s.claims k).window_subset hwin
  refine ⟨hver, hI.store.revision k c hver, fun v hv => ?_, hI.store.created k c hver,
    hI.owned.window k c hwin⟩
  rcases Register.copy_oldest (hI.store.order k) hv with heq | hnewer
  · rw [hc] at heq
    cases heq
    exact Nat.le_refl _
  · rw [hc] at hnewer
    exact Nat.le_of_lt (hnewer v c rfl rfl).1

/-! ## 4. The plan -/

/-- **What the patch needs**: a status it may write, or another finalizer and conditions. -/
structure Plan (k : ObjectKey) (sc : Scope) (s : Shared) : Prop where
  ctx : Ctx k sc.original s
  write : (sc.unpatched = sc.original ∧ StatusOk s k sc.original sc.object) ∨
    (MetaOk s k sc.original sc.unpatched ∧ TouchOk sc.original sc.object.status)

section Lasting

variable {base : MicroVMClaim} {d : MicroVMClaimStatus}

theorem lasting_pendingOk : Lasting k fun s => PendingOk s k base d :=
  fun s s' h hR hI =>
    { h with awaiting := lasting_awaiting _ s s' h.awaiting hR hI }

theorem lasting_won (base : MicroVMClaim) (claimed : Claim) :
    Lasting k fun s => Ctx k base s ∧ Won s k base claimed := by
  intro s s' hpre hR hI
  obtain ⟨hc, h⟩ := hpre
  refine ⟨lasting_ctx base s s' hc hR hI, { h with
    awaiting := lasting_awaiting _ s s' h.awaiting hR hI
    binding := lasting_binding _ s s' h.binding hR hI
    replied := (Rely.history hR).mem h.replied
    leased := ?_
    newest := (lasting_newest s s' ⟨hc.created, h.newest⟩ hR hI).2
    relayed := fun r hr => (h.relayed r hr).mono (Rely.history hR) }⟩
  obtain ⟨e, he⟩ := h.leased
  exact ⟨e, (Rely.history hR).mem he⟩

theorem holdsLease_leaseID {c : MicroVMClaim} (h : holdsLease c = true) :
    c.status.leaseID ≠ "" := (holdsLease_iff.mp h).2.1

theorem lasting_heldOk : Lasting k fun s => Ctx k base s ∧ HeldOk s k base d := by
  intro s s' hpre hR hI
  obtain ⟨hc, h⟩ := hpre
  have hle := Rely.history hR
  refine ⟨lasting_ctx base s s' hc hR hI, { h with
    kept := lasting_kept s s' h.kept hR hI
    expiry := ?_
    observed := ?_
    phase := ?_ }⟩
  · rcases h.expiry with heq | ⟨e, he, hp⟩
    · exact .inl heq
    · exact .inr ⟨e, he, hp.mono hle⟩
  · rcases h.observed with heq | ⟨heq, hr⟩
    · exact .inl heq
    · exact .inr ⟨heq, fun r hd => (hr r hd).mono hle⟩
  · rcases h.phase with hb | ⟨hp, hb, hg | ⟨ho, heq⟩⟩
    · exact .inl hb
    · exact .inr ⟨hp, hb, .inl (hg.mono hle)⟩
    · have ho' := (lasting_over (holdsLease_leaseID h.holds) s s'
        ⟨hc.version, hc.created, ho⟩ hR hI).2.2
      exact .inr ⟨hp, hb, .inr ⟨ho', heq⟩⟩

end Lasting

theorem lasting_statusOk (base object : MicroVMClaim) :
    Lasting k fun s => Ctx k base s ∧ StatusOk s k base object := by
  intro s s' hpre hR hI
  obtain ⟨hc, h⟩ := hpre
  have hc' := lasting_ctx base s s' hc hR hI
  refine ⟨hc', hc'.version, ?_⟩
  rcases h.change with ⟨hb, hmode⟩ | ⟨claimed, hd⟩
  · refine .inl ⟨lasting_binding none s s' hb hR hI, ?_⟩
    rcases hmode with hd | hd | hd
    · exact .inl hd
    · exact .inr (.inl (lasting_pendingOk s s' hd hR hI))
    · exact .inr (.inr (lasting_heldOk s s' ⟨hc, hd⟩ hR hI).2)
  · have hw := (lasting_won base claimed s s' ⟨hc, hd.toWon⟩ hR hI).2
    exact .inr ⟨claimed, { hw with status := hd.status, bound := hd.bound }⟩

theorem lasting_metaOk (original object : MicroVMClaim) :
    Lasting k fun s => Ctx k original s ∧ MetaOk s k original object := by
  intro s s' hpre hR hI
  obtain ⟨hc, h⟩ := hpre
  have hc' := lasting_ctx original s s' hc hR hI
  refine ⟨hc', hc'.version, lasting_binding none s s' h.binding hR hI, ?_⟩
  rcases h.change with hadd | ⟨hobj, hd, hl, _⟩
  · exact .inl hadd
  · refine .inr ⟨hobj, hd, ?_, hc'.window⟩
    rcases hl with he | hg
    · exact .inl he
    · exact .inr (hg.mono (Rely.history hR))

theorem lasting_plan (sc : Scope) : Lasting k (Plan k sc) := by
  intro s s' h hR hI
  refine ⟨lasting_ctx _ s s' h.ctx hR hI, ?_⟩
  rcases h.write with ⟨hsame, hst⟩ | ⟨hm, ht⟩
  · exact .inl ⟨hsame, (lasting_statusOk _ _ s s' ⟨h.ctx, hst⟩ hR hI).2⟩
  · exact .inr ⟨(lasting_metaOk _ _ s s' ⟨h.ctx, hm⟩ hR hI).2, ht⟩

/-! ## 5. Other conditions -/

section Conditions

variable {s : Shared} {base : MicroVMClaim} {d : MicroVMClaimStatus}
  {cs : List (Condition ClaimCondition)}

theorem TouchOk.conditions (h : TouchOk base d) (hb : boundOf cs = boundOf d.conditions) :
    TouchOk base { d with conditions := cs } where
  status := by
    rw [h.status]
  bound := hb.trans h.bound

theorem PendingOk.conditions (h : PendingOk s k base d) (hb : boundOf cs = boundOf d.conditions) :
    PendingOk s k base { d with conditions := cs } :=
  { h with
    status := by
      rw [h.status]
    bound := by
      obtain ⟨reason, hr⟩ := h.bound
      exact ⟨reason, hb.trans hr⟩ }

theorem BoundOk.conditions {claimed : Claim} (h : BoundOk s k base d claimed)
    (hb : boundOf cs = boundOf d.conditions) :
    BoundOk s k base { d with conditions := cs } claimed := by
  refine { h.toWon with status := ?_, bound := hb.trans h.bound }
  obtain ⟨now, hd⟩ := h.status
  refine ⟨now, ?_⟩
  rw [hd]

theorem HeldOk.conditions (h : HeldOk s k base d) (hb : boundOf cs = boundOf d.conditions) :
    HeldOk s k base { d with conditions := cs } :=
  { h with
    phase := by
      rcases h.phase with ⟨hp, hc⟩ | ⟨hp, hc, hrest⟩
      · exact .inl ⟨hp, hb.trans hc⟩
      · exact .inr ⟨hp, hb.trans hc, hrest⟩ }

theorem StatusOk.conditions {object : MicroVMClaim} (h : StatusOk s k base object)
    (hb : boundOf cs = boundOf object.status.conditions) :
    StatusOk s k base { object with status := { object.status with conditions := cs } } where
  version := h.version
  change := by
    rcases h.change with ⟨hn, hd | hd | hd⟩ | ⟨claimed, hd⟩
    · exact .inl ⟨hn, .inl (hd.conditions hb)⟩
    · exact .inl ⟨hn, .inr (.inl (hd.conditions hb))⟩
    · exact .inl ⟨hn, .inr (.inr (hd.conditions hb))⟩
    · exact .inr ⟨claimed, hd.conditions hb⟩

/-- Another condition leaves the Bound condition alone. -/
theorem boundOf_set {new : Condition ClaimCondition} (hne : new.type ≠ .bound) :
    boundOf (setStatusCondition cs new) = boundOf cs := by
  unfold boundOf
  rw [findStatusCondition_set_other cs new hne]

/-- The Bound condition after it was set. -/
theorem boundOf_set_bound {new : Condition ClaimCondition} (h : new.type = .bound) :
    boundOf (setStatusCondition cs new) = some (new.status, new.reason) := by
  unfold boundOf
  rw [← h, findStatusCondition_set_same]
  cases findStatusCondition cs new.type with
  | none | some => rfl

end Conditions

section Scope

variable {s : Shared} {sc : Scope}

theorem Plan.setCondition (h : Plan k sc s) {type : ClaimCondition} (hne : type ≠ .bound)
    (status : ConditionStatus) (reason message : String) (now : Time) :
    Plan k (sc.setCondition type status reason message now) s := by
  refine ⟨h.ctx, ?_⟩
  rcases h.write with ⟨hsame, hst⟩ | ⟨hm, ht⟩
  · exact .inl ⟨hsame, hst.conditions (boundOf_set hne)⟩
  · exact .inr ⟨hm, ht.conditions (boundOf_set hne)⟩

end Scope

/-! ## 6. The patch -/

theorem execWrite_ok {written : Except ApiError MicroVMClaim × Shared} {s s' : Shared} {f : Choice}
    {a : MicroVMClaim} (hx : execWrite written s f = some (.ok a, s')) : written = (.ok a, s') := by
  unfold execWrite at hx
  split at hx
  · exact Option.some.inj hx
  · cases hx
  · cases hx
  · cases hx

section Patch

variable {r : MicroVMClaimReconciler} {s : Shared}

variable {base : MicroVMClaim} {d : MicroVMClaimStatus}

/-- A Lease to be recorded is a change of the status. -/
theorem BoundOk.encode_ne {claimed : Claim} (hI : Inv s) (h : BoundOk s k base d claimed) :
    base.status.encode ≠ d.encode := by
  intro he
  obtain ⟨e, hl⟩ := h.leased
  obtain ⟨now, hd⟩ := h.status
  have hid : base.status.encode.leaseID = d.encode.leaseID := by rw [he]
  rw [hd] at hid
  exact (hI.ledger.named _ _ _ _ _ hl).1 (hid.symm.trans h.unbound)

/-- **The status patch.** -/
theorem wp_patchStatus {P : Shared → Prop} (hP : Lasting k P) (h : P s)
    (hok : ∀ s', Inv s' → P s' → StatusOk s' k base { base with status := d }) :
    Wp r k (Scope.patchStatus base d) (fun _ => Idle (.claim k)) s := by
  unfold Scope.patchStatus
  by_cases he : base.status.encode = d.encode
  · rw [if_pos he]
    refine wp_ret hP h fun s' hI hp => ?_
    rcases (hok s' hI hp).change with ⟨hb, _⟩ | ⟨claimed, hd⟩
    · exact hb
    · exact absurd he (hd.encode_ne hI)
  · rw [if_neg he]
    refine wp_call hP h hok fun s' c a s'' _ _ hx _ => ?_
    -- whatever the answer, the claim's ClaimVM is settled
    have hidle : s''.binding k = none := by
      obtain ⟨⟨_, s1⟩, _, heq⟩ := Option.map_eq_some_iff.mp hx
      cases heq
      exact Function.update_self ..
    cases a with
    | ok | error => exact wp_ret (lasting_binding none) hidle fun _ _ hb => hb

/-- The status patch of a version that changes conditions only. -/
theorem wp_touchStatus (hv : Version s.claims k base) (hb : s.binding k = none)
    (ht : TouchOk base d) : Wp r k (Scope.patchStatus base d) (fun _ => Idle (.claim k)) s :=
  wp_patchStatus ((lasting_version base).and (lasting_binding none)) ⟨hv, hb⟩
    fun _ _ hp => ⟨hp.1, .inl ⟨hp.2, .inl ht⟩⟩

/-- What a metadata patch answers with is stored, unless it took the last finalizer of a claim
    being deleted. -/
theorem MetaOk.answered {s' : Shared} {original object answer : MicroVMClaim} {c : Choice}
    (hI : Inv s) (hm : MetaOk s k original object)
    (hx : execWrite (s.patchMeta original object) s c = some (.ok answer, s')) :
    s'.binding k = none ∧ answer.status = original.status ∧
      ((object.deleting && object.finalizers.isEmpty) = false → Version s'.claims k answer) := by
  have hw := execWrite_ok hx
  have hkey : original.key = k := hI.store.key k original hm.version
  rcases patchMeta_cases s original object with ⟨e, he⟩ | ⟨st, hst, hrv, hcase⟩
  · rw [he] at hw
    cases hw
  · rw [hkey] at hst hcase
    have heq : st = original := hI.store.eq_of_version hst hm.version hrv
    subst heq
    have hfin : (s.patchedMeta st object st).finalizers = object.finalizers :=
      mergeField_base st.finalizers object.finalizers
    have hdel : object.deleting = st.deleting := by
      rcases hm.change with ⟨hobj, _⟩ | ⟨hobj, _⟩
      · rw [hobj]
        unfold MicroVMClaim.addFinalizer
        split
        · rfl
        · rfl
      · rw [hobj]
        rfl
    rcases hcase with ⟨hg, hp⟩ | ⟨_, hp⟩
    · rw [hp] at hw
      cases hw
      refine ⟨hm.binding, rfl, fun hn => ?_⟩
      rw [hfin, show (s.patchedMeta st object st).deleting = st.deleting from rfl, ← hdel, hn] at hg
      cases hg
    · rw [hp] at hw
      cases hw
      exact ⟨hm.binding, rfl, fun _ => version_pushClaim.mpr (.inl ⟨rfl, rfl⟩)⟩

theorem binding_patchMeta (s : Shared) (original object : MicroVMClaim) :
    (s.patchMeta original object).2.binding = s.binding := by
  rcases patchMeta_cases s original object with ⟨e, he⟩ | ⟨st, _, _, ⟨_, hp⟩ | ⟨_, hp⟩⟩
  · rw [he]
  · rw [hp]
    rfl
  · rw [hp]
    rfl

/-- **The metadata patch**, and the status patch after it. -/
theorem wp_patchMeta {sc : Scope} (hc : Ctx k sc.original s)
    (hm : MetaOk s k sc.original sc.unpatched) (ht : TouchOk sc.original sc.object.status) :
    Wp r k sc.patchMeta (fun _ => Idle (.claim k)) s := by
  unfold Scope.patchMeta
  refine wp_call (lasting_metaOk sc.original sc.unpatched) ⟨hc, hm⟩ (fun s' _ hp => hp.2) ?_
  intro s' c a s'' hI hpre hx hI'
  obtain ⟨_, hmeta⟩ := hpre
  have hidle : s''.binding k = none := by
    rcases execWrite_state hx with rfl | rfl
    · exact hmeta.binding
    · rw [binding_patchMeta]
      exact hmeta.binding
  have done : ∀ x : Option String, Wp r k (pure x) (fun _ => Idle (.claim k)) s'' := fun x =>
    wp_ret (lasting_binding none) hidle fun _ _ hb => hb
  cases a with
  | error e =>
    simp only
    split
    · exact done _
    · exact done _
  | ok answer =>
    obtain ⟨_, hstatus, hver⟩ := hmeta.answered hI hx
    simp only
    split
    · exact done _
    next hgone =>
      refine wp_touchStatus (hver (by simpa using hgone)) hidle ?_
      exact ⟨by rw [hstatus]; exact ht.status, by rw [hstatus]; exact ht.bound⟩

/-- **Under a plan the patch is safe.** -/
theorem wp_patch {sc : Scope} (h : Plan k sc s) :
    Wp r k sc.patch (fun _ => Idle (.claim k)) s := by
  unfold Scope.patch
  by_cases hsame : sc.unpatched = sc.original
  · rw [if_pos hsame, hsame]
    rcases h.write with ⟨_, hst⟩ | ⟨hm, ht⟩
    · exact wp_patchStatus (lasting_statusOk sc.original sc.object) ⟨h.ctx, hst⟩
        fun s' _ hp => ⟨hp.2.version, hp.2.change⟩
    · exact wp_touchStatus h.ctx.version hm.binding ht
  · rw [if_neg hsame]
    rcases h.write with ⟨hs, _⟩ | ⟨hm, ht⟩
    · exact absurd hs hsame
    · exact wp_patchMeta h.ctx hm ht

end Patch

end BatteryOperator
