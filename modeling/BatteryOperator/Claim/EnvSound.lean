/-
  Subject:   The world around the Operator, and a crash of it, keep the invariant and meet every
             thread's rely.

  * `Rely.store`, `Rely.frame` -- the two ways a step moves what a reconcile relies on;
  * `env_cases` -- **what an action of the world does**, said once;
  * `Battery.act_frame` -- what an action of battery leaves of the history and the Leases;
  * `env_inv`, `env_rely`, `crash_inv` -- **the results**.
-/
import BatteryOperator.Claim.Spec

namespace BatteryOperator

open Lib

/-! ## 1. How a step meets a rely -/

variable {t : Thread} {s s' : Shared} {b : Battery} {h : List Fact} {a : BatteryAct} {uid : String}
  {k : ObjectKey}

/-- A new version of a claim: of another one, or one that keeps what the reconcile relies on. -/
theorem Rely.store {k0 : ObjectKey} {c : Option MicroVMClaim}
    (hrv : ∀ v, c = some v → v.resourceVersion = s.revision + 1)
    (hkept : t = .claim k0 → ∀ st, s.stored k0 = some st → st.hasRelease = true →
      ∃ st', c = some st' ∧ st'.uid = st.uid ∧ st'.hasRelease = true ∧
        st'.status = st.status ∧ poolOf st' = poolOf st) : Rely t s (s.store k0 c) := by
  refine ⟨List.suffix_refl _, Int.le_refl _, fun k hk => ?_⟩
  refine { versions := ?_, revision := Nat.le_succ _, window := ?_, kept := ?_, binding := rfl,
           leases := fun l hl _ => ⟨l, hl, rfl, rfl, rfl⟩, leased := fun _ _ _ _ _ _ hm => hm }
  · exact fun v hv => version_pushClaim.mpr (.inr hv)
  · intro v hv
    rcases window_pushClaim.mp hv with ⟨_, hcv⟩ | hold
    · have hv' := hrv v hcv
      exact .inr (by omega)
    · exact .inl hold
  · intro st hst hr
    by_cases hkk : k = k0
    · subst hkk
      obtain ⟨st', hc, hrest⟩ := hkept hk st hst hr
      refine ⟨st', ?_, hrest⟩
      rw [← hc]
      exact current_pushClaim
    · refine ⟨st, ?_, rfl, hr, rfl, rfl⟩
      rw [← hst]
      exact congrArg Register.current (pushClaim_ne hkk)

/-- Nothing happens to the claims. -/
theorem Rely.frame (hcl : s'.claims = s.claims) (hrev : s'.revision = s.revision)
    (hh : s.history <:+ s'.history) (hnow : s.now ≤ s'.now)
    (hown : ∀ k, t = .claim k → s'.binding k = s.binding k ∧
      (∀ l' ∈ s'.battery.leases, Fact.created k l'.requestID ∈ s.history →
        ∃ l ∈ s.battery.leases, l.leaseID = l'.leaseID ∧ l.requestID = l'.requestID ∧
          l.expiresAt = l'.expiresAt) ∧
      ∀ id vm uid p e, Fact.created k uid ∈ s.history →
        Fact.leased id vm uid p e ∈ s'.history → Fact.leased id vm uid p e ∈ s.history) :
    Rely t s s' := by
  refine ⟨hh, hnow, fun k hk => ?_⟩
  obtain ⟨hb, hl, hm⟩ := hown k hk
  refine { versions := ?_, revision := Nat.le_of_eq hrev.symm, window := ?_, kept := ?_,
           binding := hb, leases := hl, leased := hm }
  · intro v hv
    rw [hcl]
    exact hv
  · intro v hv
    rw [hcl] at hv
    exact .inl hv
  · intro st hst hr
    refine ⟨st, ?_, rfl, hr, rfl, rfl⟩
    unfold Shared.stored
    rw [hcl]
    exact hst

/-- Nothing happens to the claims, to battery and to the history. -/
theorem Rely.same (hcl : s'.claims = s.claims) (hrev : s'.revision = s.revision)
    (hh : s'.history = s.history) (hnow : s.now ≤ s'.now) (hb : s'.binding = s.binding)
    (hbat : s'.battery = s.battery) : Rely t s s' := by
  refine Rely.frame hcl hrev (by rw [hh]) hnow fun k _ => ⟨by rw [hb], ?_, ?_⟩
  · rw [hbat]
    exact fun l hl _ => ⟨l, hl, rfl, rfl, rfl⟩
  · rw [hh]
    exact fun _ _ _ _ _ _ hm => hm

/-- A fact is noted that creates no Lease. -/
theorem Rely.note {f : Fact} (hf : ∀ id vm uid p e, f ≠ .leased id vm uid p e) :
    Rely t s (s.note f) := by
  refine Rely.frame rfl rfl (List.suffix_cons _ _) (Int.le_refl _) fun k _ => ⟨rfl, ?_, ?_⟩
  · exact fun l hl _ => ⟨l, hl, rfl, rfl, rfl⟩
  · intro id vm uid p e _ hm
    exact (List.mem_cons.mp hm).resolve_left fun heq => hf _ _ _ _ _ heq.symm

/-! ## 2. What happens around the Operator -/

theorem hasRelease_iff {c : MicroVMClaim} :
    c.hasRelease = true ↔ releaseFinalizer ∈ c.finalizers := by
  unfold MicroVMClaim.hasRelease
  exact List.contains_iff_mem

/-- The next version of the stored claim `st`, being deleted or with other finalizers. -/
structure Touched (s : Shared) (st v : MicroVMClaim) : Prop where
  resourceVersion : v.resourceVersion = s.revision + 1
  key : v.key = st.key
  uid : v.uid = st.uid
  spec : v.spec = st.spec
  status : v.status = st.status
  deleting : st.deleting = true → v.deleting = true
  release : st.hasRelease = true → v.hasRelease = true

/-- Something happens to the Pools, the Nodes or the time. -/
structure Elsewhere (s s' : Shared) : Prop where
  claims : s'.claims = s.claims
  revision : s'.revision = s.revision
  battery : s'.battery = s.battery
  binding : s'.binding = s.binding
  deleted : s'.deleted = s.deleted
  recovered : s'.recovered = s.recovered
  history : s'.history = s.history
  now : s.now ≤ s'.now

/-- **What an action of the world does.** -/
inductive EnvStep (s : Shared) : EnvAct → Shared → Prop
  | created (key : ObjectKey) (uid : String) (fs : List String) (spec : MicroVMClaimSpec)
      (free : s.stored key = none) (new : s.isNewUID uid = true) :
      EnvStep s (.create key uid fs spec)
        (({ s.store key (some (s.newClaim key uid fs spec)) with
          keys := if key ∈ s.keys then s.keys else key :: s.keys }.note
            (.created key uid)).noteWrote uid spec.renewTime)
  | renewed (key : ObjectKey) (r : Option MicroTime) (st : MicroVMClaim)
      (hst : s.stored key = some st) :
      EnvStep s (.renew key r) ((s.store key (some (s.renewed st r))).noteWrote st.uid r)
  | touched (a : EnvAct) (key : ObjectKey) (st v : MicroVMClaim) (hst : s.stored key = some st)
      (same : Touched s st v) : EnvStep s a (s.store key (some v))
  | vanished (a : EnvAct) (key : ObjectKey) (st : MicroVMClaim) (hst : s.stored key = some st)
      (free : st.hasRelease = false) : EnvStep s a (s.store key none)
  | synced (key : ObjectKey) (n : Nat) :
      EnvStep s (.sync key n)
        { s with claims := Function.update s.claims key ((s.claims key).sync n) }
  | acted (b : BatteryAct) (b' : Battery) (h' : List Fact)
      (act : s.battery.act s.now s.history b = some (b', h')) :
      EnvStep s (.battery b) { s with battery := b', history := h' }
  | delivered (e : BatteryEvent) (sent : e ∈ s.battery.outbox) :
      EnvStep s (.deliver e) { s with
        deleted := if reportsDeletion e then s.deleted.add s.now e.vmUID else s.deleted }
  | elsewhere (a : EnvAct) (s' : Shared) (h : Elsewhere s s') : EnvStep s a s'

theorem env_cases {a : EnvAct} (ha : env a s = some s') : EnvStep s a s' := by
  cases a with
  | create key uid fs spec =>
    simp only [env] at ha
    split at ha
    · cases ha
    next hst =>
      split at ha
      next hn =>
        cases ha
        exact .created key uid fs spec hst hn
      · cases ha
  | renew key r =>
    simp only [env] at ha
    split at ha
    · cases ha
    next st hst =>
      split at ha
      · cases ha
      · cases ha
        exact .renewed key r st hst
  | delete key =>
    simp only [env] at ha
    split at ha
    · cases ha
    next st hst =>
      split at ha
      · cases ha
      · split at ha
        next he =>
          cases ha
          refine .vanished _ key st hst ?_
          rw [← Bool.not_eq_true, hasRelease_iff, List.isEmpty_iff.mp he]
          exact List.not_mem_nil
        · cases ha
          exact .touched _ key st _ hst ⟨rfl, rfl, rfl, rfl, rfl, fun _ => rfl, id⟩
  | setFinalizers key fs =>
    simp only [env] at ha
    split at ha
    · cases ha
    next st hst =>
      split at ha
      · cases ha
      next hm =>
        have hmay : Shared.mayFinalize st fs = true := by simpa using hm
        unfold Shared.mayFinalize at hmay
        rw [Bool.and_eq_true] at hmay
        have hrel := hmay.1
        split at ha
        next hg =>
          cases ha
          refine .vanished _ key st hst ?_
          rw [Bool.and_eq_true, List.isEmpty_iff] at hg
          rw [hg.2] at hrel
          simpa using hrel
        · cases ha
          refine .touched _ key st _ hst ⟨rfl, rfl, rfl, rfl, rfl, id, fun hr => ?_⟩
          rw [hr] at hrel
          exact hrel
  | setPool | setNode | syncNode =>
    cases ha
    exact .elsewhere _ _ ⟨rfl, rfl, rfl, rfl, rfl, rfl, rfl, Int.le_refl _⟩
  | sync key n =>
    cases ha
    exact .synced key n
  | tick d =>
    cases ha
    have hle : s.now ≤ s.now + d := Int.le_add_of_nonneg_right (Int.natCast_nonneg d)
    exact .elsewhere _ _ ⟨rfl, rfl, rfl, rfl, rfl, rfl, rfl, hle⟩
  | battery b =>
    obtain ⟨⟨b', h'⟩, hact, rfl⟩ := Option.map_eq_some_iff.mp ha
    exact .acted b b' h' hact
  | deliver e =>
    simp only [env] at ha
    split at ha
    next he =>
      cases ha
      exact .delivered e he
    · cases ha

/-! ## 3. Battery on its own -/

namespace Battery

/-- **An action of battery** leaves the history as it was but for a Lease of another client, or the
    end of one, creates no Lease for a claim, and renews none. -/
theorem act_frame {b' : Battery} {now : Time} {h' : List Fact}
    (ha : b.act now h a = some (b', h')) :
    h <:+ h' ∧ (∀ ev ∈ b.outbox, ev ∈ b'.outbox) ∧
      (∀ f ∈ h', (∀ id vm p e, f ≠ .leased id vm "" p e) →
        (∀ id at_ cause, f ≠ .ended id at_ cause) → f ∈ h) ∧
      ∀ l ∈ b'.leases, l ∈ b.leases ∨ l.requestID = "" := by
  cases act_cases ha with
  | leased id vm pool host =>
    refine ⟨List.suffix_cons _ _, fun ev hev => hev, fun f hf hl _ => ?_, fun l hl => ?_⟩
    · exact (List.mem_cons.mp hf).resolve_left (hl _ _ _ _)
    · rcases List.mem_cons.mp hl with rfl | hl
      · exact .inr rfl
      · exact .inl hl
  | ended id l cause =>
    refine ⟨List.suffix_cons _ _, fun ev hev => hev, fun f hf _ he => ?_, fun l hl => ?_⟩
    · exact (List.mem_cons.mp hf).resolve_left (he _ _ _)
    · exact .inl (List.mem_filter.mp hl).1
  | threshold pool d =>
    exact ⟨List.suffix_refl _, fun ev hev => hev, fun f hf _ _ => hf, fun l hl => .inl hl⟩
  | emitted ev =>
    exact ⟨List.suffix_refl _, fun ev hev => List.mem_cons_of_mem _ hev,
      fun f hf _ _ => hf, fun l hl => .inl hl⟩

end Battery

variable {s s' : Shared}

/-- Battery acts. -/
theorem inv_batteryAct (hI : Inv s) (ha : s.battery.act s.now s.history a = some (b, h)) :
    Inv { s with battery := b, history := h } := by
  obtain ⟨hle, hout, hfact, _⟩ := Battery.act_frame ha
  refine hI.extend (hI.ledger.act ha) hle hout ?_ ?_ ?_
  · exact fun k uid hm => hfact _ hm nofun nofun
  · exact fun uid id why hm _ => .inl (hfact _ hm nofun nofun)
  · intro id vm uid p e hm hrec
    obtain ⟨k, v, hv, _, rfl⟩ := hrec
    refine hfact _ hm (fun _ _ _ _ heq => ?_) nofun
    injection heq with _ _ huid
    exact absurd huid (hI.store.named k v.uid (hI.store.created k v hv))

theorem rely_batteryAct (t : Thread) (hI : Inv s)
    (ha : s.battery.act s.now s.history a = some (b, h)) :
    Rely t s { s with battery := b, history := h } := by
  obtain ⟨hle, _, hfact, hleases⟩ := Battery.act_frame ha
  refine Rely.frame rfl rfl hle (Int.le_refl _) fun k _ => ⟨rfl, fun l hl hc => ?_, ?_⟩
  · rcases hleases l hl with hl | hz
    · exact ⟨l, hl, rfl, rfl, rfl⟩
    · rw [hz] at hc
      exact absurd rfl (hI.store.named k "" hc)
  · intro id vm uid p e hc hm
    refine hfact _ hm (fun _ _ _ _ heq => ?_) nofun
    injection heq with _ _ huid
    exact absurd huid (hI.store.named k uid hc)

/-! ## 4. Facts of the API server -/

/-- A fact is noted that is neither battery's nor the creation of a claim. -/
theorem Inv.note (hI : Inv s) {f : Fact} (hq : Ledger.Quiet f)
    (hc : ∀ k uid, f ≠ .created k uid)
    (he : ∀ uid id why, f = .expired uid id why → LogOk s uid id why) : Inv (s.note f) := by
  have hle : s.history <:+ f :: s.history := List.suffix_cons _ _
  refine hI.extend (hI.ledger.note hq) hle (fun ev hev => hev) ?_ ?_ ?_
  · intro k uid hm
    exact (List.mem_cons.mp hm).resolve_left fun heq => hc k uid heq.symm
  · intro uid id why hm hw
    rcases List.mem_cons.mp hm with heq | hm
    · obtain ⟨hg, hv⟩ := he uid id why heq.symm hw
      exact .inr ⟨hg.mono hle, hv⟩
    · exact .inl hm
  · intro id vm uid p e hm _
    refine (List.mem_cons.mp hm).resolve_left fun heq => ?_
    rw [← heq] at hq
    exact hq

theorem Inv.noteWrote (hI : Inv s) (uid : String) (r : Option MicroTime) :
    Inv (s.noteWrote uid r) := by
  cases r with
  | none => exact hI
  | some r =>
    exact hI.note trivial nofun nofun

theorem Rely.noteWrote (t : Thread) (s : Shared) (uid : String) (r : Option MicroTime) :
    Rely t s (s.noteWrote uid r) := by
  cases r with
  | none => exact Rely.refl t s
  | some r => exact Rely.note nofun

theorem isNewUID_spec (hn : s.isNewUID uid = true) :
    uid ≠ "" ∧ ∀ k, Fact.created k uid ∉ s.history := by
  unfold Shared.isNewUID at hn
  simp only [Bool.and_eq_true, decide_eq_true_eq, List.all_eq_true] at hn
  refine ⟨hn.1, fun k hm => ?_⟩
  have := hn.2 _ hm
  simp at this

/-- A uid is given out. -/
theorem inv_created (hI : Inv s) (k : ObjectKey) (hn : s.isNewUID uid = true) :
    Inv (s.note (.created k uid)) := by
  obtain ⟨hne, hfresh⟩ := isNewUID_spec hn
  have hle : s.history <:+ Fact.created k uid :: s.history := List.suffix_cons _ _
  constructor
  case ledger => exact hI.ledger.note trivial
  case store =>
    refine { order := hI.store.order, revision := hI.store.revision, key := hI.store.key,
             created := fun k' v hv => hle.mem (hI.store.created k' v hv), named := ?_,
             once := ?_, ok := fun k' v hv => (hI.store.ok k' v hv).mono hle }
    · intro k' uid' hm
      rcases List.mem_cons.mp hm with heq | hm
      · cases heq
        exact hne
      · exact hI.store.named k' uid' hm
    · intro k1 k2 uid' hm1 hm2
      rcases List.mem_cons.mp hm1 with h1 | h1 <;> rcases List.mem_cons.mp hm2 with h2 | h2
      · cases h1
        cases h2
        rfl
      · cases h1
        exact absurd h2 (hfresh k2)
      · cases h2
        exact absurd h1 (hfresh k1)
      · exact hI.store.once k1 k2 uid' h1 h2
  case owned =>
    refine hI.owned.extend hle fun id vm uid' p e hm _ => ?_
    exact (List.mem_cons.mp hm).resolve_left nofun
  case memory => exact hI.memory.extend hle fun ev hev => hev
  case expired =>
    intro uid' id why hm hw
    have hm' := (List.mem_cons.mp hm).resolve_left nofun
    obtain ⟨hg, hv⟩ := hI.expired uid' id why hm' hw
    exact ⟨hg.mono hle, hv⟩

/-- **A claim is created.** -/
theorem inv_create (hI : Inv s) {fs : List String} {spec : MicroVMClaimSpec}
    (hst : s.stored k = none) (hn : s.isNewUID uid = true) :
    Inv (((s.note (.created k uid)).noteWrote uid spec.renewTime).store k
      (some (s.newClaim k uid fs spec))) := by
  obtain ⟨_, hfresh⟩ := isNewUID_spec hn
  have hI1 := (inv_created hI k hn).noteWrote uid spec.renewTime
  have hstored : ((s.note (.created k uid)).noteWrote uid spec.renewTime).claims = s.claims := by
    cases spec.renewTime with
    | none | some => rfl
  have hrev : ((s.note (.created k uid)).noteWrote uid spec.renewTime).revision = s.revision := by
    cases spec.renewTime with
    | none | some => rfl
  have hmem : Fact.created k uid ∈
      ((s.note (.created k uid)).noteWrote uid spec.renewTime).history := by
    cases spec.renewTime with
    | none => exact List.mem_cons_self
    | some r => exact List.mem_cons_of_mem _ List.mem_cons_self
  have not_kept : ∀ uid', ¬ Kept s.claims k uid' := by
    intro uid' hkept
    obtain ⟨st, hst', _, _⟩ := hkept
    simp [show (s.claims k).current = none from hst] at hst'
  rw [← hstored] at not_kept
  refine hI1.store_push ?_ ?_ ?_ ?_ ?_
  · intro v hv
    cases hv
    refine ⟨by rw [hrev]; rfl, rfl, hmem, ⟨.inl ?_, ?_⟩, ?_⟩
    · exact ⟨.inl rfl, rfl, rfl, rfl, rfl, rfl, rfl⟩
    · intro r hr
      rw [show spec.renewTime = some r from hr]
      exact List.mem_cons_self
    · intro old hold hu
      rw [hstored] at hold
      have hc := hI.store.created k old hold
      rw [show old.uid = uid from hu] at hc
      exact absurd hc (hfresh k)
  · intro v hv hr hd
    exact absurd (hI1.owned.window k v hv hr hd) (not_kept v.uid)
  · intro v hv hne
    rcases hv with hv | hv
    · cases hv
      exact absurd rfl hne
    · exact .inr ((hI1.owned.recorded k v hv hne).resolve_left (not_kept v.uid))
  · intro b hb
    obtain ⟨st, hst', hu, hr, _⟩ := hI1.owned.binding k b hb
    exact absurd ⟨st, hst', hu, hr⟩ (not_kept b.requestID)
  · intro v hv hne
    cases hv
    exact absurd rfl hne

/-- The cache catches up. -/
theorem inv_sync (hI : Inv s) (k : ObjectKey) (n : Nat) :
    Inv { s with claims := syncClaim s.claims k n } := by
  constructor
  case ledger => exact hI.ledger
  case store =>
    exact { order := fun k' => by rw [(syncClaim_spec n).1]; exact hI.store.order k'
            revision := fun k' v hv => hI.store.revision k' v (version_syncClaim.mp hv)
            key := fun k' v hv => hI.store.key k' v (version_syncClaim.mp hv)
            created := fun k' v hv => hI.store.created k' v (version_syncClaim.mp hv)
            named := hI.store.named
            once := hI.store.once
            ok := fun k' v hv => hI.store.ok k' v (version_syncClaim.mp hv) }
  case owned =>
    refine { window := ?_, recorded := ?_, binding := ?_, newest := ?_ }
    · intro k' v hv hr hd
      have hv' := (syncClaim_spec n).2.2 _ hv
      exact kept_syncClaim.mpr (hI.owned.window k' v hv' hr hd)
    · intro k' v hv hne
      rcases hI.owned.recorded k' v (version_syncClaim.mp hv) hne with hk | hg
      · exact .inl (kept_syncClaim.mpr hk)
      · exact .inr hg
    · intro k' b hb
      rw [(syncClaim_spec n).2.1]
      exact hI.owned.binding k' b hb
    · exact fun k' v hv hne => hI.owned.newest k' v (version_syncClaim.mp hv) hne
  case memory => exact hI.memory
  case expired =>
    intro uid id why hm hw
    obtain ⟨hg, k', v, hv, hrest⟩ := hI.expired uid id why hm hw
    exact ⟨hg, k', v, version_syncClaim.mpr hv, hrest⟩

theorem rely_sync (t : Thread) (s : Shared) (k : ObjectKey) (n : Nat) :
    Rely t s { s with claims := syncClaim s.claims k n } := by
  refine ⟨List.suffix_refl _, Int.le_refl _, fun k' _ => ?_⟩
  refine { versions := fun v hv => version_syncClaim.mpr hv, revision := Nat.le_refl _,
           window := fun v hv => .inl ((syncClaim_spec n).2.2 _ hv), kept := ?_, binding := rfl,
           leases := fun l hl _ => ⟨l, hl, rfl, rfl, rfl⟩, leased := fun _ _ _ _ _ _ hm => hm }
  intro st hst hr
  exact ⟨st, (syncClaim_spec n).2.1.trans hst, rfl, hr, rfl, rfl⟩

/-! ## 5. The results -/

theorem Inv.elsewhere (hI : Inv s) (h : Elsewhere s s') : Inv s' where
  ledger := by
    rw [h.battery, h.history]
    exact hI.ledger
  store := by
    rw [h.claims, h.revision, h.history]
    exact hI.store
  owned := by
    rw [h.claims, h.binding, h.history]
    exact hI.owned
  memory := by
    rw [h.battery, h.deleted, h.recovered, h.history]
    exact hI.memory
  expired := by
    rw [h.claims, h.history]
    exact hI.expired

/-- An event reaches the event watcher. -/
theorem inv_deliver (hI : Inv s) {e : BatteryEvent} (he : e ∈ s.battery.outbox) :
    Inv { s with
      deleted := if reportsDeletion e then s.deleted.add s.now e.vmUID else s.deleted } := by
  refine { hI with memory := ?_ }
  refine { deleted := fun uid hd => ?_, unlisted := hI.memory.unlisted,
           listed := hI.memory.listed }
  by_cases hr : reportsDeletion e = true
  · rw [if_pos hr] at hd
    rcases DeletedVMs.has_add hd with rfl | hd
    · exact ⟨e, he, hr, rfl⟩
    · exact hI.memory.deleted uid hd
  · rw [if_neg hr] at hd
    exact hI.memory.deleted uid hd

/-- **The world around the Operator keeps the invariant.** -/
theorem env_inv (a : EnvAct) (s s' : Shared) (hI : Inv s) (ha : env a s = some s') : Inv s' := by
  cases env_cases ha with
  | created key uid fs spec free new =>
    have h : Inv (((s.note (.created key uid)).noteWrote uid spec.renewTime).store key
        (some (s.newClaim key uid fs spec))) := inv_create hI free new
    cases hr : spec.renewTime with
    | none | some =>
      rw [hr] at h
      exact { h with }
  | renewed key r st hst =>
    have hst' : (s.noteWrote st.uid r).stored key = some st := by
      cases r with
      | none | some => exact hst
    have h := (hI.noteWrote st.uid r).touch (v := s.renewed st r) hst'
      (by cases r with | none => rfl | some r => rfl) rfl rfl rfl rfl id id ?_
    · cases r with
      | none | some => exact h
    · intro r' hr'
      rw [show r = some r' from hr']
      exact List.mem_cons_self
  | touched _ key st v hst same =>
    refine hI.touch hst same.resourceVersion same.key same.uid same.status (by rw [same.spec])
      same.deleting same.release ?_
    rw [same.spec, same.uid]
    exact (hI.store.ok key st (Inv.stored_version hst)).renewTime
  | vanished _ key st hst free => exact hI.vanish hst free
  | synced key n => exact inv_sync hI key n
  | acted b b' h' act => exact inv_batteryAct hI act
  | delivered e sent => exact inv_deliver hI sent
  | elsewhere _ _ h => exact hI.elsewhere h

/-- A new version with the status and the finalizer of the stored one meets every rely. -/
theorem Rely.touch (t : Thread) {st v : MicroVMClaim} (hst : s.stored k = some st)
    (hrv : v.resourceVersion = s.revision + 1) (hu : v.uid = st.uid)
    (hr : st.hasRelease = true → v.hasRelease = true) (hs : v.status = st.status)
    (hp : poolOf v = poolOf st) : Rely t s (s.store k (some v)) := by
  refine Rely.store (fun v' hv' => ?_) fun _ st' hst' hr' => ?_
  · cases hv'
    exact hrv
  · rw [hst] at hst'
    cases hst'
    exact ⟨v, rfl, hu, hr hr', hs, hp⟩

/-- A claim without the release finalizer goes away. -/
theorem Rely.vanish (t : Thread) {st : MicroVMClaim} (hst : s.stored k = some st)
    (hr : st.hasRelease = false) : Rely t s (s.store k none) := by
  refine Rely.store (fun v hv => by cases hv) fun _ st' hst' hr' => ?_
  rw [hst] at hst'
  cases hst'
  rw [hr] at hr'
  cases hr'

/-- **The world around the Operator meets every thread's rely.** -/
theorem env_rely (t : Thread) (a : EnvAct) (s s' : Shared) (hI : Inv s) (ha : env a s = some s') :
    Rely t s s' := by
  cases env_cases ha with
  | created key uid fs spec free new =>
    have h1 : Rely t s (s.store key (some (s.newClaim key uid fs spec))) := by
      refine Rely.store (fun v hv => ?_) fun _ st hst' _ => ?_
      · cases hv
        rfl
      · simp [free] at hst'
    have h2 : Rely t (s.store key (some (s.newClaim key uid fs spec)))
        { s.store key (some (s.newClaim key uid fs spec)) with
          keys := if key ∈ s.keys then s.keys else key :: s.keys } :=
      Rely.same rfl rfl rfl (Int.le_refl _) rfl rfl
    have h3 := (h1.trans h2).trans (Rely.note (f := .created key uid)
      nofun)
    exact h3.trans (Rely.noteWrote t _ uid spec.renewTime)
  | renewed key r st hst =>
    have h1 : Rely t s (s.store key (some (s.renewed st r))) :=
      Rely.touch t hst rfl rfl id rfl rfl
    exact h1.trans (Rely.noteWrote t _ st.uid r)
  | touched _ key st v hst same =>
    have hpool : poolOf v = poolOf st := by
      unfold poolOf
      rw [same.spec, show v.namespace_ = st.namespace_ from congrArg ObjectKey.namespace_ same.key]
    exact Rely.touch t hst same.resourceVersion same.uid same.release same.status hpool
  | vanished _ key st hst free => exact Rely.vanish t hst free
  | synced key n => exact rely_sync t s key n
  | acted b b' h' act => exact rely_batteryAct t hI act
  | delivered e => exact Rely.same rfl rfl rfl (Int.le_refl _) rfl rfl
  | elsewhere _ _ h => exact Rely.same h.claims h.revision h.history h.now h.binding h.battery

/-- **A crash keeps the invariant.** -/
theorem crash_inv (s : Shared) (hI : Inv s) : Inv (crash s) := by
  refine ⟨hI.ledger, hI.store, ?_, ?_, hI.expired⟩
  · refine { window := hI.owned.window, recorded := hI.owned.recorded, binding := ?_,
             newest := hI.owned.newest }
    nofun
  · refine { deleted := ?_, unlisted := ?_, listed := ?_ }
    · nofun
    · nofun
    · nofun

end BatteryOperator
