/-
  Subject:   What one step does: it stores at most one version of each claim, of a known kind, and
             battery and its part of the history move only where battery acts.

  * `Derived` -- the version of a step that is no status patch: a new claim's, or the stored one
    with its status;
  * `patched_status` -- **the four status patches**, against the stored claim they meet;
  * `env_versions`, `exec_versions`, `step_versions` -- **the versions**;
  * `env_frame`, `exec_frame` -- **battery and the history**;
  * `ReachableBy.battery_invariant` -- **an invariant of battery**, from its actions and answers.
-/
import BatteryOperator.Claim.Sound

namespace BatteryOperator

open Lib

variable {s s' : Shared} {k : ObjectKey}

/-! ## 1. A status patch -/

/-- What a status patch leaves of the stored claim `st`. -/
inductive Patched (s : Shared) (k : ObjectKey) (base : MicroVMClaim) (d : MicroVMClaimStatus)
    (st : MicroVMClaim) (m : MicroVMClaimStatus) : Prop where
  | touched (ok : TouchOk base d) (same : m = { st.status with conditions := m.conditions })
  | pending (ok : PendingOk s k base d) (ubase : Unbound base.status) (ust : Unbound st.status)
      (same : m = { st.status with
        phase := mergeField base.status.phase .pending st.status.phase
        conditions := m.conditions })
  | held (ok : HeldOk s k base d) (uid : st.uid = base.uid) (bound : base.status.phase = .bound)
      (keeps : Keeps base st) (leaseID : m.leaseID = base.status.leaseID)
      (phase : (d.phase = .bound ∧ m.phase = st.status.phase) ∨
        (d.phase = .expired ∧ m.phase = .expired))
  | bound (claimed : Claim) (ok : BoundOk s k base d claimed) (ubase : Unbound base.status)
      (ust : Unbound st.status) (uid : st.uid = base.uid) (phase : m.phase = .bound)
      (leaseID : m.leaseID = claimed.leaseID)

variable {st v : MicroVMClaim} {t : Thread} {f : Choice} {o : Op} {r : MicroVMClaimReconciler}
  {w : ClaimWorld}

/-- **The four status patches.** -/
theorem patched_status (hI : Inv s) {base object : MicroVMClaim} (hs : StatusOk s k base object)
    (hst : s.stored k = some st) :
    Patched s k base object.status st (s.patchedStatus base object st).status := by
  have hver := hs.version
  have awaited : ∀ pool, Awaiting s k base.uid pool → base.status.leaseID = "" →
      Unbound base.status ∧ Unbound st.status ∧ st.uid = base.uid := by
    intro pool hbinding hb
    obtain ⟨st', hst', hu, _, he, _⟩ := hbinding
    rw [hst] at hst'
    cases hst'
    exact ⟨(hI.store.ok k base hver).unbound hb,
      (hI.store.ok k st (Inv.stored_version hst)).unbound he, hu⟩
  rcases hs.change with ⟨_, hd | hd | hd⟩ | ⟨claimed, hd⟩
  · refine .touched hd ?_
    show MicroVMClaimStatus.merge _ _ _ = _
    rw [hd.status]
    exact MicroVMClaimStatus.merge_touch _ _ _
  · obtain ⟨hub, hus, _⟩ := awaited _ hd.awaiting hd.unbound
    refine .pending hd hub hus ?_
    show MicroVMClaimStatus.merge _ _ _ = _
    rw [hd.status]
    exact MicroVMClaimStatus.merge_pending _ _ _
  · obtain ⟨st', hst', hu, hphase, hne, hk, hrs, hrb⟩ := hd.stored hI hver
    rw [hst] at hst'
    cases hst'
    obtain ⟨hl, _⟩ := MicroVMClaimStatus.merge_held hd.leaseID hd.microVM hd.nodeName hd.boundTime
      hrb.host hrs.host
    refine .held hd hu hphase hk (hl.trans (hk.lease hne).1) ?_
    show (_ ∧ mergeField base.status.phase object.status.phase st.status.phase = _) ∨
      (_ ∧ mergeField base.status.phase object.status.phase st.status.phase = _)
    rcases hd.phase with ⟨hp, _⟩ | ⟨hp, _⟩
    · rw [hp, hphase, mergeField_self]
      exact .inl ⟨rfl, rfl⟩
    · rw [hp, hphase]
      exact .inr ⟨rfl, mergeField_of_ne (by decide) _⟩
  · obtain ⟨hub, hus, hu⟩ := awaited _ hd.awaiting hd.unbound
    obtain ⟨now, hst2⟩ := hd.status
    obtain ⟨cs, hm⟩ := MicroVMClaimStatus.merge_bound hub hus claimed base.spec.renewTime now
      object.status.conditions
    rw [← hst2] at hm
    have hm' : (s.patchedStatus base object st).status = _ := hm
    exact .bound claimed hd hub hus hu (by rw [hm']) (by rw [hm'])

/-! ## 2. One step -/

/-- A version that no status patch wrote: a new claim's, or the stored one's with its status. -/
def Derived (s : Shared) (k : ObjectKey) (v : MicroVMClaim) : Prop :=
  (s.stored k = none ∧ v.status = {}) ∨
    ∃ st, s.stored k = some st ∧ v.uid = st.uid ∧ v.status = st.status

/-- The versions of the claim under `k` are as they were, or there is one more, without a new
    status. -/
def Kin (k : ObjectKey) (s s' : Shared) : Prop :=
  (s'.claims k).versions = (s.claims k).versions ∨
    ∃ c, (s'.claims k).versions = c :: (s.claims k).versions ∧ ∀ v, c = some v → Derived s k v

theorem Kin.of_claims (h : s'.claims = s.claims) : Kin k s s' := .inl (by rw [h])

/-- Nothing else of the state matters. -/
theorem Kin.claims {s1 : Shared} (h : Kin k s s1) (heq : s'.claims = s1.claims) : Kin k s s' := by
  unfold Kin at h ⊢
  rw [heq]
  exact h

/-- A push under one key. -/
theorem versions_store (s : Shared) (k0 : ObjectKey) (c : Option MicroVMClaim) :
    (k ≠ k0 ∧ ((s.store k0 c).claims k).versions = (s.claims k).versions) ∨
      (k = k0 ∧ ((s.store k0 c).claims k).versions = c :: (s.claims k).versions) := by
  by_cases hk : k = k0
  · subst hk
    refine .inr ⟨rfl, ?_⟩
    show (pushClaim s.claims k c k).versions = _
    rw [pushClaim_self]
    rfl
  · refine .inl ⟨hk, ?_⟩
    show (pushClaim s.claims k0 c k).versions = _
    rw [pushClaim_ne hk]

theorem Kin.store {k0 : ObjectKey} {c : Option MicroVMClaim}
    (hc : ∀ v, c = some v → Derived s k0 v) : Kin k s (s.store k0 c) := by
  rcases versions_store (k := k) s k0 c with ⟨_, h⟩ | ⟨rfl, h⟩
  · exact .inl h
  · exact .inr ⟨c, h, hc⟩

theorem Kin.stored {k0 : ObjectKey} (hst : s.stored k0 = some st) (hu : v.uid = st.uid)
    (hs : v.status = st.status) : Kin k s (s.store k0 (some v)) := by
  refine Kin.store fun v' hv' => ?_
  cases hv'
  exact .inr ⟨st, hst, hu, hs⟩

theorem Kin.gone (k0 : ObjectKey) : Kin k s (s.store k0 none) :=
  Kin.store fun v hv => by cases hv

theorem claims_noteWrote (s : Shared) (uid : String) (r : Option MicroTime) :
    (s.noteWrote uid r).claims = s.claims := by
  cases r with
  | none | some => rfl

/-- **The world around the Operator writes no status.** -/
theorem env_versions {a : EnvAct} (ha : env a s = some s') : Kin k s s' := by
  cases env_cases ha with
  | created key uid fs spec free =>
    have h1 : Kin k s (s.store key (some (s.newClaim key uid fs spec))) := by
      refine Kin.store fun v hv => ?_
      cases hv
      exact .inl ⟨free, rfl⟩
    refine h1.claims ?_
    rw [claims_noteWrote]
    rfl
  | renewed key r st hst =>
    have h1 : Kin k s (s.store key (some (s.renewed st r))) := Kin.stored hst rfl rfl
    exact h1.claims (claims_noteWrote _ _ _)
  | touched _ key st v hst same => exact Kin.stored hst same.uid same.status
  | vanished _ key st => exact Kin.gone key
  | synced key n => exact .inl (syncClaim_spec n).1
  | acted | delivered => exact Kin.of_claims rfl
  | elsewhere _ _ h => exact Kin.of_claims h.claims

/-- An operation leaves the claims, or it is a patch. -/
inductive Writes.Wrote (s s' : Shared) : Op → Prop
  | nothing (o : Op) (claims : s'.claims = s.claims) (revision : s'.revision = s.revision) :
      Wrote s s' o
  | metadata (original object st : MicroVMClaim) (c : Option MicroVMClaim)
      (stored : s.stored original.key = some st)
      (lock : st.resourceVersion = original.resourceVersion)
      (written : c = some (s.patchedMeta original object st) ∨
        (c = none ∧ (s.patchedMeta original object st).finalizers = []))
      (claims : s'.claims = (s.store original.key c).claims)
      (revision : s'.revision = s.revision + 1) : Wrote s s' (.patchMeta original object)
  | status (base object st : MicroVMClaim) (stored : s.stored base.key = some st)
      (claims : s'.claims =
        (s.store base.key (some (s.patchedStatus base object st))).claims)
      (revision : s'.revision = s.revision + 1) : Wrote s s' (.patchStatus base object)

/-- **What an operation writes.** -/
theorem Writes.exec_wrote {r : o.Ans} (hx : exec t f o s = some (r, s')) : Wrote s s' o := by
  cases exec_cases hx with
  | idle | lookedUp | recorded | logged => exact .nothing _ rfl rfl
  | sent uid call =>
    cases call with
    | claimVM pool rid => cases t <;> exact .nothing _ rfl rfl
    | heartbeat | releaseVM | listLeases => exact .nothing _ rfl rfl
  | received uid call _ _ hcall =>
    obtain ⟨hcl, hrev, _⟩ := receive_frame hcall
    exact .nothing _ hcl hrev
  | patchedMeta original object _ h =>
    rcases h with rfl | rfl
    · exact .nothing _ rfl rfl
    · rcases patchMeta_cases s original object with ⟨e, he⟩ | ⟨st, hst, hrv, ⟨hg, hp⟩ | ⟨_, hp⟩⟩
      · rw [he]
        exact .nothing _ rfl rfl
      · rw [hp]
        rw [Bool.and_eq_true, List.isEmpty_iff] at hg
        exact .metadata original object st none hst hrv (.inr ⟨rfl, hg.2⟩) rfl rfl
      · rw [hp]
        exact .metadata original object st _ hst hrv (.inl rfl) rfl rfl
  | patchedStatus base object s1 h =>
    have hs1 : Wrote s s1 (.patchStatus base object) := by
      rcases h with rfl | rfl
      · exact .nothing _ rfl rfl
      · rcases patchStatus_cases s base object with ⟨e, he⟩ | ⟨st, hst, hp⟩
        · rw [he]
          exact .nothing _ rfl rfl
        · rw [hp]
          exact .status base object st hst rfl rfl
    cases t with
    | recovery => exact hs1
    | claim key =>
      -- the thread's binding is none of the claims
      cases hs1 with
      | nothing _ hcl hrev => exact .nothing _ hcl hrev
      | status _ _ st hst hcl hrev => exact .status base object st hst hcl hrev

/-- A status patch of the claim under `k` was stored. -/
def PatchStored (k : ObjectKey) (base object : MicroVMClaim) (s s' : Shared) : Prop :=
  StatusOk s k base object ∧ ∃ st, s.stored k = some st ∧
    (s'.claims k).versions = some (s.patchedStatus base object st) :: (s.claims k).versions

/-- **An operation writes a status only if it is a status patch of the claim.** -/
theorem exec_versions {r : o.Ans} (hI : Inv s) (hpre : Pre t o s)
    (hx : exec t f o s = some (r, s')) :
    Kin k s s' ∨ ∃ base object, t = .claim k ∧ o = .patchStatus base object ∧
      PatchStored k base object s s' := by
  cases Writes.exec_wrote hx with
  | nothing _ hcl => exact .inl (Kin.of_claims hcl)
  | metadata original object st c hst _ hc hcl =>
    rcases hc with rfl | ⟨rfl, _⟩
    · have h1 : Kin k s (s.store original.key (some (s.patchedMeta original object st))) :=
        Kin.stored hst rfl rfl
      exact .inl (h1.claims hcl)
    · exact .inl ((Kin.gone original.key).claims hcl)
  | status base object st hst hcl =>
    cases t with
    | recovery => exact hpre.elim
    | claim key =>
      have hkey : base.key = key := hI.store.key key base hpre.version
      subst hkey
      rcases versions_store (k := k) s base.key (some (s.patchedStatus base object st)) with
        ⟨_, h⟩ | ⟨rfl, h⟩
      · exact .inl (.inl (by rw [hcl, h]))
      · exact .inr ⟨base, object, rfl, rfl, hpre, st, hst, by rw [hcl, h]⟩

/-- **What a step of the machine stores.** -/
theorem step_versions {w' : ClaimWorld} {a : ClaimAct} (hw : Machine.Safe (machine r) claimSpec w)
    (hs : (machine r).step w a = some w') :
    Kin k w.shared w'.shared ∨ ∃ f base object g, a = .exec (.claim k) f ∧
      w.running (.claim k) = some (.op (.patchStatus base object) g) ∧
      PatchStored k base object w.shared w'.shared := by
  rcases (sound r).step_cases hw hs with ⟨e, rfl, hx⟩ | ⟨t, f, o, g, x, rfl, hrun, hpre, hx⟩ | he |
    ⟨_, he⟩
  · exact .inl (env_versions hx)
  · rcases exec_versions (k := k) hw.inv hpre hx with h | ⟨base, object, rfl, rfl, h⟩
    · exact .inl h
    · exact .inr ⟨f, base, object, g, rfl, hrun, h⟩
  · exact .inl (Kin.of_claims (by rw [he]))
  · exact .inl (Kin.of_claims (by rw [he]; rfl))

/-! ## 3. The stored claim before and after a step -/

theorem current_of_versions (h : (s'.claims k).versions = (s.claims k).versions) :
    s'.stored k = s.stored k := (List.cons.inj h).1

theorem current_of_cons {c : Option MicroVMClaim}
    (h : (s'.claims k).versions = c :: (s.claims k).versions) : s'.stored k = c :=
  (List.cons.inj h).1

theorem version_of_cons {c : Option MicroVMClaim}
    (h : (s'.claims k).versions = c :: (s.claims k).versions) :
    Version s'.claims k v ↔ c = some v ∨ Version s.claims k v := by
  unfold Version
  rw [h, List.mem_cons, eq_comm]

theorem version_of_versions (h : (s'.claims k).versions = (s.claims k).versions) :
    Version s'.claims k v ↔ Version s.claims k v := by
  unfold Version
  rw [h]

/-- Without a status patch a claim that is stored before and after has its status. -/
theorem Kin.status {st' : MicroVMClaim} (h : Kin k s s') (hst : s.stored k = some st)
    (hst' : s'.stored k = some st') : st'.status = st.status := by
  rcases h with h | ⟨c, h, hc⟩
  · rw [current_of_versions h, hst] at hst'
    cases hst'
    rfl
  · rw [current_of_cons h] at hst'
    rcases hc st' hst' with ⟨hn, _⟩ | ⟨st2, hst2, _, heq⟩
    · rw [hst] at hn
      cases hn
    · rw [hst] at hst2
      cases hst2
      exact heq

/-- A version after a step without a status patch. -/
theorem Kin.version (h : Kin k s s') (hv : Version s'.claims k v) :
    Version s.claims k v ∨ Derived s k v := by
  rcases h with h | ⟨c, h, hc⟩
  · exact .inl ((version_of_versions h).mp hv)
  · rcases (version_of_cons h).mp hv with heq | hv
    · exact .inr (hc v heq)
    · exact .inl hv

/-- A version after a status patch. -/
theorem PatchStored.version {base object : MicroVMClaim} (hI : Inv s)
    (h : PatchStored k base object s s') (hv : Version s'.claims k v) :
    Version s.claims k v ∨ ∃ st, s.stored k = some st ∧ v = s.patchedStatus base object st ∧
      Patched s k base object.status st v.status := by
  obtain ⟨hok, st, hst, hvs⟩ := h
  rcases (version_of_cons hvs).mp hv with heq | hv
  · cases heq
    exact .inr ⟨st, hst, rfl, patched_status hI hok hst⟩
  · exact .inl hv

/-! ## 4. Battery and the history -/

/-- Battery is as it was, and so is its part of the history; time may have passed. -/
structure Aside (s s' : Shared) : Prop where
  battery : s'.battery = s.battery
  now : s.now ≤ s'.now
  history : ∃ new, s'.history = new ++ s.history ∧ ∀ f ∈ new, ¬ Battery.OwnFact f

theorem Aside.same (hb : s'.battery = s.battery) (hn : s'.now = s.now)
    (hh : s'.history = s.history) : Aside s s' :=
  ⟨hb, Int.le_of_eq hn.symm, [], hh, fun f hf => by cases hf⟩

theorem Aside.note {f : Fact} (hf : ¬ Battery.OwnFact f) : Aside s (s.note f) := by
  refine ⟨rfl, Int.le_refl _, [f], rfl, fun g hg => ?_⟩
  rw [List.mem_singleton.mp hg]
  exact hf

/-- A fact of battery's was there before. -/
theorem Aside.mem (h : Aside s s') {f : Fact} (hf : Battery.OwnFact f) (hm : f ∈ s'.history) :
    f ∈ s.history := by
  obtain ⟨new, heq, hnew⟩ := h.history
  rw [heq] at hm
  rcases List.mem_append.mp hm with hm | hm
  · exact absurd hf (hnew f hm)
  · exact hm

/-- **The world around the Operator**, battery apart. -/
theorem env_frame {a : EnvAct} (ha : env a s = some s') :
    (∃ b, a = .battery b ∧ s'.claims = s.claims ∧ s'.now = s.now ∧
      s.battery.act s.now s.history b = some (s'.battery, s'.history)) ∨ Aside s s' := by
  have wrote (s1 : Shared) (uid : String) (x : Option MicroTime) :
      Aside s1 (s1.noteWrote uid x) := by
    cases x with
    | none => exact Aside.same rfl rfl rfl
    | some t => exact Aside.note id
  cases env_cases ha with
  | created key uid fs spec =>
    obtain ⟨hb, hn, new, hh, hnew⟩ := wrote ({ s.store key (some (s.newClaim key uid fs spec))
      with keys := if key ∈ s.keys then s.keys else key :: s.keys }.note (.created key uid))
      uid spec.renewTime
    refine .inr ⟨hb, hn, new ++ [.created key uid], ?_, fun f hf => ?_⟩
    · rw [hh, List.append_assoc]
      rfl
    · rcases List.mem_append.mp hf with hf | hf
      · exact hnew f hf
      · rw [List.mem_singleton.mp hf]
        exact id
  | renewed key r st =>
    obtain ⟨hb, hn, hh⟩ := wrote (s.store key (some (s.renewed st r))) st.uid r
    exact .inr ⟨hb, hn, hh⟩
  | touched | vanished | synced | delivered => exact .inr (Aside.same rfl rfl rfl)
  | acted b b' h' act => exact .inl ⟨b, rfl, rfl, rfl, act⟩
  | elsewhere _ _ h => exact .inr ⟨h.battery, h.now, [], h.history, fun f hf => by cases hf⟩

/-- **An operation** other than the end of a call. -/
theorem exec_frame {r : o.Ans} (hx : exec t f o s = some (r, s')) :
    (∃ uid call, o = .receive uid call) ∨ Aside s s' := by
  cases exec_cases hx with
  | idle | lookedUp | recorded => exact .inr (Aside.same rfl rfl rfl)
  | sent uid call =>
    refine .inr ?_
    cases call with
    | claimVM pool rid =>
      cases t with
      | claim key =>
        obtain ⟨hb, hn, hh⟩ := Aside.note (s := s.setBinding key (some ⟨rid, none⟩))
          (f := .sent uid (.claimVM pool rid)) id
        exact ⟨hb, hn, hh⟩
      | recovery => exact Aside.note id
    | heartbeat | releaseVM | listLeases => exact Aside.note fun h => h
  | received uid call => exact .inl ⟨uid, call, rfl⟩
  | logged uid id why => exact .inr (Aside.note fun h => h)
  | patchedMeta original object _ h =>
    rcases h with rfl | rfl
    · exact .inr (Aside.same rfl rfl rfl)
    · rcases patchMeta_cases s original object with ⟨e, he⟩ | ⟨st, _, _, ⟨_, hp⟩ | ⟨_, hp⟩⟩
      · rw [he]
        exact .inr (Aside.same rfl rfl rfl)
      · rw [hp]
        exact .inr (Aside.same rfl rfl rfl)
      · rw [hp]
        exact .inr (Aside.same rfl rfl rfl)
  | patchedStatus base object s1 h =>
    have settled : ∀ s1 : Shared, Aside s s1 → Aside s (t.setBinding s1 none) := by
      intro s1 hsame
      obtain ⟨hb, hn, hh⟩ := hsame
      cases t with
      | claim | recovery => exact ⟨hb, hn, hh⟩
    refine .inr (settled _ ?_)
    rcases h with rfl | rfl
    · exact Aside.same rfl rfl rfl
    · rcases patchStatus_cases s base object with ⟨e, he⟩ | ⟨st, _, hp⟩
      · rw [he]
        exact Aside.same rfl rfl rfl
      · rw [hp]
        exact Aside.same rfl rfl rfl

/-! ## 5. A whole run, for battery -/

/-- No version is forgotten. -/
def Grown (s s' : Shared) : Prop := ∀ k v, Version s.claims k v → Version s'.claims k v

theorem Kin.grown (h : Kin k s s') (hv : Version s.claims k v) : Version s'.claims k v := by
  rcases h with heq | ⟨c, heq, _⟩
  · exact (version_of_versions heq).mpr hv
  · exact (version_of_cons heq).mpr (.inr hv)

theorem exec_grown {r : o.Ans} (hI : Inv s) (hpre : Pre t o s) (hx : exec t f o s = some (r, s')) :
    Grown s s' := by
  intro k v hv
  rcases exec_versions (k := k) hI hpre hx with hkin | ⟨base, object, _, _, _, st, _, hvs⟩
  · exact hkin.grown hv
  · exact (version_of_cons hvs).mpr (.inr hv)

/-- **No version is forgotten along a run.** -/
theorem ReachableBy.grown {ok ok' : ClaimWorld → ClaimAct → Prop} {w' : ClaimWorld}
    (h : ReachableBy r ok w) (hrun : (machine r).Run ok' w w') : Grown w.shared w'.shared := by
  intro k v hv
  refine (sound r).invariant h.safe (C := fun s => Version s.claims k v) hv ?_ ?_ ?_ hrun
  · exact fun w e s' _ _ hC hx _ => (env_versions hx).grown hC
  · exact fun w t f o g x s' _ _ hI hpre hC hx _ => exec_grown hI hpre hx k v hC
  · exact fun s _ hC => hC

/-- **An invariant of battery**: of its actions, of its answers, and of what goes on beside it. -/
theorem ReachableBy.battery_invariant {ok : ClaimWorld → ClaimAct → Prop} (h : ReachableBy r ok w)
    {C : Shared → Prop} (hstart : ∀ w0, Start w0 → C w0.shared)
    (haside : ∀ s s', C s → Aside s s' → Grown s s' → C s')
    (hact : ∀ w a s', ok w (.env (.battery a)) → Inv w.shared → C w.shared →
      s'.claims = w.shared.claims → s'.now = w.shared.now →
      w.shared.battery.act w.shared.now w.shared.history a = some (s'.battery, s'.history) → C s')
    (hserve : ∀ w t uid call g sv lost r0 s', ok w (.exec t (.serve sv lost)) →
      w.running t = some (.op (.receive uid call) g) → Inv w.shared →
      Pre t (.receive uid call) w.shared → C w.shared → s'.claims = w.shared.claims →
      s'.now = w.shared.now →
      w.shared.battery.serve w.shared.now w.shared.history call sv =
        some (r0, s'.battery, s'.history) → C s') : C w.shared := by
  refine h.invariant hstart ?_ ?_ ?_
  · intro w e s' hok hI hC hx _
    rcases env_frame hx with ⟨a, rfl, hcl, hnow, ha⟩ | ha
    · exact hact w a s' hok hI hC hcl hnow ha
    · exact haside _ s' hC ha fun k v hv => (env_versions hx).grown hv
  · intro w t c o g a s' hok hrun hI hpre hC hx _
    rcases exec_frame hx with ⟨uid, call, rfl⟩ | ha
    · obtain ⟨hcl, _, hnow, _⟩ := receive_frame hx
      rcases receive_served hx with ⟨hb, hh⟩ | ⟨sv, lost, r0, rfl, hs⟩
      · exact haside _ s' hC (Aside.same hb hnow hh) fun k v hv => (Kin.of_claims hcl).grown hv
      · exact hserve w t uid call g sv lost r0 s' hok hrun hI hpre hC hcl hnow hs
    · exact haside _ s' hC ha (exec_grown hI hpre hx)
  · exact fun s _ hC => haside s (crash s) hC (Aside.same rfl rfl rfl) fun k v hv => hv

end BatteryOperator
