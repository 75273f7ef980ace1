/-
  Subject:   The claim object a reconcile writes to, when claims of one name come and go.

  A metadata patch carries the resourceVersion of the copy that was read, so it meets that object or
  fails. A status patch names its claim by the name alone, and whatever claim has the name by then
  gets it.

  * `status_of_former_claim` -- a reconcile that read a claim that is gone writes to the next one;
  * `writes_on_claim_read` -- **every write meets the claim object that was read**: a metadata patch
    always, a status patch where a claim is created only once the cache shows that the former one
    is gone and no reconcile of the name runs (`createdAlone`).
-/
import BatteryOperator.Claim.Ownership
import BatteryOperator.Claim.Reader

namespace BatteryOperator.Writes

open Lib Machine

variable {s s' : Shared} {k : ObjectKey}

/-! ## 1. The condition -/

/-- A claim is created only where nothing the cache can still show has the name, and no reconcile of
    the name runs. -/
def createdAlone (w : ReaderWorld) : Act Thread Choice EnvAct → Bool
  | .env (.create key _ _ _) =>
    (w.shared.shared.claims key).window.all Option.isNone && (w.running (.claim key)).isNone
  | _ => true

/-- The worlds reached by steps that `ok` admits, in the world around the Operator. -/
def ReachedBy (r : MicroVMClaimReconciler) (ok : ReaderWorld → Act Thread Choice EnvAct → Prop)
    (w : ReaderWorld) : Prop :=
  ∃ w0 : ReaderWorld, Numbered w0.shared.shared ∧
    (∀ k, w0.shared.shared.claims k = Register.init none) ∧ (∀ t, w0.running t = none) ∧
    (reader r env).Run ok w0 w

/-! ## 2. One uid in sight -/

/-- Every claim the cache can still show, or that is stored, has this uid. -/
def InSight (s : Shared) (k : ObjectKey) (uid : String) : Prop :=
  ∀ v, some v ∈ (s.claims k).window → v.uid = uid

/-- The claims in sight have one uid. -/
def OneUid (s : Shared) (k : ObjectKey) : Prop :=
  ∀ v, some v ∈ (s.claims k).window → InSight s k v.uid

/-- What is in sight next is in sight already, or it is a version of what is stored. -/
def Follows (k : ObjectKey) (s s' : Shared) : Prop :=
  ∀ v', some v' ∈ (s'.claims k).window →
    some v' ∈ (s.claims k).window ∨ ∃ st, s.stored k = some st ∧ v'.uid = st.uid

theorem Follows.of_claims (h : s'.claims k = s.claims k) : Follows k s s' := by
  intro v' hv'
  rw [h] at hv'
  exact .inl hv'

theorem stored_in_window {st : MicroVMClaim} (hst : s.stored k = some st) :
    some st ∈ (s.claims k).window := by
  rw [← hst]
  exact (s.claims k).current_mem_window

/-- A claim in sight after such a step has the uid of one that was in sight before. -/
theorem Follows.uid (h : Follows k s s') {v' : MicroVMClaim}
    (hv' : some v' ∈ (s'.claims k).window) :
    ∃ v, some v ∈ (s.claims k).window ∧ v'.uid = v.uid := by
  rcases h v' hv' with hold | ⟨st, hst, hu⟩
  · exact ⟨v', hold, rfl⟩
  · exact ⟨st, stored_in_window hst, hu⟩

theorem Follows.inSight (h : Follows k s s') {uid : String} (hs : InSight s k uid) :
    InSight s' k uid := by
  intro v' hv'
  obtain ⟨v, hv, hu⟩ := h.uid hv'
  exact hu.trans (hs v hv)

theorem Follows.oneUid (h : Follows k s s') (hs : OneUid s k) : OneUid s' k := by
  intro v' hv'
  obtain ⟨v, hv, hu⟩ := h.uid hv'
  rw [hu]
  exact h.inSight (hs v hv)

theorem Follows.store {k0 : ObjectKey} {c : Option MicroVMClaim}
    (hc : ∀ v, c = some v → ∃ st, s.stored k0 = some st ∧ v.uid = st.uid)
    (hcl : s'.claims = (s.store k0 c).claims) : Follows k s s' := by
  intro v' hv'
  rw [hcl] at hv'
  rcases window_pushClaim.mp hv' with ⟨rfl, hcv⟩ | hold
  · exact .inr (hc v' hcv)
  · exact .inl hold

/-- **An operation** brings no other uid into sight. -/
theorem exec_follows {t : Thread} {f : Choice} {o : Op} {a : o.Ans}
    (hx : exec t f o s = some (a, s')) : Follows k s s' := by
  cases exec_wrote hx with
  | nothing _ hcl => exact .of_claims (by rw [hcl])
  | metadata original object st c hst _ hc hcl =>
    refine .store (fun v hv => ⟨st, hst, ?_⟩) hcl
    rcases hc with rfl | ⟨rfl, _⟩
    · cases hv
      rfl
    · cases hv
  | status base object st hst hcl =>
    refine .store (fun v hv => ⟨st, hst, ?_⟩) hcl
    cases hv
    rfl

/-- **The world around the Operator** brings no other uid into sight, unless a claim is created. -/
theorem env_follows {a : EnvAct} (ha : env a s = some s')
    (hcreate : ∀ key uid fs spec, a = .create key uid fs spec → key ≠ k) : Follows k s s' := by
  cases env_cases ha with
  | created key uid fs spec =>
    refine .of_claims ?_
    rw [claims_noteWrote]
    exact pushClaim_ne (hcreate key uid fs spec rfl).symm
  | renewed key r st hst =>
    refine .store (fun v hv => ⟨st, hst, ?_⟩) (claims_noteWrote _ _ _)
    cases hv
    rfl
  | touched _ key st v hst same =>
    refine .store (fun v' hv => ⟨st, hst, ?_⟩) rfl
    cases hv
    exact same.uid
  | vanished _ key st hst => exact .store (fun v hv => by cases hv) rfl
  | synced key n => exact fun v' hv' => .inl ((syncClaim_spec n).2.2 _ hv')
  | acted | delivered => exact .of_claims rfl
  | elsewhere _ _ h => exact .of_claims (by rw [h.claims])

/-- A claim that is created where nothing is in sight is the only one in sight. -/
theorem created_inSight {uid : String} {fs : List String} {spec : MicroVMClaimSpec}
    (ha : env (.create k uid fs spec) s = some s')
    (hnone : (s.claims k).window.all Option.isNone = true) : InSight s' k uid := by
  intro v' hv'
  simp only [env] at ha
  split at ha
  · cases ha
  · split at ha
    · cases ha
      rw [claims_noteWrote] at hv'
      rcases window_pushClaim.mp hv' with ⟨_, hcv⟩ | hold
      · cases hcv
        rfl
      · have h := List.all_eq_true.mp hnone _ hold
        cases h
    · cases ha

/-! ## 3. What a running reconcile has in sight -/

/-- The operations after the read. -/
def NoGet : Op → Prop
  | .cacheGet _ => False
  | _ => True

/-- A reconcile of `k` that has read `c` works on the claims in sight. -/
structure Reading (s : Reader) (k : ObjectKey) (p : Code Unit) : Prop where
  rest : p.Only NoGet
  sight : ∃ c, s.read k = some c ∧ InSight s.shared k c.uid

/-- **The invariant**: one uid in sight of each name, which is the one a running reconcile read. -/
structure InTouch (r : MicroVMClaimReconciler) (w : ReaderWorld) (k : ObjectKey) : Prop where
  one : OneUid w.shared.shared k
  running : ∀ p, w.running (.claim k) = some p →
    p = (machine r).prog (.claim k) ∨ p = .ret () ∨ Reading w.shared k p

theorem Reading.follows {s s' : Reader} {p p' : Code Unit} (h : Reading s k p)
    (hp : p'.Only NoGet) (hread : s'.read k = s.read k) (hf : Follows k s.shared s'.shared) :
    Reading s' k p' := by
  obtain ⟨c, hc, hs⟩ := h.sight
  exact ⟨hp, c, hread.trans hc, hf.inSight hs⟩

theorem patchStatus_only (base : MicroVMClaim) (desired : MicroVMClaimStatus) :
    (Scope.patchStatus base desired).Only NoGet := by
  unfold Scope.patchStatus
  split
  · trivial
  · refine ⟨trivial, fun a => ?_⟩
    cases a with
    | ok | error => trivial

theorem patch_only (sc : Scope) : sc.patch.Only NoGet := by
  unfold Scope.patch
  split
  · exact patchStatus_only _ _
  · unfold Scope.patchMeta
    refine ⟨trivial, fun a => ?_⟩
    cases a with
    | error e =>
      show Prog.Only NoGet (if _ then _ else _)
      split <;> trivial
    | ok answer =>
      show Prog.Only NoGet (if _ then _ else _)
      split
      · trivial
      · exact patchStatus_only _ _

/-- Once the claim is read, a reconcile does not read it again. -/
theorem reconcileClaim_only (r : MicroVMClaimReconciler) (c : MicroVMClaim) :
    (r.reconcileClaim c).Only NoGet := by
  refine Prog.only_bind ((chain_within r c).only.mono fun o ho => ?_) fun o => ?_
  · cases o with
    | cacheGet => exact ho
    | _ => trivial
  · refine Prog.only_bind (patch_only _) fun perr => ?_
    split <;> trivial

/-! ## 4. The invariant -/

section Runs

variable {r : MicroVMClaimReconciler} {w w' : ReaderWorld}

theorem noteRead_noGet {t : Thread} {o : Op} {a : o.Ans}
    {read : ObjectKey → Option MicroVMClaim} (ho : NoGet o) : noteRead t o a read = read :=
  noteRead_of_ne fun key he => by
    rw [he] at ho
    exact ho

/-- A reconcile after its read. -/
def afterRead (r : MicroVMClaimReconciler) (k : ObjectKey) :
    (Op.cacheGet k).Ans → Code Unit := fun a => do
  let _ ← (match a with
    | .error e => pure ({}, if e.isNotFound then none else some e.text)
    | .ok c => r.reconcileClaim c : Code (Result × Option String))
  pure ()

theorem prog_eq (r : MicroVMClaimReconciler) (k : ObjectKey) :
    (machine r).prog (.claim k) = .op (.cacheGet k) (afterRead r k) := rfl

/-- **The read** brings the claim that the reconcile works on into sight. -/
theorem reading_read {f : Choice} {a : (Op.cacheGet k).Ans} {s s' : Reader}
    (hone : OneUid s.shared k)
    (hx : (reader r env).exec (.claim k) f (.cacheGet k) s = some (a, s')) :
    afterRead r k a = .ret () ∨ Reading s' k (afterRead r k a) := by
  obtain ⟨hx', hread⟩ := reader_exec hx
  cases a with
  | error e => exact .inl rfl
  | ok c =>
    refine .inr ⟨Prog.only_bind (reconcileClaim_only r c) fun _ => trivial, c, ?_, ?_⟩
    · rw [hread]
      exact Function.update_self ..
    · have hcopy : (s.shared.claims k).copy = some c := cacheGet_copy hx'
      have hwin : some c ∈ (s.shared.claims k).window := by
        rw [← hcopy]
        exact (s.shared.claims k).copy_mem_window
      exact (exec_follows hx').inSight (hone c hwin)

/-- **One step keeps the invariant**, where claims are created alone. -/
theorem inTouch_step {a : Act Thread Choice EnvAct} (hI : ∀ k, InTouch r w k)
    (hok : createdAlone w a = true) (hs : (reader r env).step w a = some w') (k : ObjectKey) :
    InTouch r w' k := by
  have hk := hI k
  cases a with
  | env e =>
    obtain ⟨s', hx, rfl⟩ := step_env hs
    obtain ⟨s1, hx', rfl⟩ := Option.map_eq_some_iff.mp hx
    by_cases hc : ∃ uid fs spec, e = .create k uid fs spec
    · -- a claim of this name is created: nothing else is in sight, and nobody works on it
      obtain ⟨uid, fs, spec, rfl⟩ := hc
      rw [createdAlone, Bool.and_eq_true] at hok
      have hsight := created_inSight hx' hok.1
      refine ⟨fun v hv => ?_, fun p hp => ?_⟩
      · rw [hsight v hv]
        exact hsight
      · have hrun := hok.2
        rw [show w.running (.claim k) = some p from hp] at hrun
        cases hrun
    · have hf : Follows k w.shared.shared s1 := by
        refine env_follows hx' fun key uid fs spec he hkey => hc ⟨uid, fs, spec, ?_⟩
        rw [he, hkey]
      refine ⟨hf.oneUid hk.one, fun p hp => ?_⟩
      rcases hk.running p hp with h | h | h
      · exact .inl h
      · exact .inr (.inl h)
      · exact .inr (.inr (h.follows h.rest rfl hf))
  | spawn t =>
    obtain ⟨_, rfl⟩ := step_spawn hs
    refine ⟨hk.one, fun p hp => ?_⟩
    rcases update_cases hp with ⟨rfl, hq⟩ | ⟨_, hq⟩
    · cases hq
      exact .inl rfl
    · exact hk.running p hq
  | exec t f =>
    rcases step_exec hs with ⟨o, g, a, s', hr, hx, rfl⟩ | ⟨_, rfl⟩
    · obtain ⟨hx', hread⟩ := reader_exec hx
      have hf : Follows k w.shared.shared s'.shared := exec_follows hx'
      refine ⟨hf.oneUid hk.one, fun p hp => ?_⟩
      rcases update_cases hp with ⟨rfl, hq⟩ | ⟨hne, hq⟩
      · cases hq
        rcases hk.running _ hr with h | h | h
        · rw [prog_eq] at h
          cases h
          exact .inr (reading_read hk.one hx)
        · cases h
        · refine .inr (.inr (h.follows (h.rest.2 a) ?_ hf))
          rw [hread, noteRead_noGet h.rest.1]
      · rcases hk.running p hq with h | h | h
        · exact .inl h
        · exact .inr (.inl h)
        · refine .inr (.inr (h.follows h.rest ?_ hf))
          rw [hread]
          exact noteRead_other hne.symm
    · refine ⟨hk.one, fun p hp => ?_⟩
      rcases update_cases hp with ⟨_, hq⟩ | ⟨_, hq⟩
      · cases hq
      · exact hk.running p hq
  | crash =>
    rw [step_crash hs]
    exact ⟨hk.one, nofun⟩

/-- **The invariant holds in every world reached.** -/
theorem ReachedBy.inTouch (h : ReachedBy r (fun w a => createdAlone w a = true) w) (k : ObjectKey) :
    InTouch r w k := by
  obtain ⟨w0, _, hcl, hidle, hrun⟩ := h
  induction hrun generalizing k with
  | start =>
    refine ⟨fun v hv => ?_, fun p hp => ?_⟩
    · rw [hcl k] at hv
      cases List.mem_singleton.mp hv
    · simp [hidle] at hp
  | step w w' a _ hok hs ih => exact inTouch_step ih hok hs k

theorem ReachedBy.safe {ok : ReaderWorld → Act Thread Choice EnvAct → Prop}
    (h : ReachedBy r ok w) : Safe (reader r env) spec w := by
  obtain ⟨w0, hN, _, hidle, hrun⟩ := h
  refine (reader_sound fun _ _ _ hN hx => env_numbers hN hx).reach
    ⟨hN, fun t p hp => ?_, fun _ _ => trivial⟩ hrun
  simp [hidle t] at hp

/-! ## 5. The writes -/

/-- A write of a reconcile of `k` is under `k`, and the claim it meets there, and leaves there, has
    the uid of the claim the reconcile read. -/
def OnClaimRead (w w' : ReaderWorld) (k : ObjectKey) : Prop :=
  ∀ k', (w'.shared.shared.claims k').versions ≠ (w.shared.shared.claims k').versions →
    k' = k ∧ ∃ c st, w.shared.read k = some c ∧ w.shared.shared.stored k = some st ∧
      st.uid = c.uid ∧ ∀ st', w'.shared.shared.stored k = some st' → st'.uid = c.uid

/-- The lock holds a metadata patch to the claim that was read; a status patch needs that claim to
    be the stored one. -/
theorem step_onClaimRead {f : Choice} (hsafe : Safe (reader r env) spec w)
    (hs : (reader r env).step w (.exec (.claim k) f) = some w')
    (hstatus : ∀ base object g, w.running (.claim k) = some (.op (.patchStatus base object) g) →
      ∃ c, w.shared.read k = some c ∧ InSight w.shared.shared k c.uid) : OnClaimRead w w' k := by
  intro k' hne
  have hN : Numbered w.shared.shared := hsafe.inv
  rcases step_exec hs with ⟨o, g, a, s', hr, hx, rfl⟩ | ⟨_, rfl⟩
  · obtain ⟨hx', _⟩ := reader_exec hx
    have hpre : Pre (.claim k) o w.shared := (hsafe.safe _ _ hr _ (rely_refl _ _) hN).1
    -- what is written is all that is written, and keeps the uid
    have met : ∀ {key : ObjectKey} {c0 : Option MicroVMClaim} {c st : MicroVMClaim}, key = k →
        s'.shared.claims = (w.shared.shared.store key c0).claims → w.shared.read k = some c →
        w.shared.shared.stored key = some st → st.uid = c.uid →
        (∀ v, c0 = some v → v.uid = st.uid) →
        k' = k ∧ ∃ c st, w.shared.read k = some c ∧ w.shared.shared.stored k = some st ∧
          st.uid = c.uid ∧ ∀ st', s'.shared.stored k = some st' → st'.uid = c.uid := by
      rintro key c0 c st rfl hcl hc hst hu hc0
      refine ⟨?_, c, st, hc, hst, hu, fun st' hst' => ?_⟩
      · by_contra hkk
        exact hne (by rw [hcl]; exact congrArg _ (pushClaim_ne hkk))
      · rcases versions_store (k := key) w.shared.shared key c0 with ⟨h, _⟩ | ⟨_, heq⟩
        · exact absurd rfl h
        · rw [← hcl] at heq
          exact (hc0 st' ((current_of_cons heq).symm.trans hst')).trans hu
    cases exec_wrote hx' with
    | nothing _ hcl => exact absurd (by rw [hcl]) hne
    | metadata original object st c0 hst hrv hc0 hcl =>
      obtain ⟨hread, hver, _⟩ := hpre
      have hkey : original.key = k := hN.key k original hver
      have heq : st = original := by
        rw [hkey] at hst
        exact hN.eq_of_version hst hver hrv
      refine met hkey hcl hread hst (by rw [heq]) fun v hv => ?_
      rcases hc0 with rfl | ⟨rfl, _⟩
      · cases hv
        rfl
      · cases hv
    | status base object st hst hcl =>
      have hkey : base.key = k := hpre.1
      obtain ⟨c, hc, hsight⟩ := hstatus base object g hr
      have hu := hsight st (stored_in_window (hkey ▸ hst))
      refine met hkey hcl hc hst hu fun v hv => ?_
      cases hv
      rfl
  · exact absurd rfl hne

/-- **Every write meets the claim object that was read**: a metadata patch always, and a status
    patch in every run in which claims are created alone. -/
theorem writes_on_claim_read (r : MicroVMClaimReconciler) (w w' : ReaderWorld) (k : ObjectKey)
    (f : Choice) (hs : (reader r env).step w (.exec (.claim k) f) = some w') :
    (ReachedBy r (fun _ _ => True) w →
      (∀ base object g, w.running (.claim k) ≠ some (.op (.patchStatus base object) g)) →
      OnClaimRead w w' k) ∧
    (ReachedBy r (fun w a => createdAlone w a = true) w → OnClaimRead w w' k) := by
  refine ⟨fun h hno => step_onClaimRead h.safe hs fun base object g hr =>
    absurd hr (hno base object g), fun h => step_onClaimRead h.safe hs fun base object g hr => ?_⟩
  -- the running reconcile has read its claim, and that is the claim in sight
  rcases (h.inTouch k).running _ hr with hp | hp | hp
  · rw [prog_eq] at hp
    cases hp
  · cases hp
  · exact hp.sight

end Runs

/-- A schedule that can be run reaches a world; what holds of it can be computed. -/
theorem exists_reachedBy (ok : ReaderWorld → Act Thread Choice EnvAct → Bool)
    (acts : List (Act Thread Choice EnvAct)) (P : ReaderWorld → Prop) [DecidablePred P]
    (h : ((reader {} env).replay (fun w a => ok w a = true) quiet acts).any
      (fun w => decide (P w)) = true) :
    ∃ w, ReachedBy {} (fun w a => ok w a = true) w ∧ P w := by
  obtain ⟨w, hrun, hp⟩ := exists_run _ acts P h
  exact ⟨w, ⟨quiet, quiet_numbered, fun _ => rfl, fun _ => rfl, hrun⟩, hp⟩

/-- The uid of the claim that was read, and the uid and the status of the stored one. -/
def uidRead (w : ReaderWorld) : Option String :=
  (w.shared.read claimKey).map fun c => c.uid

def uidStored (w : ReaderWorld) : Option String :=
  (w.shared.shared.stored claimKey).map fun c => c.uid

def statusStored (w : ReaderWorld) : Option MicroVMClaimStatus :=
  (w.shared.shared.stored claimKey).map fun c => c.status

/-- A claim that binds is written to under its own uid. -/
theorem writes_on_claim_read_bound :
    ∃ w w' c st, ReachedBy {} (fun w a => createdAlone w a = true) w ∧
      (reader {} env).step w (.exec (.claim claimKey) .ok) = some w' ∧
      statusStored w ≠ statusStored w' ∧ w.shared.read claimKey = some c ∧
      w.shared.shared.stored claimKey = some st ∧ st.uid = c.uid := by
  obtain ⟨w, hr, hp⟩ := exists_reachedBy createdAlone (claimSent none ++ granted :: operations 3)
    (fun w => (((reader {} env).step w (.exec (.claim claimKey) .ok)).any fun w' =>
      decide (statusStored w ≠ statusStored w')) = true) (by decide +kernel)
  obtain ⟨w', hs, hne⟩ := (Option.any_eq_true ..).mp hp
  have hne := of_decide_eq_true hne
  have hversions : (w'.shared.shared.claims claimKey).versions ≠
      (w.shared.shared.claims claimKey).versions := by
    intro he
    refine hne ?_
    unfold statusStored
    rw [current_of_versions he]
  obtain ⟨_, c, st, hc, hst, hu, _⟩ :=
    (writes_on_claim_read {} w w' claimKey .ok hs).2 hr claimKey hversions
  exact ⟨w, w', c, st, hr, hs, hne, hc, hst, hu⟩

/-- The claim is deleted and released, and gone; another one of its name is created. The cache still
    shows the first one, and the next reconcile fails to release its Lease once more. -/
def recreated : List (Act Thread Choice EnvAct) :=
  bound none ++ .env (.delete claimKey) :: reconcileNow ++ operations 2 ++
    .exec (.claim claimKey) (.serve .carryOut none) :: operations 3 ++
    [.env (.create claimKey "uid-2" [] ⟨"pool", none, "holder"⟩), .spawn (.claim claimKey)] ++
    operations 2 ++ .exec (.claim claimKey) (.lost ⟨.unavailable, "connection lost"⟩) ::
    operations 3

/-- **A reconcile that read a claim that is gone writes to the next one of its name.** -/
theorem status_of_former_claim :
    ∃ w w', ReachedBy {} (fun _ _ => True) w ∧
      (reader {} env).step w (.exec (.claim claimKey) .ok) = some w' ∧
      uidRead w = some "uid-1" ∧ uidStored w = some "uid-2" ∧ uidStored w' = some "uid-2" ∧
      statusStored w' ≠ statusStored w := by
  obtain ⟨w, hr, hp⟩ := exists_reachedBy (fun _ _ => true) recreated
    (fun w => (((reader {} env).step w (.exec (.claim claimKey) .ok)).any fun w' =>
      decide (uidRead w = some "uid-1" ∧ uidStored w = some "uid-2" ∧
        uidStored w' = some "uid-2" ∧ statusStored w' ≠ statusStored w)) = true) (by decide +kernel)
  obtain ⟨w', hs, hne⟩ := (Option.any_eq_true ..).mp hp
  obtain ⟨w0, hN, hcl, hidle, hrun⟩ := hr
  exact ⟨w, w', ⟨w0, hN, hcl, hidle, hrun.mono fun _ _ _ => trivial⟩, hs, of_decide_eq_true hne⟩

end BatteryOperator.Writes
