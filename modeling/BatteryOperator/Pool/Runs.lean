/-
  Subject:   What holds of a name's Pools in every run: battery's Pool has its object, and the
             observed generation tells the truth.

  * `exec_guard`, `env_guard` -- who may take the finalizer away;
  * `pool_has_object` -- **a Pool in battery always has its object**, the finalizer goes only once
    battery holds nothing, and after DeletePool nothing but the drained spec is sent;
  * `observedGeneration_true` -- **what the status says was observed, battery accepted**, and what
    battery holds for it is the spec of that generation;
  * `deletePool_with_object` -- a Pool is deleted only with its object.
-/
import BatteryOperator.Pool.Sound
import BatteryOperator.Pool.Wire

namespace BatteryOperator.Pools

open Lib

variable {key : ObjectKey} {s s' : State}

/-! ## 1. Reachable worlds -/

theorem inv_start (key : ObjectKey) : Inv key start.shared where
  order := by
    refine ⟨List.pairwise_singleton _ _, fun v hv p hp => ?_⟩
    cases List.mem_singleton.mp hv
    cases hp
  guarded := by
    have hnone : ∀ x ∈ start.shared.stored.window, ¬ x.Guarded := by
      intro x hx
      cases List.mem_singleton.mp hx
      exact not_guarded_none 0
    exact ⟨fun x hx hg => absurd hg (hnone x hx), fun x hx _ _ hg => absurd hg (hnone x hx)⟩
  lagging x hx _ _ p _ hp := by
    cases List.mem_singleton.mp hx
    cases hp
  seen _ hv := nomatch hv
  holds _ hb := nomatch hb
  accepted x hx p hp := by
    cases List.mem_singleton.mp hx
    cases hp
  deleted _ hu := nomatch hu
  unsent _ _ hv := nomatch hv
  ended _ he := nomatch he

theorem reachable_safe {w : PoolWorld} (h : Reachable key w) :
    Machine.Safe (machine key) (spec key) w :=
  (pool_sound key).reach ⟨inv_start key, nofun, fun _ _ => trivial⟩ h

/-! ## 2. Who takes the finalizer away -/

/-- The object is still there with the finalizer. -/
def Remains (p : Pool) (s : State) : Prop :=
  ∃ q, s.object = some q ∧ q.uid = p.uid ∧ q.held = true

theorem Remains.of_stored {p : Pool} (hp : s.object = some p) (hh : p.held = true)
    (h : s'.stored = s.stored) : Remains p s' := by
  refine ⟨p, ?_, rfl, hh⟩
  unfold State.object
  rw [h]
  exact hp

theorem Sending.stored {spec : Battery.PoolSpec} {r : Except BatteryError Battery.Pool}
    (h : Sending s spec r s') : s'.stored = s.stored := by
  cases h with
  | applied _ hs =>
    rw [hs]
    rfl
  | unapplied hs => rw [hs]
  | refused hs => rw [hs]

/-- Every operation but the patches leaves what is stored. -/
theorem exec_stored {f : Choice} {o : PoolOp} {r : o.Ans} (ho : Patches o = false)
    (h : exec f s o = some (r, s')) : s'.stored = s.stored := by
  cases o with
  | get =>
    cases f with
    | ok | fail =>
      cases h
      rfl
    | refuse | exists_ => cases h
  | matching selector => rcases exec_matching h with ⟨_, _, _, rfl⟩ | ⟨_, rfl⟩ <;> rfl
  | getPool => rw [(exec_getPool h).1]
  | createPool spec => exact (exec_createPool h).stored
  | updatePool spec => exact (exec_updatePool h).stored
  | deletePool => obtain ⟨sent, _, rfl | rfl, _⟩ := exec_deletePool_left h <;> rfl
  | returned err | now | forget | observe =>
    cases h
    rfl
  | patchStatus | patch => cases ho

/-- Finalizers with the Pool finalizer are set. -/
theorem Finalized.remains {p : Pool} {fs : List String} (h : Finalized s p fs s')
    (hp : s.object = some p) (hh : p.held = true) (hfs : fs.contains poolFinalizer = true) :
    Remains p s' := by
  cases h with
  | kept => exact ⟨p, hp, rfl, hh⟩
  | set => exact ⟨_, rfl, rfl, hfs⟩
  | gone hnil => simp [hnil] at hfs

/-- **An operation takes the finalizer away only where battery holds nothing.** -/
theorem exec_guard {f : Choice} {o : PoolOp} {r : o.Ans} {p : Pool} (hpre : Pre key s o)
    (h : exec f s o = some (r, s')) (hp : s.object = some p) (hh : p.held = true) :
    Remains p s' ∨ (s.battery = none ∧ s'.battery = none) := by
  cases ho : Patches o with
  | false => exact .inl (Remains.of_stored hp hh (exec_stored ho h))
  | true =>
    cases exec_patched ho h with
    | kept => exact .inl ⟨p, hp, rfl, hh⟩
    | status q hq =>
      rw [hp] at hq
      cases hq
      exact .inl ⟨_, rfl, rfl, hh⟩
    | @finalizers base object q hq _ _ hfin =>
      rw [hp] at hq
      cases hq
      rcases hpre with ⟨_, _, hf⟩ | ⟨_, hn, _⟩
      · -- the finalizer is added
        refine .inl (hfin.remains hp hh ?_)
        rcases mergeField_cases base.finalizers object.finalizers p.finalizers with
          ⟨_, hm⟩ | ⟨_, hm⟩
        · rw [hm]
          exact hh
        · rw [hm, hf]
          simp
      · refine .inr ⟨hn, ?_⟩
        cases hfin <;> exact hn

/-- The environment leaves the finalizer. -/
theorem env_guard {a : EnvAct} {p : Pool} (h : env s a = some s') (hp : s.object = some p)
    (hh : p.held = true) : Remains p s' := by
  cases env_cases h with
  | created _ _ _ hn =>
    rw [hp] at hn
    cases hn
  | changed q q' hq hl hheld =>
    rw [hp] at hq
    cases hq
    exact ⟨q', rfl, hl.uid, hheld.trans hh⟩
  | finalized q fs hq hfs hfin =>
    rw [hp] at hq
    cases hq
    exact hfin.remains hp hh (hfs.trans hh)
  | gone q hq hheld =>
    rw [hp] at hq
    cases hq
    rw [hh] at hheld
    cases hheld
  | synced => exact ⟨p, hp, rfl, hh⟩
  | same hs => exact Remains.of_stored hp hh hs.stored

/-! ## 3. A Pool in battery has its object -/

theorem held_iff {p : Pool} : p.held = true ↔ poolFinalizer ∈ p.finalizers := by
  simp [Pool.held]

/-- The object the running reconcile works on. -/
def Reconciles (s : State) (p : Pool) : Prop := ∃ v, s.sight = some v ∧ v.pool = some p

/-- **A Pool in battery always has its object.** In every world reached: where battery holds a Pool,
    the API server holds its object with the finalizer; a step that takes the finalizer from an
    object leaves battery without the Pool, as it was before; and once DeletePool has been sent for
    an object, no CreatePool is sent for it, and no UpdatePool but of the drained form of the spec
    battery holds. -/
theorem pool_has_object (key : ObjectKey) (w : PoolWorld) (h : Reachable key w) :
    (w.shared.battery ≠ none → ∃ p, w.shared.object = some p ∧ poolFinalizer ∈ p.finalizers) ∧
    (∀ a w', (machine key).step w a = some w' →
      ∀ p, w.shared.object = some p → poolFinalizer ∈ p.finalizers →
        (∀ q, w'.shared.object = some q → q.uid = p.uid → poolFinalizer ∉ q.finalizers) →
        w.shared.battery = none ∧ w'.shared.battery = none) ∧
    (∀ spec k, w.running () = some (.op (.createPool spec) k) →
      ∃ p, Reconciles w.shared p ∧ p.uid ∉ w.shared.deleteSent) ∧
    (∀ spec k, w.running () = some (.op (.updatePool spec) k) →
      ∃ p, Reconciles w.shared p ∧ (p.uid ∈ w.shared.deleteSent →
        ∃ b, w.shared.battery = some b ∧ spec = drainedSpec b.spec)) := by
  have hsafe := reachable_safe h
  have hI : Inv key w.shared := hsafe.inv
  have hdue : ∀ {o k}, w.running () = some (.op o k) → Pre key w.shared o :=
    fun hr => (hsafe.safe () _ hr w.shared (Rely.refl _) hI).1
  refine ⟨fun hb => ?_, fun a w' hstep p hp hmem hgone => ?_, fun spec k hr => ?_,
    fun spec k hr => ?_⟩
  · obtain ⟨b, hb⟩ := Option.ne_none_iff_exists'.mp hb
    obtain ⟨p, hp, hh⟩ := (hI.holds b hb).guarded
    exact ⟨p, hp, held_iff.mp hh⟩
  · have hno : ¬ Remains p w'.shared := by
      rintro ⟨q, hq, hu, hh⟩
      exact hgone q hq hu (held_iff.mp hh)
    have hh := held_iff.mpr hmem
    rcases (pool_sound key).step_cases hsafe hstep with
      ⟨e, _, hx⟩ | ⟨_, f, o, k, r, _, _, hpre, hx⟩ | he | ⟨_, he⟩
    · exact absurd (env_guard hx hp hh) hno
    · exact (exec_guard hpre hx hp hh).resolve_left hno
    · exact absurd (he ▸ ⟨p, hp, rfl, hh⟩) hno
    · refine absurd ?_ hno
      rw [he]
      exact ⟨p, hp, rfl, hh⟩
  · obtain ⟨p, hosts, hdec, _, _⟩ := hdue hr
    obtain ⟨v, hv⟩ := hdec.works
    exact ⟨p, ⟨v, hv.sight, hv.pool⟩, hI.unsent v p hv.sight hv.pool hdec.alive⟩
  · rcases hdue hr with ⟨p, hosts, hdec, _, _⟩ | ⟨p, b, hdel, _, hb, hspec⟩
    · obtain ⟨v, hv⟩ := hdec.works
      exact ⟨p, ⟨v, hv.sight, hv.pool⟩,
        fun hu => absurd hu (hI.unsent v p hv.sight hv.pool hdec.alive)⟩
    · obtain ⟨v, hv⟩ := hdel.works
      exact ⟨p, ⟨v, hv.sight, hv.pool⟩, fun _ => ⟨b, hb, hspec⟩⟩

/-- The key, Host and Pool of the runs below. -/
def someKey : ObjectKey := ⟨"team", "runners"⟩

def someSpec : PoolSpec :=
  { runnersSpec with
    template := { runnersSpec.template with kernel := ⟨"kernel:5.10", [], none, true⟩ }
    hooks := ⟨[], [], .quarantine⟩
    lease := ⟨none, some (30 * second)⟩ }

/-- One Host is published, and a Pool is created. -/
def someCreated : List (Act Unit Choice EnvAct) :=
  [.env (.setHosts ⟨AList.insert "host-1" "10.0.0.1:9090" ∅, true⟩ [⟨"host-1", [("zone", "a")]⟩]),
    .env (.create "u1" someSpec [])]

/-- A reconcile of `n` operations, of what is stored. -/
def someReconcile (n : Nat) : List (Act Unit Choice EnvAct) :=
  .env (.sync 0) :: .spawn () :: List.replicate (n + 1) (.exec () .ok)

/-- The first reconcile adds the finalizer, the second declares the Pool. -/
def someDeclared : List (Act Unit Choice EnvAct) :=
  someCreated ++ someReconcile 3 ++ someReconcile 10

theorem exists_pool (acts : List (Act Unit Choice EnvAct)) (P : PoolWorld → Prop)
    [DecidablePred P] (h : ((machine someKey).replay (fun _ _ => True) start acts).any
      (fun w => decide (P w)) = true) : ∃ w, Reachable someKey w ∧ P w :=
  Machine.exists_run _ acts P h

/-- The Pool is deleted, and battery refuses: the drained spec is next. -/
def someDraining : List (Act Unit Choice EnvAct) :=
  someDeclared ++ [.env .delete, .env (.sync 0), .spawn (), .exec () .ok,
    .exec () (.refuse "leased"), .exec () .ok]

/-- The spec the next operation updates the Pool with. -/
def updates (w : PoolWorld) : Option Battery.PoolSpec :=
  match w.running () with
  | some (.op (.updatePool spec) _) => some spec
  | _ => none

theorem updates_spec {w : PoolWorld} {spec : Battery.PoolSpec} (h : updates w = some spec) :
    ∃ k, w.running () = some (.op (.updatePool spec) k) := by
  unfold updates at h
  split at h
  next spec' k hrun =>
    cases h
    exact ⟨k, hrun⟩
  · cases h

/-- The uid of the object the running reconcile works on. -/
def worksOn (w : PoolWorld) : Option String := (w.shared.sight.bind Version.pool).map Pool.uid

/-- A Pool is declared and has its object; it is deleted, battery refuses once, and only the drained
    spec is sent. -/
theorem pool_has_object_declared :
    (∃ w, Reachable someKey w ∧ w.shared.battery ≠ none ∧
      ∃ p, w.shared.object = some p ∧ poolFinalizer ∈ p.finalizers) ∧
    ∃ w spec, Reachable someKey w ∧ updates w = some spec ∧ w.shared.deleteSent = ["u1"] ∧
      ∃ b, w.shared.battery = some b ∧ spec = drainedSpec b.spec := by
  constructor
  · obtain ⟨w, hr, hb⟩ := exists_pool someDeclared (fun w => w.shared.battery ≠ none)
      (by decide +kernel)
    exact ⟨w, hr, hb, (pool_has_object someKey w hr).1 hb⟩
  · obtain ⟨w, hr, hup, hdel, hon⟩ := exists_pool someDraining
      (fun w => (updates w).isSome = true ∧ w.shared.deleteSent = ["u1"] ∧
        worksOn w = some "u1") (by decide +kernel)
    obtain ⟨spec, hspec⟩ := Option.isSome_iff_exists.mp hup
    obtain ⟨k, hrun⟩ := updates_spec hspec
    obtain ⟨p, ⟨v, hv, hp⟩, hdrain⟩ := (pool_has_object someKey w hr).2.2.2 spec k hrun
    refine ⟨w, spec, hr, hspec, hdel, hdrain ?_⟩
    have hu : p.uid = "u1" := by
      unfold worksOn at hon
      rw [hv, Option.bind_some, hp, Option.map_some, Option.some.injEq] at hon
      exact hon
    rw [hdel, hu]
    exact List.mem_singleton_self _

/-! ## 4. The observed generation -/

/-- **The observed generation tells the truth.** In every world reached: the generation a Pool's
    status shows, or a later one of that object, had a spec that battery accepted for it; and where
    a Pool is not being deleted and its generation is the observed one, the spec battery holds is
    the one of that generation but for the Hosts, and with the Hosts too after a reconcile that
    resolved them, returned no error and was not refused. -/
theorem observedGeneration_true (key : ObjectKey) (w : PoolWorld) (h : Reachable key w)
    (p : Pool) (hp : w.shared.object = some p) :
    (p.status.observedGeneration ≠ 0 →
      ∃ v ∈ w.shared.stored.versions, ∃ q hosts, v.pool = some q ∧ q.uid = p.uid ∧
        p.status.observedGeneration ≤ q.generation ∧
        (p.uid, poolSpecToBattery key q.spec hosts) ∈ w.shared.accepted) ∧
    (p.deleting = false → p.generation = p.status.observedGeneration →
      ∀ b, w.shared.battery = some b →
        b.spec = poolSpecToBattery key p.spec b.spec.flintlockHosts ∧
        ∀ hosts, w.shared.ended = some ⟨none, false, some hosts⟩ →
          b.spec = poolSpecToBattery key p.spec hosts) := by
  have hI : Inv key w.shared := (reachable_safe h).inv
  refine ⟨hI.accepted _ w.shared.stored.current_mem p hp, fun hd hgen b hb => ?_⟩
  have hcur := w.shared.stored.current_mem_window
  constructor
  · rcases (hI.holds b hb).declared with ⟨q, hq, hu⟩ | ⟨d, _, hdec⟩
    · -- its deletion has not begun
      have hqp : q = p := Option.some.inj (hq.symm.trans hp)
      have hdel := (hI.deleted q.uid hu).2 _ hcur q hq rfl
      simp [hqp, hd] at hdel
    · have hcov : Covers d p := hdec.window _ hcur p hp hdec.epoch.symm
      have hle := hcov.observed
      have hge := hcov.upward.generation
      have hspec : d.spec = p.spec := hcov.upward.spec (by omega)
      have hhosts : b.spec.flintlockHosts = d.hosts := by rw [hdec.spec]; rfl
      rw [hhosts, ← hspec]
      exact hdec.spec
  · intro hosts hended
    obtain ⟨v, q, hv, hq, hqd, hqh, hall⟩ := hI.ended hosts hended
    have hseen := hI.seen v hv
    have hepoch := ((hseen.alive q hq hqd).2 hqh).2
    -- what the reconcile read is of the generation that is stored
    obtain ⟨hup, hle⟩ := hseen.newer q hq _ hcur p hp hepoch
    have hge := hup.generation
    have hspec : q.spec = p.spec := hup.spec (by omega)
    rw [← hspec]
    exact hall b hb

/-- A Pool is declared: its generation 1 is observed, and battery holds its spec with the Host. -/
theorem observedGeneration_true_declared :
    ∃ w p b, Reachable someKey w ∧ w.shared.object = some p ∧ w.shared.battery = some b ∧
      p.status.observedGeneration = 1 ∧
      (∃ v ∈ w.shared.stored.versions, ∃ q hosts, v.pool = some q ∧ q.uid = p.uid ∧
        1 ≤ q.generation ∧ (p.uid, poolSpecToBattery someKey q.spec hosts) ∈ w.shared.accepted) ∧
      b.spec = poolSpecToBattery someKey p.spec ["host-1"] := by
  obtain ⟨w, hr, hobj, hbat, hended⟩ := exists_pool someDeclared
    (fun w => (w.shared.object.any fun p => !p.deleting && decide (p.generation = 1) &&
        decide (p.status.observedGeneration = 1)) = true ∧
      w.shared.battery.isSome = true ∧ w.shared.ended = some ⟨none, false, some ["host-1"]⟩)
    (by decide +kernel)
  obtain ⟨p, hp, hprops⟩ := (Option.any_eq_true ..).mp hobj
  obtain ⟨b, hb⟩ := Option.isSome_iff_exists.mp hbat
  simp only [Bool.and_eq_true, Bool.not_eq_true', decide_eq_true_eq] at hprops
  obtain ⟨⟨hd, hg⟩, ho⟩ := hprops
  obtain ⟨hacc, hspec⟩ := observedGeneration_true someKey w hr p hp
  have hacc := hacc (by rw [ho]; decide)
  rw [ho] at hacc
  exact ⟨w, p, b, hr, hp, hb, ho, hacc, (hspec hd (hg.trans ho.symm) b hb).2 _ hended⟩

/-! ## 5. DeletePool -/

/-- **A Pool is deleted only with its object.** Before a DeletePool of a Pool that battery holds,
    the object that is stored, and not only the copy the reconcile read, is being deleted and
    carries the finalizer. -/
theorem deletePool_with_object {w : PoolWorld} {k} (h : Reachable key w)
    (hrun : w.running () = some (.op .deletePool k)) (hb : w.shared.battery ≠ none) :
    ∃ p, w.shared.object = some p ∧ p.deleting = true ∧ poolFinalizer ∈ p.finalizers := by
  have hsafe := reachable_safe h
  have hI : Inv key w.shared := hsafe.inv
  obtain ⟨b, hb⟩ := Option.ne_none_iff_exists'.mp hb
  obtain ⟨p, hp, hh⟩ := (hI.holds b hb).guarded
  obtain ⟨q, ⟨v, hv⟩, hd, hqh⟩ := (hsafe.safe () _ hrun w.shared (Rely.refl _) hI).1
  -- the object that was read is the one that is stored, and its deletion stays
  have hu : p.uid = q.uid := hI.dying_uid hv.sight hv.pool hd hqh hp hh
  have hsent := (hI.sendDelete hv.sight hv.pool hd).deleted q.uid List.mem_cons_self
  exact ⟨p, hp, hsent.2 _ w.shared.stored.current_mem_window p hp hu, held_iff.mp hh⟩

/-- DeletePool is next. -/
def deletes (w : PoolWorld) : Bool :=
  match w.running () with
  | some (.op .deletePool _) => true
  | _ => false

theorem deletePool_with_object_first : ∃ w, Reachable someKey w ∧ deletes w ∧
    ∃ p, w.shared.object = some p ∧ p.deleting = true := by
  obtain ⟨w, hr, hrun, hb⟩ := exists_pool someDraining.dropLast.dropLast
    (fun w => deletes w ∧ w.shared.battery ≠ none) (by decide +kernel)
  refine ⟨w, hr, hrun, ?_⟩
  unfold deletes at hrun
  split at hrun
  next hk =>
    obtain ⟨p, hp, hd, _⟩ := deletePool_with_object hr hk hb
    exact ⟨p, hp, hd⟩
  · cases hrun

end BatteryOperator.Pools
