/-
  Subject:   What a reconcile of a Pool owes before each operation, and that the invariant is kept
             by the environment and by every operation that is owed nothing.

  * `Pre` -- the duty before each operation: a spec is sent for the object that was read alive with
    the finalizer, or drained for the one that was read deleted; a patch says of the observed
    generation what battery accepted, and takes the finalizer away once battery holds nothing;
  * `EnvStep` -- what the surroundings do; they keep the invariant (`EnvStep.inv`);
  * `exec_createPool`, `exec_updatePool`, `exec_getPool`, `exec_deletePool`, `exec_matching` -- what
    each operation does;
  * `exec_inv` -- **every operation under its duty keeps the invariant**.
-/
import BatteryOperator.Lib.RelyGuarantee
import BatteryOperator.Pool.Invariant

namespace BatteryOperator.Pools

open Lib

variable {key : ObjectKey} {s s' : State}

/-! ## 1. The specification -/

/-- The reconcile works on the object `p`, which it read as part of `w`. -/
structure Works (s : State) (w : Version) (p : Pool) : Prop where
  sight : s.sight = some w
  pool : w.pool = some p
  running : s.ended = none

/-- The object that was read was alive and carried the finalizer. -/
structure Declaring (s : State) (p : Pool) : Prop where
  works : ∃ w, Works s w p
  alive : p.deleting = false
  held : p.held = true

/-- The object that was read carried the finalizer and was being deleted. -/
structure Deleting (s : State) (p : Pool) : Prop where
  works : ∃ w, Works s w p
  deleting : p.deleting = true
  held : p.held = true

/-- battery accepted the spec of `p`, and what it holds was declared from it. -/
structure Told (key : ObjectKey) (s : State) (p : Pool) : Prop where
  accepted : ∃ hosts, (p.uid, poolSpecToBattery key p.spec hosts) ∈ s.accepted
  declared : ∃ d, s.declared = some d ∧ d.generation = p.generation

/-- battery's Pool, if it holds one, has the spec of `p` with these Hosts. -/
def Settled (key : ObjectKey) (s : State) (p : Pool) (hosts : List String) : Prop :=
  ∀ h, s.battery = some h → h.spec = poolSpecToBattery key p.spec hosts

/-- What the reconcile owes before each operation. -/
def Pre (key : ObjectKey) (s : State) : PoolOp → Prop
  | .createPool spec => ∃ p hosts, Declaring s p ∧ sorted hosts = hosts ∧
      spec = poolSpecToBattery key p.spec hosts
  | .updatePool spec =>
    (∃ p hosts, Declaring s p ∧ sorted hosts = hosts ∧
      spec = poolSpecToBattery key p.spec hosts) ∨
    ∃ p h, Deleting s p ∧ p.uid ∈ s.deleteSent ∧ s.battery = some h ∧
      spec = drainedSpec h.spec
  | .deletePool => ∃ p, Deleting s p
  | .patchStatus base object => (∃ w, Works s w base) ∧
      (object.status.observedGeneration = base.status.observedGeneration ∨
        (Declaring s base ∧ object.status.observedGeneration = base.generation ∧
          Told key s base))
  | .patch base object =>
    ((∃ w, Works s w base) ∧ base.deleting = false ∧
      object.finalizers = base.finalizers ++ [poolFinalizer]) ∨
    (Deleting s base ∧ s.battery = none ∧
      object.finalizers = base.finalizers.filter fun f => f ≠ poolFinalizer)
  | .returned err => err = none → s.refused = false → ∀ hosts, s.resolved = some hosts →
      ∃ p, Declaring s p ∧ Settled key s p hosts
  | _ => True

/-- What the world around a reconcile leaves alone. -/
structure Rely (s s' : State) : Prop where
  sight : s'.sight = s.sight
  battery : s'.battery.map Battery.Pool.spec = s.battery.map Battery.Pool.spec
  declared : s'.declared = s.declared
  accepted : s'.accepted = s.accepted
  deleteSent : s'.deleteSent = s.deleteSent
  resolved : s'.resolved = s.resolved
  refused : s'.refused = s.refused
  ended : s'.ended = s.ended

/-- **The specification of the reconcile.** -/
def spec (key : ObjectKey) : Spec Unit PoolOp State where
  Inv := Inv key
  Pre _ o s := Pre key s o
  Rely _ := Rely
  Idle _ _ := True

/-! ## 2. The environment -/

variable {p q : Pool} {fs : List String} {f : Choice} {spec : Battery.PoolSpec}
  {r : Except BatteryError Battery.Pool}

/-- The object changes. -/
theorem push_some (hI : Inv key s) (hc : s.stored.current.pool = some p) (hl : Later p q)
    (hg : GuardStep s ⟨s.stored.current.epoch, some q⟩)
    (ho : ObservedStep key s ⟨s.stored.current.epoch, some q⟩ q) :
    Push key s ⟨s.stored.current.epoch, some q⟩ where
  succeeds := .changed p q hc hl
  known q' hq := by
    cases hq
    rw [hl.uid]
    exact hI.order.known _ s.stored.current_mem p hc
  guard := hg
  observed q' hq := by
    cases hq
    exact ho

/-- The object goes. -/
theorem push_none (hc : s.stored.current.pool = some p)
    (hg : GuardStep s ⟨s.stored.current.epoch, none⟩) :
    Push key s ⟨s.stored.current.epoch, none⟩ where
  succeeds := .gone p hc
  known _ hq := nomatch hq
  guard := hg
  observed _ hq := nomatch hq

/-- An object that keeps the finalizer, or goes on without it. -/
theorem guardStep_some (hc : s.stored.current.pool = some p) (hh : q.held = p.held) :
    GuardStep s ⟨s.stored.current.epoch, some q⟩ := by
  refine .kept (fun hg => ⟨⟨p, hc, ?_⟩, rfl⟩) fun hg => ⟨⟨q, rfl, ?_⟩, rfl⟩
  · obtain ⟨q', hq, hheld⟩ := hg
    cases hq
    rw [← hh]
    exact hheld
  · obtain ⟨p', hp, hheld⟩ := hg
    rw [hc] at hp
    cases hp
    rw [hh]
    exact hheld

theorem not_guarded_none (e : Nat) : ¬ Version.Guarded ⟨e, none⟩ := by
  rintro ⟨q, hq, _⟩
  cases hq

theorem not_guarded_some {e : Nat} (hq : q.held = false) : ¬ Version.Guarded ⟨e, some q⟩ := by
  rintro ⟨q', hq', hh⟩
  cases hq'
  simp [hq] at hh

/-- A write that changes nothing but what the invariant lets anybody change. -/
theorem push_changed (hI : Inv key s) (hc : s.stored.current.pool = some p) (hl : Later p q)
    (hh : q.held = p.held) (ho : q.status.observedGeneration = p.status.observedGeneration) :
    Push key s ⟨s.stored.current.epoch, some q⟩ :=
  push_some hI hc hl (guardStep_some hc hh) (.same p hc rfl ho)

/-- The object goes, where it does not carry the finalizer. -/
theorem push_gone (hc : s.stored.current.pool = some p) (hh : p.held = false) :
    Push key s ⟨s.stored.current.epoch, none⟩ := by
  refine push_none hc (.kept (fun hg => absurd hg (not_guarded_none _)) fun hg => ?_)
  obtain ⟨q, hq, hheld⟩ := hg
  rw [hc] at hq
  cases hq
  rw [hh] at hheld
  cases hheld

theorem Later.of_same (hu : q.uid = p.uid) (hd : q.deletionTimestamp = p.deletionTimestamp)
    (hg : q.generation = p.generation) (hs : q.spec = p.spec) : Later p q := by
  refine ⟨hu, fun h => ?_, Int.le_of_eq hg.symm, fun _ => hs.symm⟩
  unfold Pool.deleting at h ⊢
  rw [hd]
  exact h

theorem later_edited (p : Pool) (spec : PoolSpec) : Later p (p.edited spec) := by
  unfold Pool.edited
  split
  · exact .of_same rfl rfl rfl rfl
  · have hlt : p.generation < p.generation + 1 := by omega
    exact ⟨rfl, fun h => h, Int.le_of_lt hlt, fun he => absurd he (Int.ne_of_lt hlt)⟩

theorem held_edited (p : Pool) (spec : PoolSpec) : (p.edited spec).held = p.held := by
  unfold Pool.edited
  split <;> rfl

theorem status_edited (p : Pool) (spec : PoolSpec) : (p.edited spec).status = p.status := by
  unfold Pool.edited
  split <;> rfl

/-- Setting the finalizers stores the object with them, or takes it away with the last one. -/
inductive Finalized (s : State) (p : Pool) (fs : List String) : State → Prop where
  | kept : Finalized s p fs s
  | set : Finalized s p fs (s.store (some { p with finalizers := fs }))
  | gone (hnil : fs = []) : Finalized s p fs (s.store none)

theorem setFinalizers_cases (s : State) (p : Pool) (fs : List String) :
    Finalized s p fs (s.setFinalizers p fs).2 := by
  unfold State.setFinalizers
  split
  · split
    · by_cases hfs : fs = []
      · rw [if_pos hfs]
        exact .gone hfs
      · rw [if_neg hfs]
        exact .set
    · exact .kept
  · exact .set

theorem newPool_held {uid : String} {spec : PoolSpec} (h : poolFinalizer ∉ fs) :
    (newPool uid spec fs).held = false := by
  simp [Pool.held, newPool, h]

/-- A Pool is created. -/
theorem Inv.create (hI : Inv key s) (hn : s.object = none) {uid : String} (hu : uid ∉ s.uids)
    (spec : PoolSpec) (hf : poolFinalizer ∉ fs) :
    Inv key { s with
      uids := uid :: s.uids
      stored := s.stored.push ⟨s.stored.current.epoch + 1, some (newPool uid spec fs)⟩ } := by
  have hI' : Inv key { s with uids := uid :: s.uids } :=
    { hI with
      order := ⟨hI.order.pairwise,
        fun v hv p hp => List.mem_cons_of_mem _ (hI.order.known v hv p hp)⟩
      holds := fun h hb => ⟨(hI.holds h hb).guarded, (hI.holds h hb).declared⟩
      deleted := fun u hu => ⟨List.mem_cons_of_mem _ (hI.deleted u hu).1, (hI.deleted u hu).2⟩ }
  refine hI'.push ⟨.created _ hn (fun h => hu ?_) rfl, fun q hq => ?_, ?_, fun q hq => ?_⟩
  · rcases h with ⟨x, hx, p, hp, he⟩ | hd
    · have he : p.uid = uid := he
      rw [← he]
      exact hI.order.known x hx p hp
    · exact (hI.deleted uid hd).1
  · cases hq
    exact List.mem_cons_self
  · refine .kept (fun hg => absurd hg (not_guarded_some (newPool_held hf))) fun hg => ?_
    · obtain ⟨q, hq, _⟩ := hg
      have hn : s.stored.current.pool = none := hn
      have hq : s.stored.current.pool = some q := hq
      simp [hn] at hq
  · cases hq
    exact .unset hn rfl Int.one_nonneg

/-- Finalizers are set, and the Pool finalizer is left as it is. -/
theorem Inv.finalized (hI : Inv key s) (hp : s.object = some p)
    (hfs : fs.contains poolFinalizer = p.held) (h : Finalized s p fs s') : Inv key s' := by
  cases h with
  | kept => exact hI
  | set => exact hI.push (push_changed hI hp (.of_same rfl rfl rfl rfl) hfs rfl)
  | gone hnil =>
    refine hI.push (push_gone hp ?_)
    rw [← hfs, hnil]
    rfl

/-- **What the surroundings do**: an object is created, it changes or gets other finalizers, one
    without any goes, the cache catches up, or nothing of this happens. -/
inductive EnvStep (s : State) : State → Prop where
  | created (uid : String) (spec : PoolSpec) (fs : List String) (hn : s.object = none)
      (hu : uid ∉ s.uids) (hf : poolFinalizer ∉ fs) : EnvStep s { s with
        uids := uid :: s.uids
        stored := s.stored.push ⟨s.stored.current.epoch + 1, some (newPool uid spec fs)⟩ }
  | changed (p q : Pool) (hp : s.object = some p) (hl : Later p q) (hh : q.held = p.held)
      (ho : q.status = p.status) : EnvStep s (s.store (some q))
  | finalized (p : Pool) (fs : List String) (hp : s.object = some p)
      (hfs : fs.contains poolFinalizer = p.held) {s' : State} (h : Finalized s p fs s') :
      EnvStep s s'
  | gone (p : Pool) (hp : s.object = some p) (hh : p.held = false) : EnvStep s (s.store none)
  | synced (n : Nat) : EnvStep s { s with stored := s.stored.sync n }
  | same {s' : State} (hs : SameCore s s') (hR : Rely s s') : EnvStep s s'

theorem env_cases {a : EnvAct} (h : env s a = some s') : EnvStep s s' := by
  cases a with
  | create uid spec fs =>
    obtain ⟨hc, h⟩ := Option.ite_none_right_eq_some.mp h
    cases h
    exact .created uid spec fs hc.1 hc.2.1 hc.2.2
  | edit spec =>
    obtain ⟨p, hp, rfl⟩ := Option.map_eq_some_iff.mp h
    exact .changed p _ hp (later_edited p spec) (held_edited p spec) (status_edited p spec)
  | delete =>
    simp only [env] at h
    split at h
    · cases h
    next p hp =>
      obtain ⟨-, h⟩ := Option.ite_none_left_eq_some.mp h
      split at h
      next hfs =>
        cases h
        exact .gone p hp (by simp [Pool.held, hfs])
      · cases h
        have hlt : p.generation < p.generation + 1 := by omega
        refine .changed p _ hp ⟨rfl, fun _ => rfl, ?_⟩ rfl rfl
        exact ⟨Int.le_of_lt hlt, fun he => absurd he (Int.ne_of_lt hlt)⟩
  | setFinalizers fs =>
    simp only [env] at h
    split at h
    · cases h
    next p hp =>
      obtain ⟨hfs, h⟩ := Option.ite_none_right_eq_some.mp h
      cases h
      exact .finalized p fs hp hfs (setFinalizers_cases s p fs)
  | sync n =>
    cases h
    exact .synced n
  | setCounts status =>
    cases h
    have hspec : (s.battery.map fun p => { p with status := status }).map Battery.Pool.spec =
        s.battery.map Battery.Pool.spec := by
      rw [Option.map_map]
      rfl
    exact .same ⟨rfl, rfl, rfl, hspec, rfl, rfl, rfl, rfl⟩
      ⟨rfl, hspec, rfl, rfl, rfl, rfl, rfl, rfl⟩
  | setHosts hostSet nodes | tick n =>
    cases h
    exact .same ⟨rfl, rfl, rfl, rfl, rfl, rfl, rfl, rfl⟩ ⟨rfl, rfl, rfl, rfl, rfl, rfl, rfl, rfl⟩

/-- **The surroundings keep the invariant.** -/
theorem EnvStep.inv (h : EnvStep s s') (hI : Inv key s) : Inv key s' := by
  cases h with
  | created uid spec fs hn hu hf => exact hI.create hn hu spec hf
  | changed p q hp hl hh ho => exact hI.push (push_changed hI hp hl hh (by rw [ho]))
  | finalized p fs hp hfs h => exact hI.finalized hp hfs h
  | gone p hp hh => exact hI.push (push_gone hp hh)
  | synced n => exact hI.sync n
  | same hs => exact hI.same hs

theorem Rely.refl (s : State) : Rely s s := ⟨rfl, rfl, rfl, rfl, rfl, rfl, rfl, rfl⟩

theorem Finalized.rely (h : Finalized s p fs s') : Rely s s' := by
  cases h <;> exact ⟨rfl, rfl, rfl, rfl, rfl, rfl, rfl, rfl⟩

/-- ... and leave a reconcile what it relies on. -/
theorem EnvStep.rely (h : EnvStep s s') : Rely s s' := by
  cases h with
  | finalized p fs _ _ h => exact h.rely
  | same _ hR => exact hR
  | created | changed | gone | synced => exact ⟨rfl, rfl, rfl, rfl, rfl, rfl, rfl, rfl⟩

/-! ## 3. What each operation does -/

theorem call_cases {α : Type} {served : Except BatteryError α × State} {r : Except BatteryError α}
    (h : f.call s served = some (r, s')) :
    (r = served.1 ∧ s' = served.2) ∨
      ∃ e, r = .error e ∧ ErrorKind.silent e.kind = true ∧ (s' = served.2 ∨ s' = s) := by
  cases f with
  | ok =>
    cases h
    exact .inl ⟨rfl, rfl⟩
  | fail applied e =>
    obtain ⟨he, h⟩ := Option.ite_none_right_eq_some.mp h
    cases h
    refine .inr ⟨e, rfl, he, ?_⟩
    cases applied with
    | true => exact .inl rfl
    | false => exact .inr rfl
  | refuse | exists_ => cases h

/-- A call that sends a spec: it took effect, or it did not, or battery refused it. -/
inductive Sending (s : State) (spec : Battery.PoolSpec) (r : Except BatteryError Battery.Pool)
    (s' : State) : Prop where
  | applied (status : Battery.PoolStatus) (hs : s' = s.declare spec status)
      (hr : r = .ok ⟨spec, status⟩ ∨ ∃ e, r = .error e ∧ e.kind ≠ .invalid)
  | unapplied (hs : s' = s) (e : BatteryError) (hr : r = .error e) (he : e.kind ≠ .invalid)
  | refused (hs : s' = { s with refused := true }) (e : BatteryError) (hr : r = .error e)

theorem ErrorKind.silent_ne_invalid {k : ErrorKind} (h : ErrorKind.silent k = true) :
    k ≠ .invalid := by
  rintro rfl
  cases h

theorem ErrorKind.silent_ne_notFound {k : ErrorKind} (h : ErrorKind.silent k = true) :
    k ≠ .notFound := by
  rintro rfl
  cases h

/-- A call that sends a spec and ends as it is served, or fails. -/
theorem sending_of_call {served : Except BatteryError Battery.Pool × State}
    (hserved : (∃ status, served = (.ok ⟨spec, status⟩, s.declare spec status)) ∨
      ∃ e, served = (.error e, s) ∧ e.kind ≠ .invalid) (h : f.call s served = some (r, s')) :
    Sending s spec r s' := by
  rcases call_cases h with ⟨hr, hs⟩ | ⟨e, hr, he, hs⟩
  · rcases hserved with ⟨status, rfl⟩ | ⟨e, rfl, he⟩
    · exact .applied status hs (.inl hr)
    · exact .unapplied hs e hr he
  · have hne := ErrorKind.silent_ne_invalid he
    rcases hserved with ⟨status, rfl⟩ | ⟨e', rfl, _⟩
    · rcases hs with hs | hs
      · exact .applied status hs (.inr ⟨e, hr, hne⟩)
      · exact .unapplied hs e hr hne
    · exact .unapplied (hs.elim id id) e hr hne

theorem createPool_served (s : State) (spec : Battery.PoolSpec) :
    (∃ status, s.createPool spec = (.ok ⟨spec, status⟩, s.declare spec status)) ∨
      ∃ e, s.createPool spec = (.error e, s) ∧ e.kind ≠ .invalid := by
  unfold State.createPool
  split
  · exact .inr ⟨poolExists, rfl, by decide⟩
  · exact .inl ⟨{}, rfl⟩

theorem updatePool_served (s : State) (spec : Battery.PoolSpec) :
    (∃ status, s.updatePool spec = (.ok ⟨spec, status⟩, s.declare spec status)) ∨
      ∃ e, s.updatePool spec = (.error e, s) ∧ e.kind ≠ .invalid := by
  unfold State.updatePool
  split
  · exact .inr ⟨poolNotFound, rfl, by decide⟩
  next p _ => exact .inl ⟨p.status, rfl⟩

theorem exec_createPool (h : exec f s (.createPool spec) = some (r, s')) : Sending s spec r s' := by
  cases f with
  | refuse text =>
    cases h
    exact .refused rfl _ rfl
  | exists_ =>
    cases h
    rcases createPool_served s spec with ⟨status, he⟩ | ⟨e, he, _⟩
    · exact .applied status (congrArg Prod.snd he) (.inr ⟨poolExists, rfl, by decide⟩)
    · exact .unapplied (congrArg Prod.snd he) poolExists rfl (by decide)
  | ok => exact sending_of_call (f := .ok) (createPool_served s spec) h
  | fail applied e => exact sending_of_call (f := .fail applied e) (createPool_served s spec) h

theorem exec_updatePool (h : exec f s (.updatePool spec) = some (r, s')) : Sending s spec r s' := by
  cases f with
  | refuse text =>
    simp only [exec] at h
    split at h
    · cases h
      exact .unapplied rfl _ rfl (by decide)
    · cases h
      exact .refused rfl _ rfl
  | exists_ => cases h
  | ok => exact sending_of_call (f := .ok) (updatePool_served s spec) h
  | fail applied e => exact sending_of_call (f := .fail applied e) (updatePool_served s spec) h

theorem exec_getPool (h : exec f s .getPool = some (r, s')) :
    s' = s ∧ (∀ b, r = .ok b → s.battery = some b) ∧
      ∀ e, r = .error e → e.kind = .notFound → s.battery = none := by
  rcases call_cases h with ⟨hr, hs⟩ | ⟨e, hr, he, hs⟩
  · refine ⟨hs, fun b hb => ?_, fun e he hk => ?_⟩
    · rw [hb] at hr
      unfold State.getPool at hr
      split at hr
      · cases hr
      next hbat =>
        cases hr
        exact hbat
    · rw [he] at hr
      unfold State.getPool at hr
      split at hr
      · assumption
      · cases hr
  · refine ⟨hs.elim id id, fun b hb => ?_, fun e' he' hk => ?_⟩
    · rw [hr] at hb
      cases hb
    · rw [hr] at he'
      cases he'
      exact absurd hk (ErrorKind.silent_ne_notFound he)

/-- DeletePool, carried out or not: where battery says the Pool is gone, it is. -/
theorem call_deletePool {r : Except BatteryError Unit}
    (h : f.call s s.deletePool = some (r, s')) :
    (s' = s ∨ s' = { s with battery := none }) ∧ (r = .ok () → s'.battery = none) ∧
      ∀ e, r = .error e → e.kind = .notFound → s'.battery = none := by
  -- battery deletes the Pool, or has none
  have hserved : (s.deletePool = (.ok (), { s with battery := none })) ∨
      (s.battery = none ∧ s.deletePool = (.error poolNotFound, s)) := by
    unfold State.deletePool
    split
    next hn => exact .inr ⟨hn, rfl⟩
    · exact .inl rfl
  rcases call_cases h with ⟨hr, hs⟩ | ⟨e, hr, he, hs⟩
  · rcases hserved with hd | ⟨hn, hd⟩
    · rw [hd] at hs
      exact ⟨.inr hs, fun _ => by rw [hs], fun _ _ _ => by rw [hs]⟩
    · rw [hd] at hs
      exact ⟨.inl hs, fun _ => by rw [hs]; exact hn, fun _ _ _ => by rw [hs]; exact hn⟩
  · refine ⟨?_, fun ho => ?_, fun e' he' hk => ?_⟩
    · rcases hs with hs | hs
      · rcases hserved with hd | ⟨hn, hd⟩
        · rw [hd] at hs
          exact .inr hs
        · rw [hd] at hs
          exact .inl hs
      · exact .inl hs
    · rw [hr] at ho
      cases ho
    · rw [hr] at he'
      cases he'
      exact absurd hk (ErrorKind.silent_ne_notFound he)

theorem refuseDelete_error {text : String} (r : Except BatteryError Unit)
    (h : s.refuseDelete text = r) :
    r ≠ .ok () ∧ ∀ e, r = .error e → e.kind = .notFound → s.battery = none := by
  subst h
  unfold State.refuseDelete
  split
  next hn => exact ⟨(by intro ho; cases ho), fun _ _ _ => hn⟩
  · refine ⟨(by intro ho; cases ho), fun e he hk => ?_⟩
    cases he
    cases hk

/-- DeletePool is noted, with the object the reconcile read; it takes battery's Pool away or
    leaves it. -/
theorem exec_deletePool_left {r : Except BatteryError Unit}
    (h : exec f s .deletePool = some (r, s')) :
    ∃ sent, (∀ p, s.sight.bind Version.pool = some p → sent = p.uid :: s.deleteSent) ∧
      (s' = { s with deleteSent := sent } ∨ s' = { s with deleteSent := sent, battery := none }) ∧
      (r = .ok () → s'.battery = none) ∧
      ∀ e, r = .error e → e.kind = .notFound → s'.battery = none := by
  have hsent : ∃ sent, (∀ p, s.sight.bind Version.pool = some p → sent = p.uid :: s.deleteSent) ∧
      ((∃ text, ({ s with deleteSent := sent } : State).refuseDelete text = r ∧
          s' = { s with deleteSent := sent }) ∨
        f.call { s with deleteSent := sent } ({ s with deleteSent := sent } : State).deletePool =
          some (r, s')) := by
    cases hsight : s.sight.bind Version.pool with
    | none =>
      simp only [exec, hsight] at h
      refine ⟨s.deleteSent, fun p hp => (Option.some_ne_none p hp.symm).elim, ?_⟩
      cases f with
      | refuse text =>
        cases h
        exact .inl ⟨text, rfl, rfl⟩
      | ok | fail | exists_ => exact .inr h
    | some q =>
      simp only [exec, hsight] at h
      refine ⟨q.uid :: s.deleteSent, fun p hp => ?_, ?_⟩
      · cases hp
        rfl
      cases f with
      | refuse text =>
        cases h
        exact .inl ⟨text, rfl, rfl⟩
      | ok | fail | exists_ => exact .inr h
  obtain ⟨sent, hp, ⟨text, hr, rfl⟩ | hc⟩ := hsent
  · obtain ⟨hok, herr⟩ := refuseDelete_error r hr
    exact ⟨sent, hp, .inl rfl, fun ho => absurd ho hok, herr⟩
  · exact ⟨sent, hp, call_deletePool hc⟩

/-- DeletePool is sent for the object the reconcile works on. -/
theorem exec_deletePool {r : Except BatteryError Unit} {w : Version} (hw : Works s w p)
    (h : exec f s .deletePool = some (r, s')) :
    (s' = { s with deleteSent := p.uid :: s.deleteSent } ∨
        s' = { s with deleteSent := p.uid :: s.deleteSent, battery := none }) ∧
      (r = .ok () → s'.battery = none) ∧
      ∀ e, r = .error e → e.kind = .notFound → s'.battery = none := by
  have hsight : s.sight.bind Version.pool = some p := by rw [hw.sight]; exact hw.pool
  obtain ⟨sent, hp, hleft⟩ := exec_deletePool_left h
  cases hp p hsight
  exact hleft

theorem write_cases {written : Except ApiError Unit × State} {r : Except ApiError Unit}
    (h : f.write s written = some (r, s')) : f.applied = true ∧ s' = written.2 ∨ s' = s := by
  cases f with
  | ok =>
    cases h
    exact .inl ⟨rfl, rfl⟩
  | fail applied e =>
    cases h
    cases applied with
    | true => exact .inl ⟨rfl, rfl⟩
    | false => exact .inr rfl
  | refuse | exists_ => cases h

/-- The operations that patch the Pool. -/
def Patches : PoolOp → Bool
  | .patchStatus _ _ | .patch _ _ => true
  | _ => false

/-- The object with the status of a patch merged into it. -/
def Pool.patched (p base object : Pool) : Pool :=
  { p with status := PoolStatus.merge base.status.encode object.status.encode p.status }

/-- **What a patch leaves**: nothing where it does not take effect, else the status or the
    finalizers of the object, merged. -/
inductive Patched (f : Choice) (s : State) : PoolOp → State → Prop where
  | kept {o : PoolOp} : Patched f s o s
  | status {base object : Pool} (p : Pool) (hp : s.object = some p) :
      Patched f s (.patchStatus base object) (s.store (some (p.patched base object)))
  | finalizers {base object : Pool} (p : Pool) (hp : s.object = some p) (ha : f.applied = true)
      {s' : State}
      (h : Finalized s p (mergeField base.finalizers object.finalizers p.finalizers) s') :
      Patched f s (.patch base object) s'

theorem exec_patched {o : PoolOp} {r : o.Ans} (ho : Patches o = true)
    (h : exec f s o = some (r, s')) : Patched f s o s' := by
  cases o with
  | patchStatus base object =>
    rcases write_cases h with ⟨_, rfl⟩ | rfl
    · unfold State.patchStatus
      split
      · exact .kept
      next p hp => exact .status p hp
    · exact .kept
  | patch base object =>
    rcases write_cases h with ⟨ha, rfl⟩ | rfl
    · unfold State.patch
      split
      · exact .kept
      next p hp => exact .finalizers p hp ha (setFinalizers_cases s p _)
    · exact .kept
  | _ => cases ho

/-- The patches write the stored object, and nothing else. -/
theorem Patched.rely {o : PoolOp} (h : Patched f s o s') : Rely s s' := by
  cases h with
  | kept | status => exact ⟨rfl, rfl, rfl, rfl, rfl, rfl, rfl, rfl⟩
  | finalizers _ _ _ h => exact h.rely

theorem sorted_sorted (names : List String) : sorted (sorted names) = sorted names :=
  (List.pairwise_insertionSort (· ≤ ·) names).insertionSort_eq

/-- Resolved Hosts are sorted, and the state notes them. -/
theorem exec_matching {selector : Texts} {r : Except MatchError (List String)}
    (h : exec f s (.matching selector) = some (r, s')) :
    (∃ hosts, r = .ok hosts ∧ sorted hosts = hosts ∧ s' = { s with resolved := some hosts }) ∨
      (∃ e, r = .error e) ∧ s' = s := by
  cases f with
  | ok =>
    simp only [exec] at h
    split at h
    next hosts hm =>
      cases h
      refine .inl ⟨hosts, rfl, ?_, rfl⟩
      unfold matching at hm
      split at hm
      · cases hm
      · cases hm
        exact sorted_sorted _
    · cases h
      exact .inr ⟨⟨_, rfl⟩, rfl⟩
  | fail applied e =>
    cases h
    exact .inr ⟨⟨_, rfl⟩, rfl⟩
  | refuse | exists_ => cases h

/-! ## 4. Every operation keeps the invariant -/

/-- The object the reconcile works on with the finalizer, alive, is the one that is stored. -/
theorem Declaring.stored (h : Declaring s p) (hI : Inv key s) :
    ∃ w q, Works s w p ∧ s.object = some q ∧ q.uid = p.uid ∧ q.held = true ∧
      w.epoch = s.stored.current.epoch := by
  obtain ⟨w, hw⟩ := h.works
  have hs := hI.seen w hw.sight
  obtain ⟨⟨q, hq, hh⟩, he⟩ := (hs.alive p hw.pool h.alive).2 h.held
  exact ⟨w, q, hw, hq,
    (hI.order.oneObject s.stored.current_mem hs.mem q p hq hw.pool).mp he, hh, he.symm⟩

/-- **The status patch** keeps the invariant: what it says of the observed generation is true of
    the object it lands on. -/
theorem observed_patched (hI : Inv key s) {base object : Pool} (hp : s.object = some p)
    (hpre : Pre key s (.patchStatus base object)) :
    ObservedStep key s ⟨s.stored.current.epoch, some (p.patched base object)⟩
      (p.patched base object) := by
  rcases mergeField_cases base.status.observedGeneration object.status.observedGeneration
    p.status.observedGeneration with ⟨_, hm⟩ | ⟨hne, hm⟩
  · exact .same p hp rfl hm
  · rcases hpre.2 with heq | ⟨hdec, hgen, htold⟩
    · exact absurd heq.symm hne
    · obtain ⟨w, q, hw, hq, hu, _, he⟩ := hdec.stored hI
      obtain ⟨hosts, hacc⟩ := htold.accepted
      have hpq : p = q := Option.some.inj (hp.symm.trans hq)
      refine .written w base hw.sight hw.pool he rfl (hm.trans hgen) ?_ fun h d _ hd => ?_
      · refine ⟨w, (hI.seen w hw.sight).mem, base, hosts, hw.pool, ?_, Int.le_refl _, ?_⟩
        · rw [hpq]
          exact hu.symm
        · show (p.uid, poolSpecToBattery key base.spec hosts) ∈ s.accepted
          rw [hpq, hu]
          exact hacc
      · obtain ⟨d', hd', hg⟩ := htold.declared
        rw [hd] at hd'
        cases hd'
        exact Int.le_of_eq hg.symm

theorem held_filter (p : Pool) :
    (p.finalizers.filter fun f => f ≠ poolFinalizer).contains poolFinalizer = false := by
  simp

/-- **The patch of the finalizers** keeps the invariant, whichever object it lands on. -/
theorem Inv.refinalized (hI : Inv key s) {base object : Pool} (hp : s.object = some p)
    (hpre : Pre key s (.patch base object))
    (h : Finalized s p (mergeField base.finalizers object.finalizers p.finalizers) s') :
    Inv key s' := by
  rcases mergeField_cases base.finalizers object.finalizers p.finalizers with ⟨_, hm⟩ | ⟨_, hm⟩
  · rw [hm] at h
    exact hI.finalized hp rfl h
  · rw [hm] at h
    rcases hpre with ⟨⟨w, hw⟩, hd, hf⟩ | ⟨hdel, hb, hf⟩
    · have hheld : object.finalizers.contains poolFinalizer = true := by
        rw [hf]
        simp
      cases h with
      | kept => exact hI
      | set =>
        refine hI.push (push_some hI hp (.of_same rfl rfl rfl rfl) ?_ (.same p hp rfl rfl))
        exact .added ⟨_, rfl, hheld⟩ rfl w base hw.sight hw.pool hd
      | gone hnil => simp [hnil] at hheld
    · obtain ⟨w, hw⟩ := hdel.works
      have hfree : object.finalizers.contains poolFinalizer = false := by
        rw [hf]
        exact held_filter base
      cases h with
      | kept => exact hI
      | set =>
        refine hI.push (push_some hI hp (.of_same rfl rfl rfl rfl) ?_ (.same p hp rfl rfl))
        exact .removed (not_guarded_some hfree) hb w base hw.sight hw.pool hdel.deleting hdel.held
      | gone =>
        refine hI.push (push_none hp ?_)
        exact .removed (not_guarded_none _) hb w base hw.sight hw.pool hdel.deleting hdel.held

/-- **A patch keeps the invariant.** -/
theorem Inv.patched {o : PoolOp} (hI : Inv key s) (hpre : Pre key s o) (h : Patched f s o s') :
    Inv key s' := by
  cases h with
  | kept => exact hI
  | status p hp =>
    exact hI.push (push_some hI hp (.of_same rfl rfl rfl rfl) (guardStep_some hp rfl)
      (observed_patched hI hp hpre))
  | finalizers p hp _ h => exact hI.refinalized hp hpre h

/-- A spec is sent for the object the reconcile works on. -/
theorem Inv.sent (hI : Inv key s) (hdec : ∀ status, Inv key (s.declare spec status))
    (h : Sending s spec r s') : Inv key s' := by
  cases h with
  | applied status hs =>
    rw [hs]
    exact hdec status
  | unapplied hs =>
    rw [hs]
    exact hI
  | refused hs =>
    rw [hs]
    exact hI.same ⟨rfl, rfl, rfl, rfl, rfl, rfl, rfl, rfl⟩

theorem Declaring.declare (h : Declaring s p) (hI : Inv key s) {hosts : List String}
    (hh : sorted hosts = hosts) (status : Battery.PoolStatus) :
    Inv key (s.declare (poolSpecToBattery key p.spec hosts) status) := by
  obtain ⟨w, hw⟩ := h.works
  exact hI.declare hw.sight hw.pool h.alive h.held hw.running hh status

/-- **Every operation under its duty keeps the invariant.** -/
theorem exec_inv {o : PoolOp} {r : o.Ans} (hI : Inv key s) (hpre : Pre key s o)
    (h : exec f s o = some (r, s')) : Inv key s' := by
  cases o with
  | get =>
    cases f with
    | ok =>
      cases h
      exact hI.read fun w hw => (Option.some.inj hw).symm
    | fail applied e =>
      cases h
      exact hI.read fun w hw => by cases hw
    | refuse | exists_ => cases h
  | matching selector =>
    rcases exec_matching h with ⟨hosts, _, _, rfl⟩ | ⟨_, rfl⟩
    · exact hI.same ⟨rfl, rfl, rfl, rfl, rfl, rfl, rfl, rfl⟩
    · exact hI
  | getPool =>
    rw [(exec_getPool h).1]
    exact hI
  | createPool spec =>
    obtain ⟨p, hosts, hdec, hh, rfl⟩ := hpre
    exact hI.sent (fun status => hdec.declare hI hh status) (exec_createPool h)
  | updatePool spec =>
    rcases hpre with ⟨p, hosts, hdec, hh, rfl⟩ | ⟨p, b, hdel, hu, hb, rfl⟩
    · exact hI.sent (fun status => hdec.declare hI hh status) (exec_updatePool h)
    · obtain ⟨w, hw⟩ := hdel.works
      exact hI.sent (fun status => hI.drain hw.sight hw.pool hdel.deleting hdel.held hu hb
        hw.running _ status) (exec_updatePool h)
  | deletePool =>
    obtain ⟨p, hdel⟩ := hpre
    obtain ⟨w, hw⟩ := hdel.works
    have hsent := hI.sendDelete hw.sight hw.pool hdel.deleting
    rcases (exec_deletePool hw h).1 with rfl | rfl
    · exact hsent
    · exact hsent.forgotten
  | patchStatus base object => exact hI.patched hpre (exec_patched (o := .patchStatus _ _) rfl h)
  | patch base object => exact hI.patched hpre (exec_patched (o := .patch _ _) rfl h)
  | returned err =>
    cases h
    refine
      { hI with
        holds := fun b hb => ⟨(hI.holds b hb).guarded, (hI.holds b hb).declared⟩
        ended := fun hosts he => ?_ }
    obtain ⟨herr, href, hres⟩ := Ended.mk.inj (Option.some.inj he)
    obtain ⟨p, hdec, hset⟩ := hpre herr href hosts hres
    obtain ⟨w, hw⟩ := hdec.works
    exact ⟨w, p, hw.sight, hw.pool, hdec.alive, hdec.held, hset⟩
  | now | forget | observe shortfall stalled now =>
    cases h
    exact hI.same ⟨rfl, rfl, rfl, rfl, rfl, rfl, rfl, rfl⟩

end BatteryOperator.Pools
