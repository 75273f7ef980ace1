/-
  Subject:   The specs a Pool that is being deleted is sent (internal/controller/pool_deletion.go),
             through the conversions of internal/battery/convert.go.

  The machine is the one of Pool/System.lean with the wire between the client and battery: battery
  keeps the message it was sent, and the client reads that message back. Every UpdatePool is
  written along with what battery held when it was sent.

  * `overWire_carried` -- whatever is sent, what is read back survives another round trip;
  * `Past` -- what an UpdatePool of a drained spec that took effect leaves: the cache has reached
    the object's deletion, and while that object can be read battery's Pool is drained;
  * `Drains.move`, `Drains.create`, `Drains.update` -- **how each operation moves this**;
  * `drain_sound` -- the reconcile meets its duties.
-/
import BatteryOperator.Pool.Footprint

namespace BatteryOperator.Pools

open Lib Machine Prog

variable {key : ObjectKey} {s s' : State}

/-! ## 1. A spec over the wire -/

/-- The spec the client reads back of the message for `spec`. -/
def overWire (spec : Battery.PoolSpec) : Battery.PoolSpec := specFromProto (specToProto spec)

/-- A duration from the wire fits. -/
theorem asDuration_lt (x : ProtoDuration) : x.asDuration < (2 ^ 63 : Int) := by
  unfold ProtoDuration.asDuration
  dsimp only
  split
  next h => exact h.2.2
  · split <;> decide

theorem durationFromProto_carried {d : Option ProtoDuration}
    (h : ∀ x, d = some x → (0 : Int) ≤ x.asDuration) : Carried (durationFromProto d) := by
  cases d with
  | none => exact ⟨Int.le_refl 0, by decide⟩
  | some x => exact ⟨h x rfl, asDuration_lt x⟩

/-- A message whose durations are not negative. -/
structure Wire.PoolSpec.Kept (m : Wire.PoolSpec) : Prop where
  interval : ∀ x, m.heartbeatInterval = some x → (0 : Int) ≤ x.asDuration
  threshold : ∀ x, m.heartbeatExpiryThreshold = some x → (0 : Int) ≤ x.asDuration

theorem Wire.PoolSpec.Kept.carried {m : Wire.PoolSpec} (h : m.Kept) :
    (specFromProto m).Carried :=
  ⟨durationFromProto_carried h.interval, durationFromProto_carried h.threshold⟩

/-- A duration that is sent is positive, and stays so. -/
theorem asDuration_sent {d : Duration} {x : ProtoDuration} (h : durationToProto d = some x) :
    (0 : Int) ≤ x.asDuration := by
  obtain ⟨hd, h⟩ := Option.ite_none_right_eq_some.mp h
  cases h
  have hsec : (0 : Int) ≤ (ProtoDuration.new d).seconds :=
    Int.tdiv_nonneg (Int.le_of_lt hd) (by decide)
  have hnanos : (0 : Int) ≤ (ProtoDuration.new d).nanos := by
    have hmod := Int.tmod_nonneg 1000000000 (Int.le_of_lt hd)
    have heq := Int.tmod_def d 1000000000
    show (0 : Int) ≤ d - d.tdiv 1000000000 * 1000000000
    rw [Int.mul_comm]
    exact heq ▸ hmod
  unfold ProtoDuration.asDuration
  dsimp only
  split
  · have hadd : ∀ a b : Int, 0 ≤ a → 0 ≤ b → 0 ≤ a * 1000000000 + b := fun a b ha hb => by omega
    exact hadd _ _ hsec hnanos
  · rw [if_neg (Int.not_lt.mpr hsec)]
    decide

theorem specToProto_kept (spec : Battery.PoolSpec) : (specToProto spec).Kept :=
  ⟨fun _ h => asDuration_sent h, fun _ h => asDuration_sent h⟩

/-- **What is read back survives another round trip**, whatever was sent. -/
theorem overWire_carried (spec : Battery.PoolSpec) : (overWire spec).Carried :=
  (specToProto_kept spec).carried

variable {spec : Battery.PoolSpec} {p : Pool} {f : Choice} {o : PoolOp}
  {r : Except BatteryError Battery.Pool}

theorem drainedSpec_carried (h : spec.Carried) : (drainedSpec spec).Carried :=
  ⟨h.interval, h.threshold⟩

theorem isDrainedSpec_drainedSpec (spec : Battery.PoolSpec) :
    isDrainedSpec (drainedSpec spec) = true := by
  simp [isDrainedSpec, drainedSpec]

theorem overWire_drainedSpec (h : spec.Carried) : overWire (drainedSpec spec) = drainedSpec spec :=
  specFromProto_specToProto (drainedSpec_carried h)

/-! ## 2. The machine -/

/-- An UpdatePool that was sent: the object the reconcile had read, the spec battery held, the
    message, and whether it took effect. -/
structure Update where
  object : Option Pool
  held : Option Battery.PoolSpec
  message : Wire.PoolSpec
  applied : Bool
  deriving DecidableEq

/-- The Pools and every UpdatePool, newest first. -/
structure Sent where
  pools : State
  updates : List Update

/-- What is written along with an UpdatePool. -/
def State.update (s : State) (f : Choice) (spec : Battery.PoolSpec) : Update where
  object := s.sight.bind Version.pool
  held := s.battery.map Battery.Pool.spec
  message := specToProto spec
  applied := s.battery.isSome && f.applied

namespace Sent

/-- **One operation**: a spec goes to battery over the wire. -/
def exec (f : Choice) (w : Sent) : (o : PoolOp) → Option (o.Ans × Sent)
  | .createPool spec =>
    (Pools.exec f w.pools (.createPool (overWire spec))).map fun x => (x.1, ⟨x.2, w.updates⟩)
  | .updatePool spec =>
    (Pools.exec f w.pools (.updatePool (overWire spec))).map fun x =>
      (x.1, ⟨x.2, w.pools.update f spec :: w.updates⟩)
  | o => (Pools.exec f w.pools o).map fun x => (x.1, ⟨x.2, w.updates⟩)

/-- The machine of Pool/System.lean, over the wire. -/
def machine (key : ObjectKey) : Machine Unit Choice EnvAct PoolOp PoolOp.Ans Sent where
  exec _ f o w := exec f w o
  env a w := (env w.pools a).map fun s => ⟨s, w.updates⟩
  prog := (Pools.machine key).prog
  crash w := ⟨(Pools.machine key).crash w.pools, w.updates⟩

/-- At first the name holds `first`, an object or none, and battery what it holds. -/
def start (first : Version) (held : Option (Wire.PoolSpec × Battery.PoolStatus)) :
    World Unit PoolOp PoolOp.Ans Sent where
  shared :=
    { pools :=
        { Pools.start.shared with
          stored := Register.init first
          uids := (first.pool.map Pool.uid).toList
          battery := held.map fun h => ⟨specFromProto h.1, h.2⟩ }
      updates := [] }
  running := fun _ => none

end Sent

/-! ## 3. What a step leaves -/

/-- **What becomes of the versions**: nothing, the cache catches up, or one more is stored. -/
inductive Grows (s s' : State) : Prop where
  | same (hs : s'.stored = s.stored) (hu : s'.uids = s.uids)
  | synced (n : Nat) (hs : s'.stored = s.stored.sync n) (hu : s'.uids = s.uids)
  | stored (v : Version) (hv : Succeeds (· ∈ s.uids) s.stored.current v)
      (hs : s'.stored = s.stored.push v) (hsub : s.uids ⊆ s'.uids)
      (hu : ∀ q, v.pool = some q → q.uid ∈ s'.uids)

variable {w w' : Sent}

/-- The object changes. -/
theorem grows_changed {q : Pool} (hO : Ordered s.stored s.uids) (hp : s.object = some p)
    (hl : Later p q) : Grows s (s.store (some q)) := by
  refine .stored ⟨s.stored.current.epoch, some q⟩ (.changed p q hp hl) rfl (fun _ h => h) ?_
  intro q' hq
  cases hq
  rw [hl.uid]
  exact hO.known _ s.stored.current_mem p hp

/-- The object goes. -/
theorem grows_gone (hp : s.object = some p) : Grows s (s.store none) :=
  .stored ⟨s.stored.current.epoch, none⟩ (.gone p hp) rfl (fun _ h => h) fun _ hq => nomatch hq

theorem Finalized.grows {fs : List String} (h : Finalized s p fs s')
    (hO : Ordered s.stored s.uids) (hp : s.object = some p) : Grows s s' := by
  cases h with
  | kept => exact .same rfl rfl
  | set => exact grows_changed hO hp (.of_same rfl rfl rfl rfl)
  | gone => exact grows_gone hp

/-- The versions stay in order. -/
theorem Ordered.grows (hO : Ordered s.stored s.uids) (h : Grows s s') :
    Ordered s'.stored s'.uids := by
  cases h with
  | same hs hu =>
    rw [hs, hu]
    exact hO
  | synced n hs hu =>
    rw [hs, hu]
    exact ⟨hO.pairwise, hO.known⟩
  | stored v hv hs hsub hu =>
    rw [hs]
    exact hO.next hO.known hv hsub hu

theorem Grows.mem (h : Grows s s') {v : Version} (hv : v ∈ s.stored.versions) :
    v ∈ s'.stored.versions := by
  cases h with
  | same hs | synced _ hs =>
    rw [hs]
    exact hv
  | stored v' _ hs =>
    rw [hs]
    exact Register.mem_versions_push.mpr (.inr hv)

/-- The cache's copy only grows older. -/
theorem Grows.copy_age (h : Grows s s') (hO : Ordered s.stored s.uids) :
    s.stored.copy.age ≤ s'.stored.copy.age := by
  cases h with
  | same hs => rw [hs]
  | synced n hs =>
    rw [hs]
    exact hO.copy_age_sync n
  | stored v' _ hs =>
    rw [hs]
    exact Nat.le_refl _

/-- **A step that neither reads the Pool nor changes battery's.** -/
structure Frame (s s' : State) : Prop where
  grows : Grows s s'
  sight : s'.sight = s.sight
  battery : s'.battery.map Battery.Pool.spec = s.battery.map Battery.Pool.spec

/-- The world around the controller is such a step. -/
theorem env_frame {a : EnvAct} (hO : Ordered s.stored s.uids) (h : env s a = some s') :
    Frame s s' := by
  have hstep := env_cases h
  refine ⟨?_, hstep.rely.sight, hstep.rely.battery⟩
  cases hstep with
  | created uid spec fs hn hu =>
    refine .stored _ (.created _ hn hu rfl) rfl (List.subset_cons_self _ _) fun q hq => ?_
    cases hq
    exact List.mem_cons_self
  | changed p q hp hl => exact grows_changed hO hp hl
  | finalized p fs hp _ h => exact h.grows hO hp
  | gone p hp => exact grows_gone hp
  | synced n => exact .synced n rfl rfl
  | same hs => exact .same hs.stored hs.uids

theorem Patched.frame (h : Patched f s o s') (hO : Ordered s.stored s.uids) : Frame s s' := by
  refine ⟨?_, h.rely.sight, h.rely.battery⟩
  cases h with
  | kept => exact .same rfl rfl
  | status p hp => exact grows_changed hO hp (.of_same rfl rfl rfl rfl)
  | finalizers p hp _ h => exact h.grows hO hp

/-- The operations that read the Pool or change battery's. -/
def Moves : PoolOp → Bool
  | .get | .createPool _ | .updatePool _ | .deletePool => true
  | _ => false

/-- **Every other operation is such a step.** -/
theorem exec_frame {r : o.Ans} (ho : Moves o = false) (hO : Ordered s.stored s.uids)
    (h : exec f s o = some (r, s')) : Frame s s' := by
  cases o with
  | get | createPool | updatePool | deletePool => cases ho
  | matching selector =>
    rcases exec_matching h with ⟨hosts, _, _, rfl⟩ | ⟨_, rfl⟩
    · exact ⟨.same rfl rfl, rfl, rfl⟩
    · exact ⟨.same rfl rfl, rfl, rfl⟩
  | getPool =>
    rw [(exec_getPool h).1]
    exact ⟨.same rfl rfl, rfl, rfl⟩
  | patchStatus base object => exact (exec_patched (o := .patchStatus _ _) rfl h).frame hO
  | patch base object => exact (exec_patched (o := .patch _ _) rfl h).frame hO
  | returned err | now | forget | observe =>
    cases h
    exact ⟨.same rfl rfl, rfl, rfl⟩

/-! ## 4. The invariant -/

/-- battery's Pool, if it holds one, is recognised as drained. -/
def Drained (s : State) : Prop := ∀ b, s.battery = some b → isDrainedSpec b.spec = true

/-- A version of the object of `v` can be read next, or a reconcile works on one. -/
def Current (s : State) (v : Version) : Prop :=
  s.stored.copy.epoch = v.epoch ∨ ∃ x, s.sight = some x ∧ x.epoch = v.epoch

/-- The cache has reached the deletion of the object, in `v`, and while that object is current
    battery's Pool is drained. -/
structure Reached (s : State) (uid : String) (v : Version) (p : Pool) : Prop where
  mem : v ∈ s.stored.versions
  pool : v.pool = some p
  uid : p.uid = uid
  deleting : p.deleting = true
  copy : v.age ≤ s.stored.copy.age
  sight : ∀ x, s.sight = some x → v.age ≤ x.age
  drained : Current s v → Drained s

/-- **What a drained spec that took effect leaves.** -/
def Past (s : State) (uid : String) : Prop := ∃ v p, Reached s uid v p

/-- An UpdatePool for an object that was being deleted carries battery's spec, drained. -/
def Update.Fits (u : Update) : Prop :=
  ∃ p, u.object = some p ∧ (p.deleting = true →
    ∃ spec, u.held = some spec ∧ specFromProto u.message = drainedSpec spec)

/-- `later` is not for an object whose Pool `earlier` has drained. -/
def Update.Spares (later earlier : Update) : Prop :=
  ∀ p q, later.object = some p → earlier.object = some q → q.deleting = true →
    earlier.applied = true → p.uid ≠ q.uid

/-- **The invariant.** -/
structure Drains (w : Sent) : Prop where
  order : Ordered w.pools.stored w.pools.uids
  seen : ∀ x, w.pools.sight = some x →
    x ∈ w.pools.stored.versions ∧ x.age ≤ w.pools.stored.copy.age
  carried : ∀ b, w.pools.battery = some b → b.spec.Carried
  fits : ∀ u ∈ w.updates, u.Fits
  past : ∀ u ∈ w.updates, ∀ p, u.object = some p → p.deleting = true → u.applied = true →
    Past w.pools p.uid
  once : w.updates.Pairwise Update.Spares

section Past

variable {uid : String} {v x : Version} {p q : Pool}

/-- **A reconcile that read an object alive read a later one.** -/
theorem Reached.epoch_lt (h : Reached s uid v q) (hx : s.sight = some x) (hp : x.pool = some p)
    (hd : p.deleting = false) : v.epoch < x.epoch := by
  have hage := h.sight x hx
  refine Nat.lt_of_le_of_ne (Version.epoch_le_of_age hage) fun he => ?_
  have hdel := Version.deleting_of_age h.pool h.deleting hp he.symm hage
  simp [hd] at hdel

/-- Where an object was read alive, the deleted one is no longer current. -/
theorem Reached.alive (h : Reached s uid v q) (hx : s.sight = some x) (hp : x.pool = some p)
    (hd : p.deleting = false) (hc : x.age ≤ s.stored.copy.age) : ¬ Current s v := by
  have hlt := h.epoch_lt hx hp hd
  have hle := Version.epoch_le_of_age hc
  rintro (he | ⟨y, hy, he⟩)
  · omega
  · rw [hx] at hy
    cases hy
    omega

/-- What a step leaves: the versions, and the sight as it was or the copy. -/
structure Goes (s s' : State) : Prop where
  grows : Grows s s'
  sight : ∀ x, s'.sight = some x → s.sight = some x ∨ x = s.stored.copy

/-- Whatever moves, an object that is current was so before. -/
theorem Reached.move (h : Reached s uid v p) (hO : Ordered s.stored s.uids) (hm : Goes s s')
    (hd : Current s v → Drained s') : Reached s' uid v p := by
  have hage := hm.grows.copy_age hO
  refine ⟨hm.grows.mem h.mem, h.pool, h.uid, h.deleting, Nat.le_trans h.copy hage, fun x hx => ?_,
    fun hcur => hd ?_⟩
  · rcases hm.sight x hx with hs | rfl
    · exact h.sight x hs
    · exact h.copy
  · rcases hcur with he | ⟨x, hx, he⟩
    · -- the old copy stands between the deletion and the new one
      have hlow := Version.epoch_le_of_age h.copy
      have hup := Version.epoch_le_of_age hage
      exact .inl (by omega)
    · rcases hm.sight x hx with hs | rfl
      · exact .inr ⟨x, hs, he⟩
      · exact .inl he

end Past

/-! ## 5. Every step keeps the invariant -/

section Keeps

variable {w : Sent}

/-- **A step**, after which battery's Pool is drained where it has to be. -/
theorem Drains.move (hD : Drains w) (hm : Goes w.pools s')
    (hcarried : ∀ b, s'.battery = some b → b.spec.Carried)
    (hd : ∀ uid v p, Reached w.pools uid v p → Current w.pools v → Drained s') :
    Drains ⟨s', w.updates⟩ := by
  have hage := hm.grows.copy_age hD.order
  refine ⟨hD.order.grows hm.grows, fun x hx => ?_, hcarried, hD.fits,
    fun u hu p hp hdel ha => ?_, hD.once⟩
  · rcases hm.sight x hx with hs | rfl
    · obtain ⟨hmem, hle⟩ := hD.seen x hs
      exact ⟨hm.grows.mem hmem, Nat.le_trans hle hage⟩
    · have hcopy := w.pools.stored.window_subset w.pools.stored.copy_mem_window
      exact ⟨hm.grows.mem hcopy, hage⟩
  · obtain ⟨v, q, hR⟩ := hD.past u hu p hp hdel ha
    exact ⟨v, q, hR.move hD.order hm (hd p.uid v q hR)⟩

/-- A step that leaves the spec battery holds. -/
theorem Drains.keep (hD : Drains w) (hm : Goes w.pools s')
    (hb : s'.battery.map Battery.Pool.spec = w.pools.battery.map Battery.Pool.spec) :
    Drains ⟨s', w.updates⟩ := by
  have hsame : ∀ b, s'.battery = some b → ∃ b', w.pools.battery = some b' ∧ b'.spec = b.spec := by
    intro b hs
    rw [hs] at hb
    exact Option.map_eq_some_iff.mp hb.symm
  refine hD.move hm (fun b hs => ?_) fun uid v p hR hcur b hs => ?_
  · obtain ⟨b', hb', he⟩ := hsame b hs
    rw [← he]
    exact hD.carried b' hb'
  · obtain ⟨b', hb', he⟩ := hsame b hs
    rw [← he]
    exact hR.drained hcur b' hb'

theorem Drains.frame (hD : Drains w) (hF : Frame w.pools s') : Drains ⟨s', w.updates⟩ :=
  hD.keep ⟨hF.grows, fun _ hx => .inl (hF.sight ▸ hx)⟩ hF.battery

/-- What a call of battery leaves: the API server's versions and what was read. -/
structure Called (s s' : State) : Prop where
  stored : s'.stored = s.stored
  uids : s'.uids = s.uids
  sight : s'.sight = s.sight

theorem Called.goes (h : Called s s') : Goes s s' :=
  ⟨.same h.stored h.uids, fun _ hx => .inl (h.sight ▸ hx)⟩

/-- A spec that was sent is what battery holds, or battery's Pool is as it was. -/
theorem Sending.left (h : Sending s spec r s') : Called s s' ∧
      ((∃ status, s'.battery = some ⟨spec, status⟩) ∨ s'.battery = s.battery) := by
  cases h with
  | applied status hs =>
    rw [hs]
    exact ⟨⟨rfl, rfl, rfl⟩, .inl ⟨status, rfl⟩⟩
  | unapplied hs | refused hs =>
    rw [hs]
    exact ⟨⟨rfl, rfl, rfl⟩, .inr rfl⟩

/-- A spec came over the wire: battery's Pool is drained where it has to be. -/
theorem Drains.sent (hD : Drains w) (h : Sending w.pools (overWire spec) r s')
    (hd : ∀ uid v p, Reached w.pools uid v p → Current w.pools v →
      isDrainedSpec (overWire spec) = true) : Drains ⟨s', w.updates⟩ := by
  obtain ⟨hc, hb⟩ := h.left
  refine hD.move hc.goes (fun b hb' => ?_) fun uid v p hR he b hb' => ?_
  · rcases hb with ⟨status, hs⟩ | hs
    · rw [hs] at hb'
      cases hb'
      exact overWire_carried spec
    · exact hD.carried b (hs ▸ hb')
  · rcases hb with ⟨status, hs⟩ | hs
    · rw [hs] at hb'
      cases hb'
      exact hd uid v p hR he
    · rw [hs] at hb'
      exact hR.drained he b hb'

/-- An UpdatePool is written along. -/
theorem Drains.log {l : List Update} {u : Update} (hD : Drains ⟨s, l⟩) (hfits : u.Fits)
    (hpast : ∀ p, u.object = some p → p.deleting = true → u.applied = true → Past s p.uid)
    (hspares : ∀ e ∈ l, u.Spares e) : Drains ⟨s, u :: l⟩ := by
  refine { hD with
    fits := fun e he => ?_
    past := fun e he => ?_
    once := List.pairwise_cons.mpr ⟨hspares, hD.once⟩ }
  · rcases List.mem_cons.mp he with rfl | hm
    · exact hfits
    · exact hD.fits e hm
  · rcases List.mem_cons.mp he with rfl | hm
    · exact hpast
    · exact hD.past e hm

/-- The reconcile works on `p`. -/
def Reads (s : State) (p : Pool) : Prop := ∃ x, s.sight = some x ∧ x.pool = some p

theorem Reads.object (h : Reads s p) (f : Choice) (spec : Battery.PoolSpec) :
    (s.update f spec).object = some p := by
  obtain ⟨x, hx, hp⟩ := h
  show s.sight.bind Version.pool = some p
  rw [hx]
  exact hp

/-- What the reconcile owes before an operation: battery's Pool is created and updated for an
    object that was read alive; for one that is being deleted it gets its own spec drained. -/
def Owes (s : State) : PoolOp → Prop
  | .createPool _ => ∃ p, Reads s p ∧ p.deleting = false
  | .updatePool spec => ∃ p, Reads s p ∧ (p.deleting = true →
      ∃ b, s.battery = some b ∧ spec = drainedSpec b.spec ∧ isDrainedSpec b.spec = false)
  | _ => True

theorem Drains.create (hD : Drains w) (hpre : Owes w.pools (.createPool spec))
    (h : exec f w.pools (.createPool (overWire spec)) = some (r, s')) : Drains ⟨s', w.updates⟩ := by
  obtain ⟨p, ⟨x, hx, hp⟩, hd⟩ := hpre
  refine hD.sent (exec_createPool h) fun uid v q hR he => ?_
  exact absurd he (hR.alive hx hp hd (hD.seen x hx).2)

/-- An UpdatePool that took effect left its spec. -/
theorem exec_updatePool_applied {spec' : Battery.PoolSpec}
    (ha : (s.update f spec').applied = true) (h : exec f s (.updatePool spec) = some (r, s')) :
    ∃ status, s'.battery = some ⟨spec, status⟩ := by
  obtain ⟨hsome, happ⟩ := Bool.and_eq_true_iff.mp ha
  obtain ⟨b, hb⟩ := Option.isSome_iff_exists.mp hsome
  have hserved : (s.updatePool spec).2.battery = some ⟨spec, b.status⟩ := by
    unfold State.updatePool
    rw [hb]
    rfl
  cases f with
  | ok =>
    have hs : (s.updatePool spec).2 = s' := congrArg Prod.snd (Option.some.inj h)
    exact ⟨b.status, hs ▸ hserved⟩
  | fail applied e =>
    have happ : applied = true := happ
    subst happ
    obtain ⟨-, h⟩ := Option.ite_none_right_eq_some.mp h
    cases h
    exact ⟨b.status, hserved⟩
  | refuse | exists_ => cases happ

/-- **UpdatePool is sent**, for an object that is alive, or once for one that is being deleted. -/
theorem Drains.update (hD : Drains w) (hpre : Owes w.pools (.updatePool spec))
    (h : exec f w.pools (.updatePool (overWire spec)) = some (r, s')) :
    Drains ⟨s', w.pools.update f spec :: w.updates⟩ := by
  obtain ⟨p, hreads, hdel⟩ := hpre
  have hobj := hreads.object f spec
  obtain ⟨x, hx, hp⟩ := hreads
  obtain ⟨hmem, hage⟩ := hD.seen x hx
  have hsend := exec_updatePool h
  -- another object than every one whose Pool has been drained
  have hspares : ∀ e ∈ w.updates, (w.pools.update f spec).Spares e := by
    intro e he p' q hp' hq hqd ha hu
    rw [hobj] at hp'
    cases hp'
    obtain ⟨v, q', hR⟩ := hD.past e he q hq hqd ha
    have hep : x.epoch = v.epoch :=
      (hD.order.oneObject hmem hR.mem p q' hp hR.pool).mpr (hu.trans hR.uid.symm)
    cases hd : p.deleting with
    | false =>
      have hlt := hR.epoch_lt hx hp hd
      omega
    | true =>
      obtain ⟨b, hb, _, hnot⟩ := hdel hd
      have hdrained := hR.drained (.inr ⟨x, hx, hep⟩) b hb
      rw [hnot] at hdrained
      cases hdrained
  cases hd : p.deleting with
  | false =>
    refine (hD.sent hsend fun uid v q hR he => ?_).log ⟨p, hobj, fun hd' => ?_⟩
      (fun p' hp' hd' _ => ?_) hspares
    · exact absurd he (hR.alive hx hp hd hage)
    · rw [hd] at hd'
      cases hd'
    · rw [hobj] at hp'
      cases hp'
      rw [hd] at hd'
      cases hd'
  | true =>
    obtain ⟨b, hb, hspec, _⟩ := hdel hd
    have hwire : overWire spec = drainedSpec b.spec := by
      rw [hspec]
      exact overWire_drainedSpec (hD.carried b hb)
    have hdrained : isDrainedSpec (overWire spec) = true := by
      rw [hwire]
      exact isDrainedSpec_drainedSpec b.spec
    refine (hD.sent hsend fun _ _ _ _ _ => hdrained).log ⟨p, hobj, fun _ => ?_⟩
      (fun p' hp' _ ha => ?_) hspares
    · refine ⟨b.spec, ?_, hwire⟩
      show w.pools.battery.map Battery.Pool.spec = _
      rw [hb]
      rfl
    · rw [hobj] at hp'
      cases hp'
      obtain ⟨status, hb'⟩ := exec_updatePool_applied ha h
      have hleft : Drained s' := by
        intro b' hb''
        rw [hb'] at hb''
        cases hb''
        exact hdrained
      have hc := hsend.left.1
      refine ⟨x, p, hc.stored ▸ hmem, hp, rfl, hd, hc.stored ▸ hage, fun y hy => ?_,
        fun _ => hleft⟩
      rw [hc.sight, hx] at hy
      cases hy
      exact Nat.le_refl _

end Keeps

/-! ## 6. The reconcile meets its duties -/

/-- The specification: what a reconcile counts on is what it read and the spec battery holds. -/
def drainSpec : Spec Unit PoolOp Sent where
  Inv := Drains
  Pre _ o w := Owes w.pools o
  Rely _ a b := b.pools.sight = a.pools.sight ∧
    b.pools.battery.map Battery.Pool.spec = a.pools.battery.map Battery.Pool.spec
  Idle _ _ := True

/-- What an operation of the machine is to the Pools; none but UpdatePool is written along. -/
theorem sent_exec {r : o.Ans} (h : Sent.exec f w o = some (r, w')) :
    (∃ spec, o = .createPool spec ∧ w'.updates = w.updates ∧
        ∃ r, exec f w.pools (.createPool (overWire spec)) = some (r, w'.pools)) ∨
      (∃ spec, o = .updatePool spec ∧ w'.updates = w.pools.update f spec :: w.updates ∧
        ∃ r, exec f w.pools (.updatePool (overWire spec)) = some (r, w'.pools)) ∨
      ((∀ spec, o ≠ .createPool spec ∧ o ≠ .updatePool spec) ∧ w'.updates = w.updates ∧
        exec f w.pools o = some (r, w'.pools)) := by
  cases o with
  | createPool spec =>
    obtain ⟨y, hy, he⟩ := Option.map_eq_some_iff.mp h
    cases he
    exact .inl ⟨spec, rfl, rfl, y.1, hy⟩
  | updatePool spec =>
    obtain ⟨y, hy, he⟩ := Option.map_eq_some_iff.mp h
    cases he
    exact .inr (.inl ⟨spec, rfl, rfl, y.1, hy⟩)
  | _ =>
    simp only [Sent.exec, Option.map_eq_some_iff] at h
    obtain ⟨y, hy, he⟩ := h
    cases he
    exact .inr (.inr ⟨fun _ => ⟨nofun, nofun⟩, rfl, hy⟩)

/-- An operation that sends no spec. -/
theorem sent_exec_other {r : o.Ans} (ho : ∀ spec, o ≠ .createPool spec ∧ o ≠ .updatePool spec)
    (h : Sent.exec f w o = some (r, w')) : exec f w.pools o = some (r, w'.pools) := by
  rcases sent_exec h with ⟨spec, he, _⟩ | ⟨spec, he, _⟩ | ⟨_, _, hx⟩
  · exact absurd he (ho spec).1
  · exact absurd he (ho spec).2
  · exact hx

/-- **Every operation under its duty keeps the invariant.** -/
theorem sent_exec_inv {r : o.Ans} (hD : Drains w) (hpre : Owes w.pools o)
    (h : Sent.exec f w o = some (r, w')) : Drains w' := by
  obtain ⟨s', l⟩ := w'
  rcases sent_exec h with ⟨spec, rfl, hl, r', hx⟩ | ⟨spec, rfl, hl, r', hx⟩ | ⟨hne, hl, hx⟩
  · cases hl
    exact hD.create hpre hx
  · cases hl
    exact hD.update hpre hx
  · cases hl
    cases hm : Moves o with
    | false => exact hD.frame (exec_frame hm hD.order hx)
    | true =>
      cases o with
      | get =>
        cases f with
        | ok =>
          cases hx
          exact hD.keep ⟨.same rfl rfl, fun x hx => .inr (Option.some.inj hx).symm⟩ rfl
        | fail applied e =>
          cases hx
          exact hD.keep ⟨.same rfl rfl, fun x hx => nomatch hx⟩ rfl
        | refuse | exists_ => cases hx
      | deletePool =>
        obtain ⟨sent, _, rfl | rfl, _⟩ := exec_deletePool_left hx
        · exact hD.frame ⟨.same rfl rfl, rfl, rfl⟩
        · exact hD.move (Called.goes ⟨rfl, rfl, rfl⟩) (fun _ hb => nomatch hb)
            fun _ _ _ _ _ _ hb => nomatch hb
      | createPool spec => exact absurd rfl (hne spec).1
      | updatePool spec => exact absurd rfl (hne spec).2
      | _ => cases hm

/-- Every operation but the read leaves what was read. -/
theorem sent_exec_sight {r : o.Ans} (ho : o ≠ .get) (hD : Drains w)
    (h : Sent.exec f w o = some (r, w')) : w'.pools.sight = w.pools.sight := by
  rcases sent_exec h with ⟨spec, _, _, r', hx⟩ | ⟨spec, _, _, r', hx⟩ | ⟨hne, _, hx⟩
  · exact (exec_createPool hx).left.1.sight
  · exact (exec_updatePool hx).left.1.sight
  · cases hm : Moves o with
    | false => exact (exec_frame hm hD.order hx).sight
    | true =>
      cases o with
      | get => exact absurd rfl ho
      | deletePool => obtain ⟨sent, _, he | he, _⟩ := exec_deletePool_left hx <;> rw [he]
      | createPool spec => exact absurd rfl (hne spec).1
      | updatePool spec => exact absurd rfl (hne spec).2
      | _ => cases hm

/-- The weakest precondition of a piece of the reconcile. -/
abbrev DrainWp (key : ObjectKey) {α : Type} (p : PoolM α) (Q : α → Sent → Prop) (w : Sent) :
    Prop := wp (Sent.machine key) drainSpec () p Q w

section Reconcile

variable {w : Sent} {pool : Pool}

theorem drain_refl (w : Sent) : drainSpec.Rely () w w := ⟨rfl, rfl⟩

theorem reads_stable (pool : Pool) :
    Stable drainSpec () fun w => Reads w.pools pool := by
  rintro a b ⟨x, hx, hp⟩ hR _
  exact ⟨x, hR.1.trans hx, hp⟩

theorem Reads.exec {r : o.Ans} (h : Reads w.pools pool) (ho : o ≠ .get) (hD : Drains w)
    (hx : Sent.exec f w o = some (r, w')) : Reads w'.pools pool := by
  obtain ⟨x, hs, hp⟩ := h
  exact ⟨x, (sent_exec_sight ho hD hx).trans hs, hp⟩

/-- A piece whose operations owe nothing more than that the reconcile works on `pool`. -/
theorem dwp_within {α : Type} {P : PoolOp → Prop} {V : α → Prop} {p : PoolM α}
    (hp : p.Within P V) (hget : ∀ o, P o → o ≠ .get)
    (hpre : ∀ o s, P o → Reads s pool → Owes s o) (h : Reads w.pools pool) :
    DrainWp key p (fun a w' => V a ∧ Reads w'.pools pool) w :=
  wp_within (reads_stable pool) (fun o w ho _ hr => hpre o w.pools ho hr)
    (fun _ o _ _ _ ho hD hr hx => hr.exec (hget o ho) hD hx) p hp h

/-- The operations that send nothing. -/
def Unsent : PoolOp → Prop
  | .get => False
  | .createPool _ => False
  | .updatePool _ => False
  | _ => True

theorem dwp_unsent {α : Type} {V : α → Prop} {p : PoolM α} (hp : p.Within Unsent V)
    (h : Reads w.pools pool) : DrainWp key p (fun a w' => V a ∧ Reads w'.pools pool) w := by
  refine dwp_within hp (fun o ho => ?_) (fun o s ho _ => ?_) h
  · rintro rfl
    exact ho
  · cases o with
    | createPool | updatePool => exact ho.elim
    | _ => trivial

/-- The chain is over, and the reconcile still works on `pool`. -/
abbrev Over (pool : Pool) (o : Outcome PoolScope) (w : Sent) : Prop :=
  Next (fun _ _ => False) (fun _ w => Reads w.pools pool) o w

theorem over_of {o : Outcome PoolScope} (hs : o.result.stop = true) (h : Reads w.pools pool) :
    Over pool o w where
  goOn _ hgo := by
    simp [hs] at hgo
  failed _ _ _ := h
  stopped _ _ _ := h

/-- A step that ends the chain and sends nothing. -/
theorem dwp_over {p : PoolM (Outcome PoolScope)}
    (hp : p.Within Unsent fun o => o.result.stop = true) (h : Reads w.pools pool) :
    DrainWp key p (Over pool) w :=
  wp_mono (fun _ _ _ ho => over_of ho.1 ho.2) _ (dwp_unsent hp h)

/-- **battery's spec is sent drained**, unless it is. -/
theorem dwp_drain {sc : PoolScope} {held : Battery.Pool} (h : Reads w.pools pool)
    (hb : w.pools.battery.map Battery.Pool.spec = some held.spec) :
    DrainWp key (drain key sc held) (Over pool) w := by
  unfold drain
  split
  · exact dwp_over (within_call trivial fun _ => rfl) h
  next hnot =>
    have hstable : Stable drainSpec () fun w => Reads w.pools pool ∧
        w.pools.battery.map Battery.Pool.spec = some held.spec :=
      (reads_stable pool).and fun a b hs hR _ => hR.2.trans hs
    refine wp_call hstable ⟨h, hb⟩ (fun w1 _ hw => ?_) fun w1 f r w2 hD hw hx _ => ?_
    · obtain ⟨b, hbat, hspec⟩ := Option.map_eq_some_iff.mp hw.2
      refine ⟨pool, hw.1, fun _ => ⟨b, hbat, ?_, ?_⟩⟩
      · rw [hspec]
      · rw [hspec]
        exact Bool.eq_false_iff.mpr hnot
    · have hr := hw.1.exec (o := .updatePool _) nofun hD hx
      cases r with
      | ok | error => exact dwp_over (within_call trivial fun _ => rfl) hr

/-- **The deletion of a Pool** ends the chain. -/
theorem dwp_poolDeletion {sc : PoolScope} (hd : sc.object.deleting = true)
    (h : Reads w.pools pool) : DrainWp key (poolDeletion key sc) (Over pool) w := by
  unfold poolDeletion
  rw [hd]
  cases sc.object.held with
  | false => exact dwp_over (within_pure.mpr rfl) h
  | true =>
    refine wp_call (reads_stable pool) h (fun _ _ _ => trivial) ?_
    intro w1 f r w2 hD hr hx _
    have hr := hr.exec (o := .deletePool) nofun hD hx
    cases r with
    | ok => exact dwp_over (within_pure.mpr rfl) hr
    | error e =>
      dsimp only
      split
      · exact dwp_over (within_pure.mpr rfl) hr
      · split
        · exact dwp_over (within_pure.mpr rfl) hr
        · refine wp_call (reads_stable pool) hr (fun _ _ _ => trivial) ?_
          intro w3 f r w4 hD hr hx _
          have hr' := hr.exec (o := .getPool) nofun hD hx
          cases r with
          | ok held =>
            refine dwp_drain hr' ?_
            have hy : exec f w3.pools .getPool = some (.ok held, w4.pools) :=
              sent_exec_other (fun _ => ⟨nofun, nofun⟩) hx
            obtain ⟨hsame, hok, _⟩ := exec_getPool hy
            rw [hsame, hok held rfl]
            rfl
          | error e =>
            dsimp only
            split
            · exact dwp_over (within_pure.mpr rfl) hr'
            · exact dwp_over (within_pure.mpr rfl) hr'

/-- **The chain**: for a Pool that is being deleted its first step, for one that is alive every
    step, and each may send what it likes. -/
theorem dwp_chain (h : Reads w.pools pool) :
    DrainWp key ((poolChain key).run { object := pool, original := pool })
      (fun _ w' => Reads w'.pools pool) w := by
  cases hd : pool.deleting with
  | false =>
    refine wp_mono (fun _ _ _ hw => hw.2) _ (dwp_within (chain_inside key _) ?_ ?_ h)
    · rintro o ho rfl
      exact ho
    · intro o s ho hr
      cases o with
      | createPool spec => exact ⟨pool, hr, hd⟩
      | updatePool spec =>
        refine ⟨pool, hr, fun hdel => ?_⟩
        simp [hd] at hdel
      | _ => trivial
  | true =>
    have hends : Ends (Sent.machine key) drainSpec ()
        (fun sc w => sc.object.deleting = true ∧ Reads w.pools pool)
        (fun _ w => Reads w.pools pool) (poolChain key).steps := by
      refine ends_cons drain_refl (fun _ => reads_stable pool) (Q := fun _ _ => False)
        (fun sc w hw => dwp_poolDeletion hw.1 hw.2) fun _ _ _ hfalse => hfalse.elim
    unfold Chain.run
    refine wp_seq drain_refl (hends _ w {} ⟨hd, h⟩) fun x w1 _ hr => ?_
    exact wp_ret (reads_stable pool) hr fun _ _ hr' => hr'

theorem dwp_reconcilePool (h : Reads w.pools pool) :
    DrainWp key (reconcilePool key pool) (fun _ _ => True) w := by
  unfold reconcilePool
  refine wp_seq drain_refl (dwp_chain h) fun o w1 _ hr => ?_
  refine wp_seq drain_refl (dwp_unsent (patch_within trivial trivial) hr) fun e w2 _ _ => ?_
  exact fun _ _ _ => trivial

theorem dwp_reconcile (w : Sent) : DrainWp key (reconcile key) (fun _ _ => True) w := by
  have htrue : Stable drainSpec () fun _ => True := fun _ _ _ _ _ => trivial
  unfold reconcile
  refine wp_call htrue trivial (fun _ _ _ => trivial) fun w1 f r w2 _ _ hx _ => ?_
  cases r with
  | ok pool =>
    refine dwp_reconcilePool ?_
    -- what was read is the cache's copy
    have hy : exec f w1.pools .get = some (.ok pool, w2.pools) :=
      sent_exec_other (fun _ => ⟨nofun, nofun⟩) hx
    cases f with
    | ok =>
      have hy := Option.some.inj hy
      have hget : w1.pools.get = .ok pool := congrArg Prod.fst hy
      have hsight : w2.pools.sight = some w1.pools.stored.copy :=
        congrArg (fun x => x.2.sight) hy.symm
      unfold State.get at hget
      split at hget
      · cases hget
      next p hp =>
        cases hget
        exact ⟨_, hsight, hp⟩
    | fail | refuse | exists_ => cases hy
  | error e =>
    dsimp only
    split
    · exact wp_call htrue trivial (fun _ _ _ => trivial) fun _ _ _ _ _ _ _ _ _ _ _ =>
        trivial
    · exact fun _ _ _ => trivial

end Reconcile

/-- **The reconcile meets its duties**, whatever fails. -/
theorem drain_sound (key : ObjectKey) : Sound (Sent.machine key) drainSpec where
  refl _ := drain_refl
  trans _ _ _ _ h h' := ⟨h'.1.trans h.1, h'.2.trans h.2⟩
  idle _ _ _ _ _ _ := trivial
  env_inv a w w' hD h := by
    obtain ⟨s', hs, rfl⟩ := Option.map_eq_some_iff.mp h
    exact hD.frame (env_frame hD.order hs)
  env_rely _ a w w' hD h := by
    obtain ⟨s', hs, rfl⟩ := Option.map_eq_some_iff.mp h
    have hF := env_frame hD.order hs
    exact ⟨hF.sight, hF.battery⟩
  exec_inv _ _ _ _ _ _ hD hpre h := sent_exec_inv hD hpre h
  exec_rely t u _ _ _ _ _ hne := absurd (Subsingleton.elim u t) hne
  crash_inv w hD := hD.frame ⟨.same rfl rfl, rfl, rfl⟩
  crash_idle _ _ _ := trivial
  spawn _ w _ _ := by
    refine wp_seq drain_refl (dwp_reconcile w) fun r w1 _ _ => ?_
    exact wp_last (P := fun _ => True) (fun _ _ _ _ _ => trivial) trivial
      fun _ _ _ => trivial

/-! ## 7. Drained once -/

theorem safe_sent {first : Version} {held : Option (Wire.PoolSpec × Battery.PoolStatus)}
    (hheld : ∀ h, held = some h → h.1.Kept) :
    Safe (Sent.machine key) drainSpec (Sent.start first held) where
  inv := by
    refine ⟨⟨List.pairwise_singleton _ _, fun v hv p hp => ?_⟩, fun x hx => ?_, fun b hb => ?_,
      fun u hu => absurd hu List.not_mem_nil, fun u hu => absurd hu List.not_mem_nil,
      List.Pairwise.nil⟩
    · have hv : v ∈ [first] := hv
      rw [List.mem_singleton.mp hv] at hp
      show p.uid ∈ (first.pool.map Pool.uid).toList
      simp [hp]
    · cases hx
    · obtain ⟨h, hh, rfl⟩ := Option.map_eq_some_iff.mp hb
      exact (hheld h hh).carried
  safe _ _ hp := nomatch hp
  rest _ _ := trivial

/-- **Draining changes only what stops refilling, once.** From any object under the name, and any
    spec battery holds, whose durations are not negative, in every world reached: every UpdatePool
    sent for a Pool that was being deleted carries the spec battery held, with nothing but the size
    and the replenishment changed after both conversions, and is recognised as drained; after one
    that took effect none is sent for that object; and while a reconcile works on that object, what
    battery holds is recognised as drained. -/
theorem draining_stops_refilling_once (key : ObjectKey) (first : Version)
    (held : Option (Wire.PoolSpec × Battery.PoolStatus)) (hheld : ∀ h, held = some h → h.1.Kept)
    (w : World Unit PoolOp PoolOp.Ans Sent)
    (h : (Sent.machine key).Run (fun _ _ => True) (Sent.start first held) w) :
    (∀ u ∈ w.shared.updates, ∃ p, u.object = some p ∧ (p.deleting = true →
      ∃ spec, u.held = some spec ∧
        specFromProto u.message = { spec with
          size := 0, replenishment := ⟨.minSizeThreshold, some drainedMinSize⟩ } ∧
        isDrainedSpec (specFromProto u.message) = true)) ∧
    (w.shared.updates.Pairwise fun later earlier => ∀ p q, later.object = some p →
      earlier.object = some q → q.deleting = true → earlier.applied = true → p.uid ≠ q.uid) ∧
    (∀ u ∈ w.shared.updates, ∀ p, u.object = some p → p.deleting = true → u.applied = true →
      ∀ x q, w.shared.pools.sight = some x → x.pool = some q → q.uid = p.uid →
        ∀ b, w.shared.pools.battery = some b → isDrainedSpec b.spec = true) := by
  have hD : Drains w.shared := ((drain_sound key).reach (safe_sent hheld) h).inv
  refine ⟨fun u hu => ?_, hD.once, fun u hu p hp hd ha x q hx hq he b hb => ?_⟩
  · obtain ⟨p, hp, hfits⟩ := hD.fits u hu
    refine ⟨p, hp, fun hd => ?_⟩
    obtain ⟨spec, hs, hm⟩ := hfits hd
    refine ⟨spec, hs, hm, ?_⟩
    rw [hm]
    exact isDrainedSpec_drainedSpec spec
  · obtain ⟨v, q', hR⟩ := hD.past u hu p hp hd ha
    have hep : x.epoch = v.epoch :=
      (hD.order.oneObject (hD.seen x hx).1 hR.mem q q' hq hR.pool).mpr (he.trans hR.uid.symm)
    exact hR.drained (.inr ⟨x, hx, hep⟩) b hb

/-- A Pool that is being deleted. -/
def someDying : Pool where
  uid := "u1"
  generation := 2
  deletionTimestamp := some 0
  finalizers := [poolFinalizer]
  spec := someSpec
  status := {}

/-- battery's Pool, with a MicroVM that is leased. -/
def someHeld : Wire.PoolSpec × Battery.PoolStatus :=
  (specToProto (poolSpecToBattery someKey someSpec ["host-1"]), { leased := 1 })

/-- battery refuses twice to delete the Pool; the drained spec reaches it, and the answer is
    lost. -/
def someRefused : List (Act Unit Choice EnvAct) :=
  [.spawn (), .exec () .ok, .exec () (.refuse "leased"), .exec () .ok,
      .exec () (.fail true ⟨.unavailable, "connection reset"⟩)] ++
    List.replicate 4 (.exec () .ok) ++
    [.spawn (), .exec () .ok, .exec () (.refuse "leased"), .exec () .ok] ++
    List.replicate 4 (.exec () .ok)

/-- The worlds reached from there. -/
def SomeReached (w : World Unit PoolOp PoolOp.Ans Sent) : Prop :=
  (Sent.machine someKey).Run (fun _ _ => True) (Sent.start ⟨1, some someDying⟩ (some someHeld)) w

theorem exists_sent (acts : List (Act Unit Choice EnvAct))
    (P : World Unit PoolOp PoolOp.Ans Sent → Prop) [DecidablePred P]
    (h : ((Sent.machine someKey).replay (fun _ _ => True)
      (Sent.start ⟨1, some someDying⟩ (some someHeld)) acts).any (fun w => decide (P w)) = true) :
    ∃ w, SomeReached w ∧ P w :=
  exists_run _ acts P h

/-- One UpdatePool was sent in two reconciles, and it is recognised as drained. -/
theorem draining_stops_refilling_once_lost :
    ∃ w u, SomeReached w ∧
      w.shared.updates = [u] ∧ u.applied = true ∧ w.running () = none ∧
      isDrainedSpec (specFromProto u.message) = true := by
  obtain ⟨w, hr, hup, hrun⟩ := exists_sent someRefused
    (fun w => (w.shared.updates.map fun u => (u.applied, u.object.map Pool.deleting)) =
      [(true, some true)] ∧ (w.running ()).isNone = true)
    (by decide +kernel)
  obtain ⟨u, hu, hprops⟩ := List.map_eq_singleton_iff.mp hup
  obtain ⟨happ, hdel⟩ := Prod.mk.inj hprops
  have hkept : ∀ h, some someHeld = some h → h.1.Kept := by
    intro h he
    cases he
    exact specToProto_kept _
  obtain ⟨p, hp, hsent⟩ := (draining_stops_refilling_once someKey ⟨1, some someDying⟩
    (some someHeld) hkept w hr).1 u (by rw [hu]; exact List.mem_singleton_self u)
  rw [hp] at hdel
  obtain ⟨spec, _, _, hdrained⟩ := hsent (Option.some.inj hdel)
  exact ⟨w, u, hr, hu, happ, Option.isNone_iff_eq_none.mp hrun, hdrained⟩

end BatteryOperator.Pools
