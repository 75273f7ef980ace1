/-
  Subject:   What holds of the objects under one name, their finalizer, their generations and
             battery's Pool, in every state.

  The versions of the name are ordered by their age: the epoch, and within it alive, being deleted,
  gone. The cache's copy only grows older in this order, and that carries the whole argument: while
  a version that is alive can still be read, nobody has read a later stage of its object.

  * `Follows old new` -- how two versions of the name relate;
  * `Guarded` -- where the finalizer stands: a version that can still be read and carries it is of
    the object stored now, which carries it too, unless the copy has reached that object's end;
  * `Seen v` -- what a reconcile that read `v` can count on;
  * `Declares d` -- the spec battery holds, against every version that can be or has been read;
  * `Inv.push`, `Inv.sync`, `Inv.read` -- **how a write, a catch-up and a read move all of this**.
-/
import BatteryOperator.Pool.System

namespace BatteryOperator.Pools

open Lib

/-! ## 1. Versions -/

namespace Version

/-- Alive, being deleted, gone. -/
def stage (v : Version) : Nat :=
  match v.pool with
  | none => 2
  | some p => if p.deleting then 1 else 0

/-- The place of a version in the name's life. -/
def age (v : Version) : Nat := 3 * v.epoch + v.stage

/-- There is an object, and it carries the finalizer. -/
def Guarded (v : Version) : Prop := ∃ p, v.pool = some p ∧ p.held = true

variable {v x : Version} {p q : Pool}

theorem stage_alive (h : v.pool = some p) (hd : p.deleting = false) : v.stage = 0 := by
  simp [stage, h, hd]

theorem stage_deleting (h : v.pool = some p) (hd : p.deleting = true) : v.stage = 1 := by
  simp [stage, h, hd]

theorem stage_le (v : Version) : v.stage ≤ 2 := by
  unfold stage
  split
  · exact Nat.le_refl 2
  · split <;> omega

/-- Within an epoch, what is not younger than a deleted object is deleted. -/
theorem deleting_of_age (hv : v.pool = some p) (hd : p.deleting = true) (hx : x.pool = some q)
    (he : x.epoch = v.epoch) (ha : v.age ≤ x.age) : q.deleting = true := by
  cases hq : q.deleting with
  | true => rfl
  | false =>
    have h1 := stage_deleting hv hd
    have h0 := stage_alive hx hq
    unfold age at ha
    omega

theorem epoch_le_of_age (ha : v.age ≤ x.age) : v.epoch ≤ x.epoch := by
  have h := stage_le x
  unfold age at ha
  omega

end Version

/-- The object is of the generation `g`, which has `spec`, or of a later one. -/
structure From (g : Int) (spec : PoolSpec) (q : Pool) : Prop where
  generation : g ≤ q.generation
  spec : g = q.generation → spec = q.spec

/-- `new` came after `old` under the name. -/
structure Follows (old new : Version) : Prop where
  age : old.age ≤ new.age
  same : ∀ p q, old.pool = some p → new.pool = some q →
    (old.epoch = new.epoch ↔ p.uid = q.uid)
  later : ∀ p q, old.pool = some p → new.pool = some q → old.epoch = new.epoch →
    From p.generation p.spec q

/-- One object, before and after. -/
structure Later (p q : Pool) : Prop where
  uid : q.uid = p.uid
  deleting : p.deleting = true → q.deleting = true
  upward : From p.generation p.spec q

/-- **What may come next under the name**: an object is created, the object changes, or it goes.
    `used` are the uids there were. -/
inductive Succeeds (used : String → Prop) (c : Version) : Version → Prop where
  | created (q : Pool) (hc : c.pool = none) (hu : ¬ used q.uid) (hd : q.deleting = false) :
      Succeeds used c ⟨c.epoch + 1, some q⟩
  | changed (p q : Pool) (hc : c.pool = some p) (hq : Later p q) :
      Succeeds used c ⟨c.epoch, some q⟩
  | gone (p : Pool) (hc : c.pool = some p) : Succeeds used c ⟨c.epoch, none⟩

theorem From.refl (p : Pool) : From p.generation p.spec p := ⟨Int.le_refl _, fun _ => rfl⟩

variable {p q : Pool} {v x w : Version} {r : Register Version} {uids : List String}
  {h : Battery.Pool}

theorem From.trans {g : Int} {spec : PoolSpec} (h : From g spec p)
    (hq : From p.generation p.spec q) : From g spec q := by
  have hg := h.generation
  have hg' := hq.generation
  refine ⟨Int.le_trans hg hg', fun he => ?_⟩
  rw [h.spec (by omega)]
  exact hq.spec (by omega)

theorem Succeeds.age {used : String → Prop} {c : Version} (h : Succeeds used c v) :
    c.age ≤ v.age := by
  cases h with
  | created q hc hu hd =>
    have hs := Version.stage_le c
    unfold Version.age
    show 3 * c.epoch + c.stage ≤ 3 * (c.epoch + 1) + _
    omega
  | changed p q hc hq =>
    unfold Version.age
    show 3 * c.epoch + c.stage ≤ 3 * c.epoch + Version.stage ⟨c.epoch, some q⟩
    cases hp : p.deleting with
    | true => rw [Version.stage_deleting hc hp, Version.stage_deleting rfl (hq.deleting hp)]
    | false =>
      rw [Version.stage_alive hc hp]
      omega
  | gone p hc =>
    have hs := Version.stage_le c
    unfold Version.age
    show 3 * c.epoch + c.stage ≤ 3 * c.epoch + 2
    omega

/-- What came before the version stored now also came before the next one. -/
theorem Follows.next {used : String → Prop} {c : Version} (hx : Follows x c ∨ x = c)
    (hused : ∀ p, x.pool = some p → used p.uid) (h : Succeeds used c v) : Follows x v := by
  have hage : x.age ≤ c.age := by
    rcases hx with hx | rfl
    · exact hx.age
    · exact Nat.le_refl _
  have hep : x.epoch ≤ c.epoch := Version.epoch_le_of_age hage
  refine ⟨Nat.le_trans hage h.age, fun p q hp hq => ?_, fun p q hp hq he => ?_⟩
  · cases h with
    | created q' hc hu hd =>
      cases hq
      -- a new epoch, and a uid nobody had
      refine iff_of_false (fun he => ?_) (fun hn => ?_)
      · have he : x.epoch = c.epoch + 1 := he
        omega
      · exact hu (hn ▸ hused p hp)
    | changed p' q' hc hl =>
      cases hq
      show x.epoch = c.epoch ↔ p.uid = q.uid
      rw [hl.uid]
      rcases hx with hx | rfl
      · exact hx.same p p' hp hc
      · rw [hp] at hc
        cases hc
        exact iff_of_true rfl rfl
    | gone p' hc => cases hq
  · cases h with
    | created q' hc hu hd =>
      have he : x.epoch = c.epoch + 1 := he
      omega
    | changed p' q' hc hl =>
      cases hq
      rcases hx with hx | rfl
      · exact (hx.later p p' hp hc he).trans hl.upward
      · rw [hp] at hc
        cases hc
        exact hl.upward
    | gone p' hc => cases hq

/-! ## 2. The parts of the invariant -/

/-- The versions of the name, in order. -/
structure Ordered (r : Register Version) (uids : List String) : Prop where
  pairwise : r.versions.Pairwise fun new old => Follows old new
  known : ∀ v ∈ r.versions, ∀ p, v.pool = some p → p.uid ∈ uids

/-- Where the finalizer stands. -/
structure Guarded (r : Register Version) : Prop where
  hold : ∀ x ∈ r.window, x.Guarded →
    (r.current.Guarded ∧ r.current.epoch = x.epoch) ∨ 3 * x.epoch + 1 ≤ r.copy.age
  one : ∀ x ∈ r.window, ∀ y ∈ r.window, x.Guarded → y.Guarded → x.epoch = y.epoch

/-- What a reconcile that read `v` can count on. -/
structure Seen (r : Register Version) (v : Version) : Prop where
  mem : v ∈ r.versions
  age : v.age ≤ r.copy.age
  alive : ∀ p, v.pool = some p → p.deleting = false →
    (∀ x ∈ r.window, x.Guarded → r.current.Guarded ∧ r.current.epoch = x.epoch) ∧
      (p.held = true → r.current.Guarded ∧ r.current.epoch = v.epoch)
  dying : ∀ p, v.pool = some p → p.deleting = true → p.held = true →
    ∀ x ∈ r.window, x.Guarded → x.epoch = v.epoch
  newer : ∀ p, v.pool = some p → ∀ x ∈ r.window, ∀ q, x.pool = some q → x.epoch = v.epoch →
    From p.generation p.spec q ∧ q.status.observedGeneration ≤ p.generation
  observed : ∀ p, v.pool = some p → p.status.observedGeneration ≤ p.generation

/-- No version that can still be read shows a generation beyond one that can still be read. -/
def Lagging (r : Register Version) : Prop :=
  ∀ x ∈ r.window, ∀ y ∈ r.window, ∀ p q, x.pool = some p → y.pool = some q → x.epoch = y.epoch →
    p.status.observedGeneration ≤ q.generation

/-- The generation and spec `d` against an object of its epoch. -/
structure Covers (d : Declared) (q : Pool) : Prop where
  upward : From d.generation d.spec q
  observed : q.status.observedGeneration ≤ d.generation

/-- battery holds what was declared last, and every version of that object that can be read, or
    that a reconcile works on, is covered by it. -/
structure Declares (key : ObjectKey) (r : Register Version) (sight : Option Version)
    (d : Declared) (spec : Battery.PoolSpec) : Prop where
  epoch : d.epoch = r.current.epoch
  spec : spec = poolSpecToBattery key d.spec d.hosts
  hosts : sorted d.hosts = d.hosts
  window : ∀ x ∈ r.window, ∀ q, x.pool = some q → x.epoch = d.epoch → Covers d q
  sight : ∀ x, sight = some x → ∀ q, x.pool = some q → x.epoch = d.epoch → Covers d q

/-- battery holds a Pool: the object is there with the finalizer, and unless its deletion has
    begun, battery has the spec that was declared last. -/
structure Holds (key : ObjectKey) (s : State) (spec : Battery.PoolSpec) : Prop where
  guarded : s.stored.current.Guarded
  declared : (∃ p, s.object = some p ∧ p.uid ∈ s.deleteSent) ∨
    ∃ d, s.declared = some d ∧ Declares key s.stored s.sight d spec

/-- battery accepted the spec some generation from `g` on of the object had. -/
def Accepted (key : ObjectKey) (versions : List Version)
    (accepted : List (String × Battery.PoolSpec)) (uid : String) (g : Int) : Prop :=
  ∃ y ∈ versions, ∃ q hosts, y.pool = some q ∧ q.uid = uid ∧ g ≤ q.generation ∧
    (uid, poolSpecToBattery key q.spec hosts) ∈ accepted

/-- **The invariant.** -/
structure Inv (key : ObjectKey) (s : State) : Prop where
  order : Ordered s.stored s.uids
  guarded : Guarded s.stored
  lagging : Lagging s.stored
  seen : ∀ v, s.sight = some v → Seen s.stored v
  holds : ∀ h, s.battery = some h → Holds key s h.spec
  accepted : ∀ x ∈ s.stored.versions, ∀ p, x.pool = some p → p.status.observedGeneration ≠ 0 →
    Accepted key s.stored.versions s.accepted p.uid p.status.observedGeneration
  deleted : ∀ u ∈ s.deleteSent, u ∈ s.uids ∧
    ∀ x ∈ s.stored.window, ∀ p, x.pool = some p → p.uid = u → p.deleting = true
  unsent : ∀ v p, s.sight = some v → v.pool = some p → p.deleting = false →
    p.uid ∉ s.deleteSent
  ended : ∀ hosts, s.ended = some ⟨none, false, some hosts⟩ →
    ∃ v p, s.sight = some v ∧ v.pool = some p ∧ p.deleting = false ∧ p.held = true ∧
      ∀ h, s.battery = some h → h.spec = poolSpecToBattery key p.spec hosts

/-! ## 3. Writes -/

/-- A uid some object under the name has had. -/
def Used (s : State) (u : String) : Prop :=
  (∃ x ∈ s.stored.versions, ∃ p, x.pool = some p ∧ p.uid = u) ∨ u ∈ s.deleteSent

/-- What a write does to the finalizer: it keeps it, or the reconcile that read an object alive
    adds it, or the one that read the object with it and deleted takes it away. -/
inductive GuardStep (s : State) (v : Version) : Prop where
  | kept (hv : v.Guarded → s.stored.current.Guarded ∧ v.epoch = s.stored.current.epoch)
      (hc : s.stored.current.Guarded → v.Guarded ∧ v.epoch = s.stored.current.epoch)
  | added (hv : v.Guarded) (he : v.epoch = s.stored.current.epoch)
      (w : Version) (p : Pool) (hw : s.sight = some w) (hp : w.pool = some p)
      (hd : p.deleting = false)
  | removed (hv : ¬ v.Guarded) (hb : s.battery = none)
      (w : Version) (p : Pool) (hw : s.sight = some w) (hp : w.pool = some p)
      (hd : p.deleting = true) (hh : p.held = true)

/-- Where the observed generation of what is written comes from: from what was stored, or from the
    reconcile's own object after battery accepted its spec. A new object shows none. -/
inductive ObservedStep (key : ObjectKey) (s : State) (v : Version) (q : Pool) : Prop where
  | same (p : Pool) (hc : s.stored.current.pool = some p) (he : v.epoch = s.stored.current.epoch)
      (ho : q.status.observedGeneration = p.status.observedGeneration)
  | unset (hc : s.stored.current.pool = none) (ho : q.status.observedGeneration = 0)
      (hg : 0 ≤ q.generation)
  | written (w : Version) (p : Pool) (hw : s.sight = some w) (hp : w.pool = some p)
      (hwe : w.epoch = s.stored.current.epoch) (he : v.epoch = s.stored.current.epoch)
      (ho : q.status.observedGeneration = p.generation)
      (ha : Accepted key s.stored.versions s.accepted q.uid p.generation)
      (hd : ∀ h d, s.battery = some h → s.declared = some d → p.generation ≤ d.generation)

/-- **A write of the object**, by whomever. -/
structure Push (key : ObjectKey) (s : State) (v : Version) : Prop where
  succeeds : Succeeds (Used s) s.stored.current v
  known : ∀ q, v.pool = some q → q.uid ∈ s.uids
  guard : GuardStep s v
  observed : ∀ q, v.pool = some q → ObservedStep key s v q

section Push

variable {key : ObjectKey} {s : State} {v : Version}

/-- The sight is one version, with one object. -/
theorem sight_unique {w' : Version} {p' : Pool} (hw : s.sight = some w) (hp : w.pool = some p)
    (hw' : s.sight = some w') (hp' : w'.pool = some p') : w = w' ∧ p = p' := by
  rw [hw] at hw'
  cases hw'
  rw [hp] at hp'
  cases hp'
  exact ⟨rfl, rfl⟩

theorem mem_window_push : x ∈ (r.push v).window ↔ x = v ∨ x ∈ r.window := by
  rw [Register.window_push]
  exact List.mem_cons

/-- Every version there was precedes the current one, or is it. -/
theorem Ordered.current (h : Ordered r uids) (hx : x ∈ r.versions) :
    Follows x r.current ∨ x = r.current := by
  have hp := h.pairwise
  rw [Register.versions, List.pairwise_cons] at hp
  rcases List.mem_cons.mp hx with rfl | hm
  · exact .inr rfl
  · exact .inl (hp.1 x hm)

/-- One more version, with a uid that is known from then on. -/
theorem Ordered.next {used : String → Prop} {uids' : List String} (h : Ordered r uids)
    (hused : ∀ x ∈ r.versions, ∀ p, x.pool = some p → used p.uid)
    (hv : Succeeds used r.current v) (hsub : uids ⊆ uids')
    (hknown : ∀ q, v.pool = some q → q.uid ∈ uids') : Ordered (r.push v) uids' := by
  refine ⟨?_, fun x hx p hp => ?_⟩
  · rw [Register.versions_push, List.pairwise_cons]
    exact ⟨fun x hx => Follows.next (h.current hx) (hused x hx) hv, h.pairwise⟩
  · rcases Register.mem_versions_push.mp hx with rfl | hm
    · exact hknown p hp
    · exact hsub (h.known x hm p hp)

theorem Ordered.push (h : Ordered s.stored s.uids) (hv : Push key s v) :
    Ordered (s.stored.push v) s.uids :=
  h.next (fun x hx p hp => .inl ⟨x, hx, p, hp, rfl⟩) hv.succeeds (fun _ hu => hu) hv.known

/-- The object stored now, where one of its epoch is written. -/
theorem Push.changed (hv : Push key s v) (hq : v.pool = some q)
    (he : v.epoch = s.stored.current.epoch) : ∃ p, s.stored.current.pool = some p ∧ Later p q := by
  cases hv.succeeds with
  | created q' hc hu hd =>
    have he : s.stored.current.epoch + 1 = s.stored.current.epoch := he
    omega
  | changed p q' hc hl =>
    cases hq
    exact ⟨p, hc, hl⟩
  | gone p hc => cases hq

/-- Where what is written is of the epoch of a version there was, that is the epoch stored now. -/
theorem Push.epoch_current (ho : Ordered s.stored s.uids) (hv : Push key s v)
    (hx : x ∈ s.stored.versions) (he : v.epoch = x.epoch) : v.epoch = s.stored.current.epoch := by
  have hxc : x.epoch ≤ s.stored.current.epoch := by
    rcases ho.current hx with hf | hf
    · exact Version.epoch_le_of_age hf.age
    · exact Nat.le_of_eq (congrArg Version.epoch hf)
  cases hv.succeeds with
  | created q hc hu hd =>
    have he : s.stored.current.epoch + 1 = x.epoch := he
    omega
  | changed | gone => rfl

theorem Guarded.push (hg : Guarded s.stored) (hseen : ∀ w, s.sight = some w → Seen s.stored w)
    (hv : GuardStep s v) : Guarded (s.stored.push v) := by
  have hcw := s.stored.current_mem_window
  cases hv with
  | kept hvg hcg =>
    refine ⟨fun x hx hxg => ?_, fun x hx y hy hxg hyg => ?_⟩
    · rcases mem_window_push.mp hx with rfl | hm
      · exact .inl ⟨hxg, rfl⟩
      · rcases hg.hold x hm hxg with ⟨hc, he⟩ | ha
        · obtain ⟨hvg', hve⟩ := hcg hc
          exact .inl ⟨hvg', hve.trans he⟩
        · exact .inr ha
    · have hback : ∀ z ∈ (s.stored.push v).window, z.Guarded →
          ∃ z' ∈ s.stored.window, z'.Guarded ∧ z'.epoch = z.epoch := by
        intro z hz hzg
        rcases mem_window_push.mp hz with rfl | hm
        · exact ⟨_, hcw, (hvg hzg).1, (hvg hzg).2.symm⟩
        · exact ⟨z, hm, hzg, rfl⟩
      obtain ⟨x', hx', hxg', hxe⟩ := hback x hx hxg
      obtain ⟨y', hy', hyg', hye⟩ := hback y hy hyg
      rw [← hxe, ← hye]
      exact hg.one x' hx' y' hy' hxg' hyg'
  | added hvg hve w p hw hp hd =>
    -- the reconcile read an alive object, so what carries the finalizer is of the stored one
    have hall := ((hseen w hw).alive p hp hd).1
    have hep : ∀ z ∈ (s.stored.push v).window, z.Guarded → z.epoch = v.epoch := by
      intro z hz hzg
      rcases mem_window_push.mp hz with rfl | hm
      · rfl
      · exact (hve.trans (hall z hm hzg).2).symm
    refine ⟨fun x hx hxg => .inl ⟨hvg, (hep x hx hxg).symm⟩, fun x hx y hy hxg hyg => ?_⟩
    exact (hep x hx hxg).trans (hep y hy hyg).symm
  | removed hvg hb w p hw hp hd hh =>
    -- the copy has reached the deletion of the object the finalizer is taken from
    have hs := hseen w hw
    have hin : ∀ z ∈ (s.stored.push v).window, z.Guarded → z ∈ s.stored.window := by
      intro z hz hzg
      rcases mem_window_push.mp hz with rfl | hm
      · exact absurd hzg hvg
      · exact hm
    refine ⟨fun x hx hxg => .inr ?_, fun x hx y hy hxg hyg => ?_⟩
    · have he : x.epoch = w.epoch := hs.dying p hp hd hh x (hin x hx hxg) hxg
      have hage := hs.age
      have hstage := Version.stage_deleting hp hd
      unfold Version.age at hage
      rw [Register.copy_push]
      unfold Version.age
      omega
    · exact hg.one x (hin x hx hxg) y (hin y hy hyg) hxg hyg

theorem Seen.push (ho : Ordered s.stored s.uids) (h : Seen s.stored w) (hw : s.sight = some w)
    (hv : Push key s v) : Seen (s.stored.push v) w := by
  have hcw := s.stored.current_mem_window
  refine ⟨Register.mem_versions_push.mpr (.inr h.mem), h.age, fun p hp hd => ?_,
    fun p hp hd hh x hx hxg => ?_, fun p hp x hx q hq he => ?_, h.observed⟩
  · obtain ⟨hall, hheld⟩ := h.alive p hp hd
    have hfrom : s.stored.current.Guarded → v.Guarded ∧ v.epoch = s.stored.current.epoch := by
      cases hv.guard with
      | kept _ hcg => exact hcg
      | added hvg hve => exact fun _ => ⟨hvg, hve⟩
      | removed _ _ w' p' hw' hp' hd' =>
        obtain ⟨rfl, rfl⟩ := sight_unique hw hp hw' hp'
        rw [hd] at hd'
        cases hd'
    refine ⟨fun x hx hxg => ?_, fun hh => ?_⟩
    · rcases mem_window_push.mp hx with rfl | hm
      · exact ⟨hxg, rfl⟩
      · obtain ⟨hc, hce⟩ := hall x hm hxg
        exact ⟨(hfrom hc).1, (hfrom hc).2.trans hce⟩
    · obtain ⟨hc, hce⟩ := hheld hh
      exact ⟨(hfrom hc).1, (hfrom hc).2.trans hce⟩
  · rcases mem_window_push.mp hx with rfl | hm
    · cases hv.guard with
      | kept hvg => exact (hvg hxg).2.trans (h.dying p hp hd hh _ hcw (hvg hxg).1)
      | added _ _ w' p' hw' hp' hd' =>
        obtain ⟨rfl, rfl⟩ := sight_unique hw hp hw' hp'
        rw [hd] at hd'
        cases hd'
      | removed hvg => exact absurd hxg hvg
    · exact h.dying p hp hd hh x hm hxg
  · rcases mem_window_push.mp hx with rfl | hm
    · obtain ⟨pc, hc, hl⟩ := hv.changed hq (hv.epoch_current ho h.mem he)
      have hce : s.stored.current.epoch = w.epoch := by
        rw [← he, hv.epoch_current ho h.mem he]
      obtain ⟨hup, hle⟩ := h.newer p hp _ hcw pc hc hce
      refine ⟨hup.trans hl.upward, ?_⟩
      cases hv.observed q hq with
      | same p' hc' hxe hob =>
        rw [hc] at hc'
        cases hc'
        exact hob ▸ hle
      | unset hc' hob hg =>
        simp [hc] at hc'
      | written w' p' hw' hp' hwe hxe hob ha hdd =>
        obtain ⟨rfl, rfl⟩ := sight_unique hw hp hw' hp'
        exact Int.le_of_eq hob
    · exact h.newer p hp x hm q hq he

theorem Lagging.push (ho : Ordered s.stored s.uids) (h : Lagging s.stored)
    (hseen : ∀ w, s.sight = some w → Seen s.stored w) (hv : Push key s v) :
    Lagging (s.stored.push v) := by
  have hcw := s.stored.current_mem_window
  -- what is written shows no generation beyond one that can be read
  have hnew : ∀ q, v.pool = some q → ∀ y ∈ s.stored.window, ∀ q', y.pool = some q' →
      v.epoch = y.epoch → q.status.observedGeneration ≤ q'.generation := by
    intro q hq y hy q' hq' he
    have hve := hv.epoch_current ho (s.stored.window_subset hy) he
    obtain ⟨pc, hc, hl⟩ := hv.changed hq hve
    cases hv.observed q hq with
    | same p hc' _ hob =>
      rw [hob]
      exact h _ hcw y hy p q' hc' hq' (hve.symm.trans he)
    | unset hc' hob hg =>
      rw [hc] at hc'
      cases hc'
    | written w p hw hp hwe _ hob ha hdd =>
      rw [hob]
      exact ((hseen w hw).newer p hp y hy q' hq'
        (he.symm.trans (hve.trans hwe.symm))).1.generation
  intro x hx y hy p q hp hq he
  rcases mem_window_push.mp hx with hxv | hxm
  · rw [hxv] at hp he
    rcases mem_window_push.mp hy with hyv | hym
    · -- the new version against itself
      rw [hyv, hp] at hq
      cases hq
      by_cases hve : v.epoch = s.stored.current.epoch
      · obtain ⟨pc, hc, hl⟩ := hv.changed hp hve
        exact Int.le_trans (hnew p hp _ hcw pc hc hve) hl.upward.generation
      · cases hv.observed p hp with
        | unset hc hob hg =>
          rw [hob]
          exact hg
        | _ => simp_all
    · exact hnew p hp y hym q hq he
  · rcases mem_window_push.mp hy with hyv | hym
    · rw [hyv] at hq he
      have hve := hv.epoch_current ho (s.stored.window_subset hxm) he.symm
      obtain ⟨pc, hc, hl⟩ := hv.changed hq hve
      exact Int.le_trans (h x hxm _ hcw p pc hp hc (he.trans hve)) hl.upward.generation
    · exact h x hxm y hym p q hp hq he

theorem Accepted.mono {versions versions' : List Version}
    {accepted accepted' : List (String × Battery.PoolSpec)} {uid : String} {g : Int}
    (h : Accepted key versions accepted uid g) (hv : versions ⊆ versions')
    (ha : accepted ⊆ accepted') : Accepted key versions' accepted' uid g := by
  obtain ⟨y, hy, q, hosts, hq, hu, hg, hm⟩ := h
  exact ⟨y, hv hy, q, hosts, hq, hu, hg, ha hm⟩

theorem Declares.push {d : Declared} {spec : Battery.PoolSpec} (hb : s.battery = some h)
    (hd : s.declared = some d) (hdec : Declares key s.stored s.sight d spec) (hv : Push key s v)
    (hve : v.epoch = s.stored.current.epoch) : Declares key (s.stored.push v) s.sight d spec := by
  refine ⟨hdec.epoch.trans hve.symm, hdec.spec, hdec.hosts, fun x hx q hq he => ?_, hdec.sight⟩
  rcases mem_window_push.mp hx with rfl | hm
  · obtain ⟨pc, hc, hl⟩ := hv.changed hq hve
    have hcov := hdec.window _ s.stored.current_mem_window pc hc (hve.symm.trans he)
    refine ⟨hcov.upward.trans hl.upward, ?_⟩
    cases hv.observed q hq with
    | same p' hc' _ hob =>
      rw [hc] at hc'
      cases hc'
      exact hob ▸ hcov.observed
    | unset hc' =>
      simp [hc] at hc'
    | written w p hw hp hwe _ hob ha hdd => exact hob ▸ hdd h d hb hd
  · exact hdec.window x hm q hq he

/-- A write leaves the finalizer where battery holds a Pool, and the object with it. -/
theorem Holds.push (hI : Inv key s) (hb : s.battery = some h) (hv : Push key s v) :
    Holds key { s with stored := s.stored.push v } h.spec := by
  have hh := hI.holds h hb
  have hvg : v.Guarded ∧ v.epoch = s.stored.current.epoch := by
    cases hv.guard with
    | kept _ hcg => exact hcg hh.guarded
    | added hvg hve => exact ⟨hvg, hve⟩
    | removed _ hn =>
      simp [hb] at hn
  refine ⟨hvg.1, ?_⟩
  rcases hh.declared with ⟨p, hp, hu⟩ | ⟨d, hd, hdec⟩
  · obtain ⟨q, hq, _⟩ := hvg.1
    obtain ⟨pc, hc, hl⟩ := hv.changed hq hvg.2
    have hpc : p = pc := Option.some.inj (hp.symm.trans hc)
    refine .inl ⟨q, hq, ?_⟩
    rw [hl.uid, ← hpc]
    exact hu
  · exact .inr ⟨d, hd, hdec.push hb hd hv hvg.2⟩

/-- **A write keeps the invariant.** -/
theorem Inv.push (hI : Inv key s) (hv : Push key s v) :
    Inv key { s with stored := s.stored.push v } := by
  have hsub : s.stored.versions ⊆ (s.stored.push v).versions :=
    fun x hx => Register.mem_versions_push.mpr (.inr hx)
  refine { hI with
    order := hI.order.push hv
    guarded := hI.guarded.push hI.seen hv.guard
    lagging := hI.lagging.push hI.order hI.seen hv
    seen := fun w hw => (hI.seen w hw).push hI.order hw hv
    holds := fun h hb => Holds.push hI hb hv
    accepted := fun x hx p hp hne => ?_
    deleted := fun u hu => ⟨(hI.deleted u hu).1, fun x hx p hp he => ?_⟩ }
  · rcases Register.mem_versions_push.mp hx with rfl | hm
    · cases hv.observed p hp with
      | same p' hc hve hob =>
        obtain ⟨pc, hc', hl⟩ := hv.changed hp hve
        rw [hc] at hc'
        cases hc'
        rw [hob] at hne
        rw [hob, hl.uid]
        exact (hI.accepted _ s.stored.current_mem p' hc hne).mono hsub fun _ h => h
      | unset _ hob => exact absurd hob hne
      | written w p' _ _ _ _ hob ha =>
        rw [hob]
        exact ha.mono hsub fun _ h => h
    · exact (hI.accepted x hm p hp hne).mono hsub fun _ h => h
  · rcases mem_window_push.mp hx with rfl | hm
    · cases hv.succeeds with
      | created q hc hnew hd =>
        cases hp
        exact absurd (.inr (he ▸ hu)) hnew
      | changed p' q hc hl =>
        cases hp
        refine hl.deleting ((hI.deleted u hu).2 _ s.stored.current_mem_window p' hc ?_)
        rw [← hl.uid]
        exact he
      | gone p' hc => cases hp
    · exact (hI.deleted u hu).2 x hm p hp he

end Push

/-! ## 4. Catching up and reading -/

section Read

variable {key : ObjectKey} {s : State}

/-- The copy is the oldest version that can still be read. -/
theorem Ordered.copy_le (h : Ordered r uids) (hx : x ∈ r.window) : Follows r.copy x ∨ x = r.copy :=
  (Register.copy_oldest h.pairwise hx).symm

theorem Ordered.copy_age (h : Ordered r uids) (hx : x ∈ r.window) : r.copy.age ≤ x.age := by
  rcases h.copy_le hx with hf | rfl
  · exact hf.age
  · exact Nat.le_refl _

theorem Ordered.copy_age_sync (h : Ordered r uids) (n : Nat) : r.copy.age ≤ (r.sync n).copy.age :=
  h.copy_age (r.window_sync_subset n (r.sync n).copy_mem_window)

/-- **Catching up keeps the invariant.** -/
theorem Inv.sync (hI : Inv key s) (n : Nat) :
    Inv key { s with stored := s.stored.sync n } := by
  have hsub := s.stored.window_sync_subset n
  have hage := hI.order.copy_age_sync n
  refine { hI with
    order := ⟨hI.order.pairwise, hI.order.known⟩
    guarded := ⟨fun x hx hg => ?_, fun x hx y hy => hI.guarded.one x (hsub hx) y (hsub hy)⟩
    lagging := fun x hx y hy => hI.lagging x (hsub hx) y (hsub hy)
    seen := fun w hw => ?_
    holds := fun h hb => ⟨(hI.holds h hb).guarded, ?_⟩
    deleted := fun u hu => ⟨(hI.deleted u hu).1, fun x hx => (hI.deleted u hu).2 x (hsub hx)⟩ }
  · rcases hI.guarded.hold x (hsub hx) hg with hc | ha
    · exact .inl hc
    · exact .inr (Nat.le_trans ha hage)
  · have hs := hI.seen w hw
    exact ⟨hs.mem, Nat.le_trans hs.age hage,
      fun p hp hd => ⟨fun x hx => (hs.alive p hp hd).1 x (hsub hx), (hs.alive p hp hd).2⟩,
      fun p hp hd hh x hx => hs.dying p hp hd hh x (hsub hx),
      fun p hp x hx => hs.newer p hp x (hsub hx), hs.observed⟩
  · rcases (hI.holds h hb).declared with hdel | ⟨d, hd, hdec⟩
    · exact .inl hdel
    · exact .inr ⟨d, hd, { hdec with window := fun x hx => hdec.window x (hsub hx) }⟩

/-- **What a read can count on.** While an alive object can be read, no reconcile has read its
    deletion, so its finalizer, if it has it, is still stored. -/
theorem Inv.seen_copy (hI : Inv key s) : Seen s.stored s.stored.copy := by
  have hcopy := s.stored.copy_mem_window
  refine ⟨s.stored.window_subset hcopy, Nat.le_refl _, fun p hp hd => ?_,
    fun p hp hd hh x hx hg => ?_, fun p hp x hx q hq he => ⟨?_, ?_⟩, fun p hp => ?_⟩
  · have hall : ∀ x ∈ s.stored.window, x.Guarded →
        s.stored.current.Guarded ∧ s.stored.current.epoch = x.epoch := by
      intro x hx hg
      rcases hI.guarded.hold x hx hg with hc | ha
      · exact hc
      · -- the copy is alive, so it cannot have reached the end of an object it precedes
        have hle := Version.epoch_le_of_age (hI.order.copy_age hx)
        have h0 := Version.stage_alive hp hd
        unfold Version.age at ha
        omega
    exact ⟨hall, fun hh => hall _ hcopy ⟨p, hp, hh⟩⟩
  · exact hI.guarded.one x hx _ hcopy hg ⟨p, hp, hh⟩
  · rcases hI.order.copy_le hx with hf | rfl
    · exact hf.later p q hp hq he.symm
    · rw [hp] at hq
      cases hq
      exact From.refl p
  · exact hI.lagging x hx _ hcopy q p hq hp he
  · exact hI.lagging _ hcopy _ hcopy p p hp hp rfl

/-- **Reading keeps the invariant**, also a read that fails. -/
theorem Inv.read (hI : Inv key s) {sight : Option Version}
    (hsight : ∀ w, sight = some w → w = s.stored.copy) : Inv key { s with
    sight := sight, resolved := none, refused := false, ended := none } := by
  have hcopy := s.stored.copy_mem_window
  refine { hI with
    seen := fun w hw => hsight w hw ▸ hI.seen_copy
    holds := fun h hb => ⟨(hI.holds h hb).guarded, ?_⟩
    unsent := fun w p hw hp hd hu => ?_
    ended := nofun }
  · rcases (hI.holds h hb).declared with hdel | ⟨d, hd, hdec⟩
    · exact .inl hdel
    · exact .inr ⟨d, hd, { hdec with sight := fun x hx => hdec.window x (hsight x hx ▸ hcopy) }⟩
  · obtain rfl := hsight w hw
    simp [(hI.deleted p.uid hu).2 _ hcopy p hp rfl] at hd

/-! ## 5. battery -/

/-- What the invariant does not look at may change, and battery's counts. -/
structure SameCore (s s' : State) : Prop where
  stored : s'.stored = s.stored
  uids : s'.uids = s.uids
  sight : s'.sight = s.sight
  battery : s'.battery.map Battery.Pool.spec = s.battery.map Battery.Pool.spec
  declared : s'.declared = s.declared
  accepted : s'.accepted = s.accepted
  deleteSent : s'.deleteSent = s.deleteSent
  ended : s'.ended = s.ended

theorem SameCore.spec {s' : State} (h : SameCore s s') {b : Battery.Pool}
    (hb : s'.battery = some b) : ∃ b', s.battery = some b' ∧ b'.spec = b.spec := by
  have hm := h.battery
  rw [hb, Option.map_some] at hm
  exact Option.map_eq_some_iff.mp hm.symm

theorem Inv.same {s' : State} (hI : Inv key s) (h : SameCore s s') : Inv key s' := by
  have hdef : ∀ b, s'.battery = some b → Holds key s' b.spec := by
    intro b hb
    obtain ⟨b', hb', hs⟩ := h.spec hb
    have hh := hI.holds b' hb'
    rw [hs] at hh
    refine ⟨h.stored ▸ hh.guarded, ?_⟩
    unfold State.object
    rw [h.stored, h.deleteSent, h.declared, h.sight]
    exact hh.declared
  constructor
  · rw [h.stored, h.uids]
    exact hI.order
  · rw [h.stored]
    exact hI.guarded
  · rw [h.stored]
    exact hI.lagging
  · rw [h.stored, h.sight]
    exact hI.seen
  · exact hdef
  · rw [h.stored, h.accepted]
    exact hI.accepted
  · rw [h.stored, h.uids, h.deleteSent]
    exact hI.deleted
  · rw [h.sight, h.deleteSent]
    exact hI.unsent
  · rw [h.sight, h.ended]
    intro hosts he
    obtain ⟨v, p, hv, hp, hd, hh, hall⟩ := hI.ended hosts he
    refine ⟨v, p, hv, hp, hd, hh, fun b hb => ?_⟩
    obtain ⟨b', hb', hs⟩ := h.spec hb
    rw [← hs]
    exact hall b' hb'

/-- Two versions show one object exactly if they are of one epoch. -/
def OneObject (x y : Version) : Prop :=
  ∀ p q, x.pool = some p → y.pool = some q → (x.epoch = y.epoch ↔ p.uid = q.uid)

theorem OneObject.symm {y : Version} (h : OneObject x y) : OneObject y x :=
  fun p q hp hq => ⟨fun he => ((h q p hq hp).mp he.symm).symm,
    fun he => ((h q p hq hp).mpr he.symm).symm⟩

theorem OneObject.refl (x : Version) : OneObject x x := by
  intro p q hp hq
  rw [hp] at hq
  cases hq
  exact iff_of_true rfl rfl

theorem Ordered.oneObject (h : Ordered r uids) {y : Version} (hx : x ∈ r.versions)
    (hy : y ∈ r.versions) : OneObject x y := by
  have hpw : r.versions.Pairwise OneObject :=
    h.pairwise.imp fun hf => OneObject.symm hf.same
  exact hpw.forall_of_forall_of_flip (fun z _ => OneObject.refl z)
    (h.pairwise.imp fun hf => hf.same) hx hy

section Acting

variable (hI : Inv key s) (hw : s.sight = some w) (hp : w.pool = some p)
include hI hw hp

/-- **battery accepts the spec of the object that was read.** -/
theorem Inv.declare (hd : p.deleting = false) (hh : p.held = true) (he : s.ended = none)
    {hosts : List String} (hhosts : sorted hosts = hosts) (status : Battery.PoolStatus) :
    Inv key (s.declare (poolSpecToBattery key p.spec hosts) status) := by
  have hs := hI.seen w hw
  obtain ⟨hcg, hce⟩ := (hs.alive p hp hd).2 hh
  have hdecl : (s.declare (poolSpecToBattery key p.spec hosts) status).declared =
      some ⟨w.epoch, p.generation, p.spec, hosts⟩ := by
    simp [State.declare, hw, hp, poolSpecToBattery]
  have hacc : s.accepted ⊆ (s.declare (poolSpecToBattery key p.spec hosts) status).accepted := by
    simp [State.declare, hw, hp]
  refine { hI with
    holds := fun h hb => ?_
    accepted := fun x hx q hq hne => (hI.accepted x hx q hq hne).mono (fun _ h => h) hacc
    ended := fun hosts hn => nomatch he.symm.trans hn }
  cases hb
  refine ⟨hcg, .inr ⟨_, hdecl, hce.symm, rfl, hhosts, fun x hx q hq hxe => ?_,
    fun x hx q hq hxe => ?_⟩⟩
  · obtain ⟨hup, hob⟩ := hs.newer p hp x hx q hq hxe
    exact ⟨hup, hob⟩
  · obtain ⟨rfl, rfl⟩ := sight_unique hw hp hx hq
    exact ⟨From.refl p, hs.observed p hp⟩

/-- The object that was read with the finalizer and deleted is the one stored with it. -/
theorem Inv.dying_uid (hd : p.deleting = true) (hh : p.held = true) (hq : s.object = some q)
    (hg : q.held = true) : q.uid = p.uid := by
  have hs := hI.seen w hw
  have he : s.stored.current.epoch = w.epoch :=
    hs.dying p hp hd hh _ s.stored.current_mem_window ⟨q, hq, hg⟩
  exact (hI.order.oneObject s.stored.current_mem hs.mem q p hq hp).mp he

/-- **battery accepts a spec for the object whose deletion has begun.** -/
theorem Inv.drain (hd : p.deleting = true) (hh : p.held = true) (hu : p.uid ∈ s.deleteSent)
    (hb : s.battery = some h) (he : s.ended = none) (spec : Battery.PoolSpec)
    (status : Battery.PoolStatus) : Inv key (s.declare spec status) := by
  have hacc : s.accepted ⊆ (s.declare spec status).accepted := by
    simp [State.declare, hw, hp]
  have hg := (hI.holds h hb).guarded
  refine { hI with
    holds := fun h' hb' => ⟨hg, .inl ?_⟩
    accepted := fun x hx q hq hne => (hI.accepted x hx q hq hne).mono (fun _ h => h) hacc
    ended := fun hosts hn => nomatch he.symm.trans hn }
  obtain ⟨q, hq, hqh⟩ := hg
  refine ⟨q, hq, ?_⟩
  have hqu : q.uid = p.uid := hI.dying_uid hw hp hd hh hq hqh
  rw [hqu]
  exact hu

/-- **DeletePool is sent** for the object that was read deleted. -/
theorem Inv.sendDelete (hd : p.deleting = true) :
    Inv key { s with deleteSent := p.uid :: s.deleteSent } := by
  have hs := hI.seen w hw
  refine { hI with
    holds := fun h hb => ⟨(hI.holds h hb).guarded, ?_⟩
    deleted := fun u hu => ?_
    unsent := fun w' p' hw' hp' hd' => ?_ }
  · rcases (hI.holds h hb).declared with ⟨q, hq, hu⟩ | hdec
    · exact .inl ⟨q, hq, List.mem_cons_of_mem _ hu⟩
    · exact .inr hdec
  · rcases List.mem_cons.mp hu with rfl | hm
    · refine ⟨hI.order.known w hs.mem p hp, fun x hx q hq he => ?_⟩
      have hxe : x.epoch = w.epoch :=
        (hI.order.oneObject (s.stored.window_subset hx) hs.mem q p hq hp).mpr he
      have hage : w.age ≤ x.age := Nat.le_trans hs.age (hI.order.copy_age hx)
      exact Version.deleting_of_age hp hd hq hxe hage
    · exact hI.deleted u hm
  · obtain ⟨rfl, rfl⟩ := sight_unique hw hp hw' hp'
    simp [hd] at hd'

end Acting

/-- **battery deletes the Pool.** -/
theorem Inv.forgotten (hI : Inv key s) : Inv key { s with battery := none } := by
  refine { hI with
    holds := fun h hb => nomatch hb
    ended := fun hosts he => ?_ }
  obtain ⟨v, p, hv, hp, hd, hh, _⟩ := hI.ended hosts he
  exact ⟨v, p, hv, hp, hd, hh, fun h hb => nomatch hb⟩

end Read

end BatteryOperator.Pools
