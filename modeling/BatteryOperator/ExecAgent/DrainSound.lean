/-
  Subject:   The drain guard holds a drain open exactly as long as it has to.

  * `GuardIs s want` -- both objects are there and stay, or neither is; `MemoryOk` -- what the agent
    remembers of the guard is so;
  * `DrainPre` -- the duty before each call: the pod is created under its budget, the budget is
    deleted after the pod, nothing is written before the claims are listed, and the recorded start
    of a drain is written only where none is and removed only after the Node was read schedulable;
  * `drain_sound` -- **the guard's program meets these duties**, whatever the world does between
    two calls and whichever calls fail.
-/
import BatteryOperator.ExecAgent.Drain
import BatteryOperator.Lib.RelyGuarantee

namespace BatteryOperator.ExecAgent

open Lib Machine

/-! ## 1. The guard, and what is owed before each call -/

/-- The guard is placed and stays, or both its objects are gone. -/
def GuardIs (s : DrainState) : Bool → Prop
  | true => (∃ p, s.pod = some p ∧ p.deleting = false) ∧ s.budget = true
  | false => s.pod = none ∧ s.budget = false

/-- A guard that is known is as remembered. -/
def MemoryOk (m : DrainMemory) (s : DrainState) : Prop := m.guardKnown = true → GuardIs s m.guard

/-- The claims were listed in this reconcile. -/
def Sight.isListed (c : Sight) : Prop := ∃ bound, c.listed = some (.ok bound)

namespace DrainGuard

variable (d : DrainGuard)

/-- **When a drain is held open**: claims are Bound on the Host, and the Node is schedulable or the
    drain timeout has not passed at `at_` since the start recorded. -/
def Holds (host : HostNode) (bound : List Claim) (started : Option Time) (at_ : Time) : Prop :=
  bound ≠ [] ∧ (host.unschedulable = false ∨ ∃ t, started = some t ∧ at_ - t < d.drainTimeout)

/-- The guard is what the reconcile's sight of Node and claims asks for, at a moment between its
    start and now. -/
def Exact (s : DrainState) : Prop :=
  ∃ host bound at_, s.sight.host = some host ∧ s.sight.listed = some (.ok bound) ∧
    s.sight.begun ≤ at_ ∧ at_ ≤ s.now ∧
    (d.Holds host bound (drainStarted s.node) at_ → GuardIs s true) ∧
    (¬ d.Holds host bound (drainStarted s.node) at_ → GuardIs s false)

/-- What the agent owes before each operation. -/
def DrainPre (s : DrainState) : DrainOp → Prop
  | .getNode => s.sight = {}
  | .boundOnHost => s.sight.listed = none
  | .annotate none => s.sight.isListed ∧ ∃ h, s.sight.host = some h ∧ h.unschedulable = false
  | .annotate (some _) => s.sight.isListed ∧ drainStarted s.node = none
  | .createBudget => s.sight.isListed
  | .createPod => s.sight.isListed ∧ s.budget = true
  | .deletePod => s.sight.isListed
  | .deleteBudget => s.sight.isListed ∧ s.pod = none
  | .finish m err => MemoryOk m s ∧ (err = none → d.Exact s)
  | _ => True

end DrainGuard

/-- What the world around the agent leaves alone. -/
structure DrainRely (s s' : DrainState) : Prop where
  stamp : s'.node.drainStarted = s.node.drainStarted
  budget : s'.budget = s.budget
  absent : s.pod = none → s'.pod = none
  pod : ∀ p, s.pod = some p → p.deleting = false → ∃ p', s'.pod = some p' ∧ p'.deleting = false
  now : s.now ≤ s'.now
  memory : s'.memory = s.memory
  sight : s'.sight = s.sight

theorem DrainRely.refl (s : DrainState) : DrainRely s s :=
  ⟨rfl, rfl, id, fun p hp hd => ⟨p, hp, hd⟩, Int.le_refl _, rfl, rfl⟩

theorem DrainRely.trans {a b c : DrainState} (h1 : DrainRely a b) (h2 : DrainRely b c) :
    DrainRely a c := by
  refine ⟨h2.stamp.trans h1.stamp, h2.budget.trans h1.budget, fun hn => h2.absent (h1.absent hn),
    fun p hp hd => ?_, Int.le_trans h1.now h2.now, h2.memory.trans h1.memory,
    h2.sight.trans h1.sight⟩
  obtain ⟨p', hp', hd'⟩ := h1.pod p hp hd
  exact h2.pod p' hp' hd'

/-- The pod has its budget. -/
def PodGuarded (s : DrainState) : Prop := s.pod.isSome = true → s.budget = true

/-- **The specification of the agent's thread.** -/
def DrainGuard.spec (d : DrainGuard) : Spec Unit DrainOp DrainState where
  Inv := PodGuarded
  Pre _ o s := d.DrainPre s o
  Rely _ := DrainRely
  Idle _ s := MemoryOk s.memory s ∧ s.sight = {}

/-! ## 2. What the world and one call do -/

variable {a : DrainAct} {s s' : DrainState} {o : DrainOp} {t : Time} {want : Bool} {f : ApiFault}
  {m : DrainMemory} {host : HostNode} {bound : List Claim} {r : o.Ans}

theorem drainEnv_rely (h : drainEnv a s = some s') : DrainRely s s' := by
  cases a with
  | setUnschedulable | setClaims =>
    cases h
    exact { DrainRely.refl s with }
  | tick n =>
    cases h
    have hn : s.now ≤ s.now + n := Int.le_add_of_nonneg_right (Int.natCast_nonneg n)
    exact { DrainRely.refl s with now := hn }
  | podPhase phase =>
    obtain ⟨p, hp, rfl⟩ := Option.map_eq_some_iff.mp h
    refine { DrainRely.refl s with absent := fun hn => ?_, pod := fun q hq hd => ?_ }
    · rw [hp] at hn
      cases hn
    · rw [hp] at hq
      cases hq
      exact ⟨_, rfl, hd⟩
  | podGone =>
    simp only [drainEnv] at h
    split at h
    next p hp =>
      obtain ⟨hdel, h⟩ := Option.ite_none_right_eq_some.mp h
      cases h
      refine { DrainRely.refl s with absent := fun _ => rfl, pod := fun q hq hd => ?_ }
      rw [hp] at hq
      cases hq
      rw [hdel] at hd
      cases hd
    · cases h

/-- The world never adds a pod. -/
theorem drainEnv_guarded (hI : PodGuarded s) (h : drainEnv a s = some s') : PodGuarded s' := by
  have hR := drainEnv_rely h
  intro hp
  rw [hR.budget]
  apply hI
  cases hs : s.pod with
  | some p => rfl
  | none =>
    simp [hR.absent hs] at hp

section Exec

variable {d : DrainGuard} {s s' : DrainState} {f : ApiFault}

/-- **Every call keeps the pod under its budget**, given what is owed before it. -/
theorem drainExec_guarded (hI : PodGuarded s) (hpre : d.DrainPre s o) (h : d.exec f o s = (r, s')) :
    PodGuarded s' := by
  cases o with
  | getNode | boundOnHost =>
    cases f with
    | none | failed =>
      cases h
      exact hI
  | now | getPod | memory | finish =>
    cases h
    exact hI
  | annotate started =>
    rcases ApiFault.write_state h with rfl | rfl
    · exact hI
    · exact hI
  | createBudget =>
    rcases ApiFault.write_state h with rfl | rfl
    · exact fun _ => rfl
    · exact hI
  | deleteBudget =>
    rcases ApiFault.write_state h with rfl | rfl
    · intro hp
      have hnone : s.pod.isSome = true := hp
      simp [hpre.2] at hnone
    · exact hI
  | createPod =>
    rcases ApiFault.write_state h with rfl | rfl
    · have hb : (s.createPod (DrainState.guardName d.hostNode)).2.budget = s.budget := by
        unfold DrainState.createPod
        split <;> rfl
      exact fun _ => hb.trans hpre.2
    · exact hI
  | deletePod =>
    rcases ApiFault.write_state h with rfl | rfl
    · nofun
    · exact hI

end Exec

/-! ## 3. The rules for the agent's programs -/

/-- What a program of the agent needs to end in `Q`. -/
abbrev GuardWp (d : DrainGuard) {α : Type} (p : DrainCode α) (Q : α → DrainState → Prop)
    (s : DrainState) : Prop := wp d.machine d.spec () p Q s

/-- A fact the world around the agent leaves alone. -/
def Steady (P : DrainState → Prop) : Prop := ∀ s s', P s → DrainRely s s' → P s'

/-- What a reconcile keeps while it sets the guard: its sight, and the recorded start. -/
structure Frame (c : Sight) (stamp : Option DrainStamp) (t : Time) (s : DrainState) : Prop where
  sight : s.sight = c
  stamp : s.node.drainStarted = stamp
  now : t ≤ s.now

theorem Frame.isListed {c : Sight} {stamp : Option DrainStamp} (h : Frame c stamp t s)
    (hl : c.isListed) : s.sight.isListed := by
  rw [h.sight]
  exact hl

section Rules

variable {d : DrainGuard} {α β : Type} {P : DrainState → Prop} {Q : β → DrainState → Prop}
  {s : DrainState}

theorem gwp_seq (p : DrainCode α) (k : α → DrainCode β)
    (h : GuardWp d p (fun a s' => GuardWp d (k a) Q s') s) : GuardWp d (p >>= k) Q s :=
  wp_bind DrainRely.refl p k h

theorem gwp_done (hP : Steady P) {a : β} (h : P s) (hQ : ∀ s', P s' → Q a s') :
    GuardWp d (pure a) Q s :=
  fun s' hR _ => hQ s' (hP s s' h hR)

/-- **An operation.** -/
theorem gwp_ask (hP : Steady P) {k : o.Ans → DrainCode β} (h : P s)
    (hpre : ∀ s', P s' → d.DrainPre s' o)
    (hk : ∀ s' f r s'', P s' → d.exec f o s' = (r, s'') → GuardWp d (k r) Q s'') :
    GuardWp d (drainAsk o >>= k) Q s := fun s' hR _ =>
  ⟨hpre s' (hP s s' h hR), fun f r s'' hx _ =>
    hk s' f r s'' (hP s s' h hR) (Option.some.inj hx)⟩

/-- Reading the clock. -/
theorem gwp_now (hP : Steady P) {k : Time → DrainCode β} (h : P s)
    (hk : ∀ s', P s' → GuardWp d (k s'.now) Q s') : GuardWp d (drainAsk .now >>= k) Q s := by
  refine gwp_ask hP h (fun _ _ => trivial) fun s' f r s'' hp hx => ?_
  cases hx
  exact hk s' hp

variable {c : Sight} {stamp : Option DrainStamp} {t : Time}

theorem steady_frame : Steady (Frame c stamp t) := fun _ _ h hR =>
  ⟨hR.sight.trans h.sight, hR.stamp.trans h.stamp, Int.le_trans h.now hR.now⟩

theorem steady_guardIs (want : Bool) : Steady (GuardIs · want) := by
  intro s s' h hR
  cases want with
  | true =>
    obtain ⟨⟨p, hp, hd⟩, hb⟩ := h
    exact ⟨hR.pod p hp hd, hR.budget.trans hb⟩
  | false => exact ⟨hR.absent h.1, hR.budget.trans h.2⟩

theorem steady_memoryOk (m : DrainMemory) : Steady (MemoryOk m) :=
  fun s s' h hR hk => steady_guardIs m.guard s s' (h hk) hR

theorem Steady.and {P' : DrainState → Prop} (h : Steady P) (h' : Steady P') :
    Steady fun s => P s ∧ P' s := fun s s' hp hR => ⟨h s s' hp.1 hR, h' s s' hp.2 hR⟩

/-! ## 4. Setting the guard -/

/-- A part of `setGuard` that ended: without an error the guard is as wanted. -/
def SetTo (c : Sight) (stamp : Option DrainStamp) (t : Time) (want : Bool) (err : Option String)
    (s : DrainState) : Prop := Frame c stamp t s ∧ (err = none → GuardIs s want)

theorem gwp_failed {err : String} (h : Frame c stamp t s) :
    GuardWp d (pure (some err)) (SetTo c stamp t want) s :=
  gwp_done steady_frame h fun _ hf => ⟨hf, nofun⟩

theorem gwp_placed (h : Frame c stamp t s) (hg : GuardIs s want) :
    GuardWp d (pure none) (SetTo c stamp t want) s :=
  gwp_done (steady_frame.and (steady_guardIs want)) ⟨h, hg⟩ fun _ hf => ⟨hf.1, fun _ => hf.2⟩

theorem frame_write {r : Except ApiError Unit} {res : Except ApiError Unit × DrainState}
    (h : f.write res s = (r, s')) (hf : Frame c stamp t s) (hres : Frame c stamp t res.2) :
    Frame c stamp t s' := by
  rcases ApiFault.write_state h with rfl | rfl
  · exact hres
  · exact hf

theorem steady_absent : Steady fun s => s.pod = none := fun _ _ h hR => hR.absent h

theorem steady_budget (b : Bool) : Steady (·.budget = b) :=
  fun _ _ h hR => hR.budget.trans h

theorem gwp_removeBudget (hl : c.isListed) (h : Frame c stamp t s) (hp : s.pod = none) :
    GuardWp d removeBudget (SetTo c stamp t false) s := by
  refine gwp_ask (steady_frame.and steady_absent) ⟨h, hp⟩
    (fun s' hs => ⟨hs.1.isListed hl, hs.2⟩) fun s' f r s'' hs hx => ?_
  obtain ⟨hf, hp⟩ := hs
  have hx' : f.write (s'.deleteBudget (DrainState.guardName d.hostNode)) s' = (r, s'') := hx
  have hf' : Frame c stamp t s'' := frame_write hx' hf { hf with }
  have gone : (∀ e, r = .error e → e.isNotFound = true) → GuardIs s'' false := by
    intro hr
    obtain ⟨_, rfl⟩ := ApiFault.write_answered hx' fun e he => ApiError.kind_of_isNotFound (hr e he)
    exact ⟨hp, rfl⟩
  cases r with
  | ok a => exact gwp_placed hf' (gone fun e he => nomatch he)
  | error e =>
    dsimp only
    split
    next hnf => exact gwp_placed hf' (gone fun e' he => by cases he; exact hnf)
    · exact gwp_failed hf'

/-- A delete of the pod leaves the rest, and one that says the pod is gone has removed it. -/
theorem exec_deletePod {r : Except ApiError Unit} (h : d.exec f .deletePod s = (r, s'))
    (hf : Frame c stamp t s) :
    Frame c stamp t s' ∧ ((∀ e, r = .error e → e.isNotFound = true) → s'.pod = none) := by
  have hx : f.write (s.deletePod (DrainState.guardName d.hostNode)) s = (r, s') := h
  refine ⟨frame_write hx hf { hf with }, fun hr => ?_⟩
  obtain ⟨_, rfl⟩ := ApiFault.write_answered hx fun e he => ApiError.kind_of_isNotFound (hr e he)
  rfl

section Listed

variable (hl : c.isListed) (h : Frame c stamp t s)
include hl h

theorem gwp_removeGuard : GuardWp d removeGuard (SetTo c stamp t false) s := by
  refine gwp_ask steady_frame h (fun s' hf => hf.isListed hl) fun s' f r s'' hf hx => ?_
  obtain ⟨hf', gone⟩ := exec_deletePod hx hf
  cases r with
  | ok a => exact gwp_removeBudget hl hf' (gone fun e he => nomatch he)
  | error e =>
    dsimp only
    split
    next hnf => exact gwp_removeBudget hl hf' (gone fun e' he => by cases he; exact hnf)
    · exact gwp_failed hf'

theorem gwp_keepPod (hb : s.budget = true) : GuardWp d keepPod (SetTo c stamp t true) s := by
  refine gwp_ask (steady_frame.and (steady_budget true)) ⟨h, hb⟩ (fun _ _ => trivial)
    fun s' f r s'' hs hx => ?_
  cases hx
  obtain ⟨hf, hb⟩ := hs
  cases hr : f.read (s'.getPod (DrainState.guardName d.hostNode)) with
  | error e => exact gwp_failed hf
  | ok existing =>
    have hp : s'.pod = some existing := by
      have hget := ApiFault.read_ok hr
      unfold DrainState.getPod at hget
      split at hget
      next p hp =>
        cases hget
        exact hp
      · cases hget
    dsimp only
    cases he : existing.ended with
    | false =>
      -- a live pod is not being deleted, so it stays
      have hd : existing.deleting = false := by
        unfold GuardPod.ended at he
        simp only [Bool.or_eq_false_iff] at he
        exact he.2
      exact gwp_placed hf ⟨⟨existing, hp, hd⟩, hb⟩
    | true =>
      refine gwp_ask steady_frame hf (fun s1 hf => hf.isListed hl) fun s1 f1 r1 s2 hf hx => ?_
      obtain ⟨hf', _⟩ := exec_deletePod hx hf
      cases r1 with
      | ok a => exact gwp_failed hf'
      | error e =>
        dsimp only
        split
        · exact gwp_failed hf'
        · exact gwp_failed hf'

theorem gwp_placePod (hb : s.budget = true) : GuardWp d placePod (SetTo c stamp t true) s := by
  refine gwp_ask (steady_frame.and (steady_budget true)) ⟨h, hb⟩
    (fun s' hs => ⟨hs.1.isListed hl, hs.2⟩) fun s' f r s'' hs hx => ?_
  obtain ⟨hf, hb⟩ := hs
  have hx' : f.write (s'.createPod (DrainState.guardName d.hostNode)) s' = (r, s'') := hx
  have frame : (s'.createPod (DrainState.guardName d.hostNode)).2 = s' ∨
      (s'.createPod (DrainState.guardName d.hostNode)).2 =
        { s' with pod := some ⟨.pending, false⟩ } := by
    unfold DrainState.createPod
    split
    · exact .inl rfl
    · exact .inr rfl
  have hf' : Frame c stamp t s'' ∧ s''.budget = true := by
    rcases ApiFault.write_state hx' with hs | rfl
    · rcases frame with he | he
      · rw [hs, he]
        exact ⟨hf, hb⟩
      · rw [hs, he]
        exact ⟨{ hf with }, hb⟩
    · exact ⟨hf, hb⟩
  cases r with
  | ok a =>
    obtain ⟨hr, hs⟩ := ApiFault.write_answered hx' nofun
    refine gwp_placed hf'.1 ⟨⟨⟨.pending, false⟩, ?_, rfl⟩, hf'.2⟩
    rw [hs]
    unfold DrainState.createPod at hr ⊢
    split at hr
    · cases hr
    · rfl
  | error e =>
    dsimp only
    split
    · exact gwp_keepPod hl hf'.1 hf'.2
    · exact gwp_failed hf'.1

theorem gwp_placeGuard : GuardWp d placeGuard (SetTo c stamp t true) s := by
  refine gwp_ask steady_frame h (fun s' hf => hf.isListed hl) fun s' f r s'' hf hx => ?_
  have hx' : f.write (s'.createBudget (DrainState.guardName d.hostNode)) s' = (r, s'') := hx
  have hf' : Frame c stamp t s'' := frame_write hx' hf { hf with }
  have there : (∀ e, r = .error e → e.isAlreadyExists = true) → s''.budget = true := by
    intro hr
    obtain ⟨_, rfl⟩ :=
      ApiFault.write_answered hx' fun e he => ApiError.kind_of_isAlreadyExists (hr e he)
    rfl
  cases r with
  | ok a => exact gwp_placePod hl hf' (there fun e he => nomatch he)
  | error e =>
    dsimp only
    split
    next hae => exact gwp_placePod hl hf' (there fun e' he => by cases he; exact hae)
    · exact gwp_failed hf'

/-- A reconcile's result: what it remembers is so, and without an error the guard is as wanted. -/
def Settled (c : Sight) (stamp : Option DrainStamp) (t : Time) (want : Bool)
    (r : DrainMemory × Option String) (s : DrainState) : Prop :=
  Frame c stamp t s ∧ MemoryOk r.1 s ∧ (r.2 = none → GuardIs s want)

/-- **`setGuard` sets the guard**, or fails and knows nothing. -/
theorem gwp_setGuard (hm : MemoryOk m s) :
    GuardWp d (setGuard m want) (Settled c stamp t want) s := by
  unfold setGuard
  split
  next hk =>
    refine gwp_done (steady_frame.and (steady_memoryOk m)) ⟨h, hm⟩ fun s' hs => ?_
    refine ⟨hs.1, hs.2, fun _ => ?_⟩
    have hg := hs.2 hk.1
    rw [hk.2] at hg
    exact hg
  · have change : GuardWp d (changeGuard want) (SetTo c stamp t want) s := by
      cases want with
      | true => exact gwp_placeGuard hl h
      | false => exact gwp_removeGuard hl h
    refine gwp_seq _ _ (wp_mono ?_ _ change)
    · intro err s' _ hs
      obtain ⟨hf, hg⟩ := hs
      cases err with
      | some err =>
        exact gwp_done steady_frame hf fun _ hf => ⟨hf, nofun, nofun⟩
      | none =>
        refine gwp_now (steady_frame.and (steady_guardIs want)) ⟨hf, hg rfl⟩ fun s1 hs => ?_
        exact gwp_done (steady_frame.and (steady_guardIs want)) hs
          fun s2 hs => ⟨hs.1, fun _ => hs.2, fun _ => hs.2⟩

end Listed

/-! ## 5. The reconcile -/

/-- A reconcile that ended. -/
def Reconciled (d : DrainGuard) (r : DrainMemory × Option String) (s : DrainState) : Prop :=
  MemoryOk r.1 s ∧ (r.2 = none → d.Exact s)

theorem steady_reconciled (r : DrainMemory × Option String) : Steady (Reconciled d r) := by
  intro s s' h hR
  refine ⟨steady_memoryOk _ s s' h.1 hR, fun hr => ?_⟩
  obtain ⟨host, bound, at_, hh, hb, h1, h2, hy, hn⟩ := h.2 hr
  have hst : drainStarted s'.node = drainStarted s.node := congrArg stampTime hR.stamp
  refine ⟨host, bound, at_, by rw [hR.sight, hh], by rw [hR.sight, hb], ?_, Int.le_trans h2 hR.now,
    fun hold => ?_, fun hold => ?_⟩
  · rw [hR.sight]
    exact h1
  · rw [hst] at hold
    exact steady_guardIs true s s' (hy hold) hR
  · rw [hst] at hold
    exact steady_guardIs false s s' (hn hold) hR

/-- A guard set to what the sight asks for is exact. -/
theorem Settled.reconciled {r : DrainMemory × Option String} (h : Settled c stamp t want r s)
    (hh : c.host = some host) (hb : c.listed = some (.ok bound)) (ht : c.begun ≤ t)
    (hw : want = true ↔ d.Holds host bound (stampTime stamp) t) : Reconciled d r s := by
  obtain ⟨hf, hm, hg⟩ := h
  refine ⟨hm, fun hr => ⟨host, bound, t, by rw [hf.sight, hh], by rw [hf.sight, hb], ?_, hf.now,
    fun hold => ?_, fun hold => ?_⟩⟩
  · rw [hf.sight]
    exact ht
  · have hst : drainStarted s.node = stampTime stamp := congrArg stampTime hf.stamp
    rw [hst] at hold
    rw [hw.mpr hold] at hg
    exact hg hr
  · have hst : drainStarted s.node = stampTime stamp := congrArg stampTime hf.stamp
    rw [hst] at hold
    have hfalse : want = false := Bool.eq_false_iff.mpr fun he => hold (hw.mp he)
    rw [hfalse] at hg
    exact hg hr

theorem gwp_unsettled {err : String} (hm : MemoryOk m s) :
    GuardWp d (pure (m, some err)) (Reconciled d) s :=
  gwp_done (steady_memoryOk m) hm fun _ hm => ⟨hm, nofun⟩

section Holding

variable (hh : c.host = some host) (hb : c.listed = some (.ok bound))
include hh hb

/-- A schedulable Node: the guard is there exactly if claims are Bound. -/
theorem gwp_setBound (hu : host.unschedulable = false) (h : Frame c stamp c.begun s)
    (hm : MemoryOk m s) : GuardWp d (setGuard m (bound ≠ [])) (Reconciled d) s := by
  refine wp_mono (fun r s' _ hs => ?_) _ (gwp_setGuard ⟨bound, hb⟩ h hm)
  refine hs.reconciled hh hb (Int.le_refl _) ?_
  simp [DrainGuard.Holds, hu]

/-- **An unschedulable Node**: the guard is there while claims are Bound and the timeout has not
    passed when the clock is read. -/
theorem gwp_awaitDrain {started : Time} (hu : host.unschedulable = true)
    (hst : stampTime stamp = some started) (h : Frame c stamp c.begun s) (hm : MemoryOk m s) :
    GuardWp d (d.awaitDrain m bound started) (Reconciled d) s := by
  unfold DrainGuard.awaitDrain
  refine gwp_now (steady_frame.and (steady_memoryOk m)) ⟨h, hm⟩ fun s1 hs => ?_
  obtain ⟨hf, hm⟩ := hs
  have hnow : Frame c stamp s1.now s1 := ⟨hf.sight, hf.stamp, Int.le_refl _⟩
  have holds : d.Holds host bound (stampTime stamp) s1.now ↔
      bound ≠ [] ∧ ¬ d.drainTimeout ≤ s1.now - started := by
    unfold DrainGuard.Holds
    rw [hu, hst]
    constructor
    · intro hold
      obtain ⟨hne, hlt | ⟨t', ht, hlt⟩⟩ := hold
      · cases hlt
      · cases ht
        exact ⟨hne, Int.not_le.mpr hlt⟩
    · intro hold
      exact ⟨hold.1, .inr ⟨started, rfl, Int.not_le.mp hold.2⟩⟩
  split
  next hlate =>
    refine wp_mono (fun r s' _ hs => ?_) _ (gwp_setGuard ⟨bound, hb⟩ hnow hm)
    refine hs.reconciled hh hb hf.now ?_
    rw [holds]
    exact ⟨fun hf => (by cases hf), fun hold => absurd hlate.2 hold.2⟩
  next hopen =>
    refine wp_mono (fun r s' _ hs => ?_) _ (gwp_setGuard ⟨bound, hb⟩ hnow hm)
    refine hs.reconciled hh hb hf.now ?_
    rw [holds, decide_eq_true_iff]
    exact ⟨fun hne => ⟨hne, fun hle => hopen ⟨hne, hle⟩⟩, fun hold => hold.1⟩

theorem gwp_hold (h : Frame c host.drainStarted c.begun s) (hm : MemoryOk m s) :
    GuardWp d (d.hold m host bound) (Reconciled d) s := by
  unfold DrainGuard.hold
  have hl : c.isListed := ⟨bound, hb⟩
  split
  next hu =>
    cases hst : drainStarted host with
    | none => exact gwp_setBound hh hb hu h hm
    | some started =>
      -- the drain is over: its start is taken off the Node first
      refine gwp_ask (steady_frame.and (steady_memoryOk m)) ⟨h, hm⟩
        (fun s' hs => ⟨hs.1.isListed hl, host, by rw [hs.1.sight, hh], hu⟩)
        fun s1 f r s2 hs hx => ?_
      obtain ⟨hf, hm⟩ := hs
      have hx' : f.write (s1.annotate none) s1 = (r, s2) := hx
      cases r with
      | error e =>
        refine gwp_unsettled ?_
        rcases ApiFault.write_state hx' with rfl | rfl
        · exact hm
        · exact hm
      | ok a =>
        obtain ⟨_, rfl⟩ := ApiFault.write_answered hx' nofun
        exact gwp_setBound hh hb hu ⟨hf.sight, rfl, hf.now⟩ hm
  next hu =>
    have hu : host.unschedulable = true := by
      rw [← Bool.not_eq_false]
      exact hu
    cases hst : drainStarted host with
    | some started => exact gwp_awaitDrain hh hb hu hst h hm
    | none =>
      refine gwp_now (steady_frame.and (steady_memoryOk m)) ⟨h, hm⟩ fun s0 hs => ?_
      refine gwp_ask (steady_frame.and (steady_memoryOk m)) hs (fun s' hs => ⟨hs.1.isListed hl, ?_⟩)
        fun s1 f r s2 hs hx => ?_
      · have hnode : drainStarted s'.node = drainStarted host := congrArg stampTime hs.1.stamp
        exact hnode.trans hst
      · obtain ⟨hf, hm⟩ := hs
        have hx' : f.write (s1.annotate (some s0.now)) s1 = (r, s2) := hx
        cases r with
        | error e =>
          refine gwp_unsettled ?_
          rcases ApiFault.write_state hx' with rfl | rfl
          · exact hm
          · exact hm
        | ok a =>
          obtain ⟨_, rfl⟩ := ApiFault.write_answered hx' nofun
          exact gwp_awaitDrain hh hb hu rfl ⟨hf.sight, rfl, hf.now⟩ hm

end Holding

theorem gwp_forget (h : Frame c stamp t s) (hm : MemoryOk m s) :
    GuardWp d (d.forget m) (fun m s => Frame c stamp t s ∧ MemoryOk m s) s := by
  unfold DrainGuard.forget
  split
  · exact gwp_done (steady_frame.and (steady_memoryOk m)) ⟨h, hm⟩ fun _ hs => hs
  · refine gwp_now (steady_frame.and (steady_memoryOk m)) ⟨h, hm⟩ fun s1 hs => ?_
    split
    · exact gwp_done steady_frame hs.1 fun _ hf => ⟨hf, nofun⟩
    · exact gwp_done (steady_frame.and (steady_memoryOk m)) hs fun _ hs => hs

/-- **`reconcile` leaves the guard exact, or an error.** -/
theorem gwp_reconcile (hh : c.host = some host) (hn : c.listed = none)
    (h : Frame c host.drainStarted c.begun s) (hm : MemoryOk m s) :
    GuardWp d (d.reconcile m host) (Reconciled d) s := by
  refine gwp_seq _ _ (wp_mono (fun m' s1 _ hs => ?_) _ (gwp_forget h hm))
  refine gwp_ask (steady_frame.and (steady_memoryOk m')) hs
    (fun s' hs => (congrArg Sight.listed hs.1.sight).trans hn) fun s2 f r s3 hs hx => ?_
  obtain ⟨hf, hm⟩ := hs
  cases f with
  | none =>
    cases hx
    refine gwp_hold hh rfl (c := { c with listed := some (.ok (s2.boundOnHost d.hostNode)) }) ?_ hm
    refine ⟨?_, hf.stamp, hf.now⟩
    simp only [DrainState.setListed, hf.sight]
  | failed applied text =>
    cases hx
    exact gwp_unsettled hm

/-- What the agent remembers between two reconciles is so. -/
theorem steady_idle : Steady fun s => MemoryOk s.memory s ∧ s.sight = {} := by
  intro s s' h hR
  refine ⟨?_, hR.sight.trans h.2⟩
  rw [hR.memory]
  exact steady_memoryOk _ s s' h.1 hR

theorem gwp_report (h : MemoryOk s.memory s ∧ s.sight = {}) :
    GuardWp d d.report (fun _ s => MemoryOk s.memory s ∧ s.sight = {}) s := by
  refine gwp_ask steady_idle h (fun _ hs => hs.2) fun s1 f r s2 hs hx => ?_
  cases f with
  | failed applied text =>
    cases hx
    exact gwp_done steady_idle hs fun _ hs => hs
  | none =>
    cases hx
    have hf : Frame { host := some s1.node, begun := s1.now } s1.node.drainStarted s1.now
        { s1 with sight := { host := some s1.node, begun := s1.now } } := ⟨rfl, rfl, Int.le_refl _⟩
    have remembered : Steady fun s => MemoryOk s.memory s := by
      intro s s' h hR
      have hm : MemoryOk s.memory s' := steady_memoryOk _ s s' h hR
      rw [← hR.memory] at hm
      exact hm
    refine gwp_ask (steady_frame.and remembered) ⟨hf, hs.1⟩ (fun _ _ => trivial)
      fun s3 f r s4 hs hx => ?_
    cases hx
    refine gwp_seq _ _ (wp_mono (fun r s5 _ hs => ?_) _ (gwp_reconcile rfl rfl hs.1 hs.2))
    intro s6 hR _
    have hr := steady_reconciled r s5 s6 hs hR
    refine ⟨⟨hr.1, hr.2⟩, fun f u s7 hx _ => ?_⟩
    cases hx
    exact gwp_done steady_idle ⟨hr.1, rfl⟩ fun _ hs => hs

end Rules

/-! ## 6. The machine -/

/-- **The guard's program meets its duties.** -/
theorem drain_sound (d : DrainGuard) : Sound d.machine d.spec where
  refl _ := DrainRely.refl
  trans _ _ _ _ := DrainRely.trans
  idle _ s s' h hR _ := steady_idle s s' h hR
  env_inv _ _ _ := drainEnv_guarded
  env_rely _ _ _ _ _ := drainEnv_rely
  exec_inv _ _ _ _ _ _ hI hpre hx := drainExec_guarded hI hpre (Option.some.inj hx)
  exec_rely _ _ _ _ _ _ _ hne := absurd (Subsingleton.elim _ _) hne
  crash_inv _ hI := hI
  crash_idle _ _ _ := ⟨fun hk => (by cases hk), rfl⟩
  spawn _ _ _ h := gwp_report h

theorem DrainGuard.Reachable.safe {d : DrainGuard} {w : DrainWorld} (h : d.Reachable w) :
    Safe d.machine d.spec w := by
  obtain ⟨w0, h0, hrun⟩ := h
  refine (drain_sound d).reach ⟨h0.budget, fun t p hp => ?_, fun t _ => ⟨?_, h0.sight⟩⟩ hrun
  · simp [h0.running] at hp
  · intro hk
    simp [h0.memory] at hk

/-! ## 7. What the guard guarantees -/

section Guard

variable {d : DrainGuard} {w w' : DrainWorld}

/-- What is owed before the agent's next operation is met. -/
theorem DrainGuard.Reachable.pre (h : d.Reachable w) {k : o.Ans → DrainCode Unit}
    (hrun : w.running () = some (.op o k)) : d.DrainPre w.shared o :=
  (h.safe.safe () _ hrun w.shared (DrainRely.refl _) h.safe.inv).1

/-- Every read of the Node finds it unschedulable. -/
def ReadsUnschedulable (w : DrainWorld) (a : Act Unit ApiFault DrainAct) : Prop :=
  ∀ f k, a = .exec () f → w.running () = some (.op .getNode k) →
    w.shared.node.unschedulable = true

/-- The start `t` is recorded, and the reconcile in progress, if any, will not remove it. -/
def Recorded (t : Time) (s : DrainState) : Prop :=
  drainStarted s.node = some t ∧ ∀ h, s.sight.host = some h → h.unschedulable = true

/-- One operation of the agent keeps the recorded start. -/
theorem recorded_exec {k : o.Ans → DrainCode Unit} (hok : ReadsUnschedulable w (.exec () f))
    (hrun : w.running () = some (.op o k)) (hpre : d.DrainPre w.shared o)
    (h : Recorded t w.shared) (hx : d.exec f o w.shared = (r, s')) : Recorded t s' := by
  cases o with
  | getNode =>
    cases f with
    | none =>
      cases hx
      refine ⟨h.1, fun host hh => ?_⟩
      cases hh
      exact hok .none k rfl hrun
    | failed applied text =>
      cases hx
      exact h
  | boundOnHost =>
    cases f with
    | none | failed =>
      cases hx
      exact h
  | now | getPod | memory =>
    cases hx
    exact h
  | finish m err =>
    cases hx
    exact ⟨h.1, nofun⟩
  | annotate started =>
    cases started with
    | none =>
      -- the start is removed only after the Node was read schedulable
      obtain ⟨_, host, hh, hu⟩ := hpre
      simp [h.2 host hh] at hu
    | some started =>
      rw [DrainGuard.DrainPre, h.1] at hpre
      cases hpre.2
  | createBudget | deleteBudget | deletePod =>
    rcases ApiFault.write_state hx with rfl | rfl
    · exact h
    · exact h
  | createPod =>
    rcases ApiFault.write_state hx with rfl | rfl
    · unfold DrainState.createPod
      split
      · exact h
      · exact h
    · exact h

theorem recorded_env (h : Recorded t s) (hx : drainEnv a s = some s') : Recorded t s' := by
  have hR := drainEnv_rely hx
  have hst : drainStarted s'.node = drainStarted s.node := congrArg stampTime hR.stamp
  exact ⟨hst.trans h.1, fun host hh => h.2 host (by rw [← hR.sight]; exact hh)⟩

/-- **A recorded start stays** while every read finds the Node unschedulable. -/
theorem recorded_run (hw : d.Reachable w) (h : Recorded t w.shared)
    (hrun : d.machine.Run ReadsUnschedulable w w') : Recorded t w'.shared := by
  refine (drain_sound d).invariant hw.safe h ?_ ?_ ?_ hrun
  · intro w1 a s' _ _ hc hx _
    exact recorded_env hc hx
  · intro w1 u f o k r s' hok hr _ hpre hc hx _
    exact recorded_exec hok hr hpre hc (Option.some.inj hx)
  · intro s _ hc
    exact ⟨hc.1, nofun⟩

/-- Before the claims are listed, and after they could not be, the agent writes nothing, and a
    listing that failed is not tried again. -/
theorem unlisted_exec (hpre : d.DrainPre s o) (hn : ¬ s.sight.isListed)
    (hx : d.exec f o s = (r, s')) :
    (s'.node = s.node ∧ s'.pod = s.pod ∧ s'.budget = s.budget) ∧
      ∀ e, s.sight.listed = some (.error e) → s'.sight = s.sight ∨ s'.sight = {} := by
  cases o with
  | getNode =>
    cases f with
    | none =>
      cases hx
      refine ⟨⟨rfl, rfl, rfl⟩, fun e he => ?_⟩
      simp [show s.sight = {} from hpre] at he
    | failed applied text =>
      cases hx
      exact ⟨⟨rfl, rfl, rfl⟩, fun _ _ => .inl rfl⟩
  | boundOnHost =>
    have hnone : s.sight.listed = none := hpre
    refine ⟨?_, fun e he => ?_⟩
    · cases f with
      | none | failed =>
        cases hx
        exact ⟨rfl, rfl, rfl⟩
    · simp [hnone] at he
  | now | getPod | memory =>
    cases hx
    exact ⟨⟨rfl, rfl, rfl⟩, fun _ _ => .inl rfl⟩
  | finish m err =>
    cases hx
    exact ⟨⟨rfl, rfl, rfl⟩, fun _ _ => .inr rfl⟩
  | annotate started =>
    cases started with
    | none | some => exact absurd hpre.1 hn
  | createPod | deleteBudget => exact absurd hpre.1 hn
  | createBudget | deletePod => exact absurd hpre hn

/-- **The drain guard is exactly as strong as required.** The pod is never without its budget. A
    reconcile that returns no error leaves both objects if its sight of Node and claims asks for
    them at a moment between its start and its end, and neither otherwise. A recorded start of a
    drain stays while every read finds the Node unschedulable. A reconcile that could not list the
    claims changes no object. -/
theorem drain_guard_exact (d : DrainGuard) :
    (∀ w, d.Reachable w → w.shared.pod.isSome = true → w.shared.budget = true) ∧
    (∀ w m k, d.Reachable w → w.running () = some (.op (.finish m none) k) →
      ∃ host bound at_, w.shared.sight.host = some host ∧
        w.shared.sight.listed = some (.ok bound) ∧
        w.shared.sight.begun ≤ at_ ∧ at_ ≤ w.shared.now ∧
        (d.Holds host bound (drainStarted w.shared.node) at_ →
          w.shared.pod.isSome = true ∧ w.shared.budget = true) ∧
        (¬ d.Holds host bound (drainStarted w.shared.node) at_ →
          w.shared.pod = none ∧ w.shared.budget = false)) ∧
    (∀ w w' t, d.Reachable w → drainStarted w.shared.node = some t →
      (∀ h, w.shared.sight.host = some h → h.unschedulable = true) →
      d.machine.Run ReadsUnschedulable w w' → drainStarted w'.shared.node = some t) ∧
    (∀ w w' f, d.Reachable w → ¬ w.shared.sight.isListed →
      d.machine.step w (.exec () f) = some w' →
      (w'.shared.node = w.shared.node ∧ w'.shared.pod = w.shared.pod ∧
        w'.shared.budget = w.shared.budget) ∧
      ∀ e, w.shared.sight.listed = some (.error e) →
        w'.shared.sight = w.shared.sight ∨ w'.shared.sight = {}) := by
  refine ⟨fun w hr => hr.safe.inv, fun w m k hr hrun => ?_, fun w w' t hr ht hu hrun => ?_,
    fun w w' f hr hn hs => ?_⟩
  · obtain ⟨host, bound, at_, hh, hb, h1, h2, hy, hno⟩ := (hr.pre hrun).2 rfl
    refine ⟨host, bound, at_, hh, hb, h1, h2, fun hold => ?_, hno⟩
    obtain ⟨⟨p, hp, _⟩, hbudget⟩ := hy hold
    exact ⟨by rw [hp]; rfl, hbudget⟩
  · exact (recorded_run hr ⟨ht, hu⟩ hrun).1
  · rcases step_exec hs with ⟨o, k, r, s, hrun, hx, rfl⟩ | ⟨_, rfl⟩
    · exact unlisted_exec (hr.pre hrun) hn (Option.some.inj hx)
    · exact ⟨⟨rfl, rfl, rfl⟩, fun _ _ => .inl rfl⟩

end Guard

/-- A guard with a timeout of ten minutes. -/
def tenMinutes : DrainGuard := ⟨"host-1", 600 * second, 600 * second⟩

/-- An agent that has just started on a Host with one Bound claim. -/
def oneBound (unschedulable : Bool) : DrainWorld where
  shared :=
    { node := ⟨unschedulable, none⟩
      claims := [⟨"team-a", "runner", "holder", .bound, "vm-1", "host-1", 100 * second⟩]
      pod := none
      budget := false
      now := 0
      memory := {}
      sight := {} }
  running := fun _ => none

theorem exists_drained (unschedulable : Bool) (acts : List (Act Unit ApiFault DrainAct))
    (P : DrainWorld → Prop) [DecidablePred P]
    (h : (tenMinutes.machine.replay (fun _ _ => True) (oneBound unschedulable) acts).any
      (fun w => decide (P w)) = true) : ∃ w, tenMinutes.Reachable w ∧ P w := by
  obtain ⟨w, hrun, hp⟩ := exists_run _ acts P h
  exact ⟨w, ⟨_, ⟨fun h => (by cases h), rfl, rfl, rfl⟩, hrun⟩, hp⟩

/-- The reconcile is about to return no error, after it listed a Bound claim. -/
def returnsOk (w : DrainWorld) : Bool :=
  match w.running (), w.shared.sight.listed with
  | some (.op (.finish _ none) _), some (.ok (_ :: _)) => true
  | _, _ => false

theorem returnsOk_spec {w : DrainWorld} (h : returnsOk w = true) :
    (∃ m k, w.running () = some (.op (.finish m none) k)) ∧
      ∃ c cs, w.shared.sight.listed = some (.ok (c :: cs)) := by
  unfold returnsOk at h
  split at h
  next m k c cs hrun hl => exact ⟨⟨m, k, hrun⟩, c, cs, hl⟩
  · cases h

/-- The guard of a Host with a Bound claim is placed; the start of a drain that was recorded at 0
    stays over a restart of the agent. -/
theorem drain_guard_exact_placed :
    (∃ w, tenMinutes.Reachable w ∧ returnsOk w = true ∧ w.shared.pod.isSome = true ∧
      w.shared.budget = true) ∧
    ∃ w w', tenMinutes.Reachable w ∧ tenMinutes.machine.Run ReadsUnschedulable w w' ∧
      drainStarted w.shared.node = some 0 ∧ w'.running () = none ∧
      drainStarted w'.shared.node = some 0 := by
  constructor
  · obtain ⟨w, hr, hret, hh⟩ := exists_drained false
      (.spawn () :: List.replicate 6 (.exec () .none))
      (fun w => returnsOk w = true ∧ w.shared.sight.host = some ⟨false, none⟩) (by decide +kernel)
    obtain ⟨⟨m, k, hrun⟩, c, cs, hl⟩ := returnsOk_spec hret
    obtain ⟨host, bound, at_, hh', hl', _, _, hyes, _⟩ :=
      (drain_guard_exact tenMinutes).2.1 w m k hr hrun
    rw [hh] at hh'
    rw [hl] at hl'
    cases hh'
    cases hl'
    exact ⟨w, hr, hret, hyes ⟨by simp, .inl rfl⟩⟩
  · obtain ⟨w, hr, ht, hh⟩ := exists_drained true (.spawn () :: List.replicate 5 (.exec () .none))
      (fun w => drainStarted w.shared.node = some 0 ∧ w.shared.sight.host = some ⟨true, none⟩)
      (by decide +kernel)
    have hu : ∀ h, w.shared.sight.host = some h → h.unschedulable = true := by
      intro h he
      rw [hh] at he
      cases he
      rfl
    have hrun : tenMinutes.machine.Run ReadsUnschedulable w
        ⟨tenMinutes.machine.crash w.shared, fun _ => none⟩ :=
      .step w _ .crash .start nofun rfl
    exact ⟨w, _, hr, hrun, ht, rfl, (drain_guard_exact tenMinutes).2.2.1 w _ 0 hr ht hu hrun⟩

end BatteryOperator.ExecAgent
