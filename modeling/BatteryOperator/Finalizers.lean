/-
  Subject:   The finalizers of others, under the writes of the Claim Controller and of the Pool
             Controller.

  A claim's metadata patch carries the resourceVersion it was computed from, so it is applied to the
  list it was computed from or not at all. A Pool's carries none: whatever another controller did to
  the list since the copy was read is undone.

  * `pool_patch_drops_finalizer` -- another controller's finalizer is dropped;
  * `finalizers_left_alone` -- **no write changes another's finalizer**: never a claim's, and not a
    Pool's where the finalizers of others that are stored are those that were read.
-/
import BatteryOperator.Claim.Reader
import BatteryOperator.Pool.Footprint

namespace BatteryOperator

open Lib

/-- A Pool is created without finalizers and a reconcile reads it; another controller adds a
    finalizer of its own. -/
def foreignAdded : List (Act Unit Pools.Choice Pools.EnvAct) :=
  [.env (.create "u1" Pools.someSpec []), .env (.sync 0), .spawn (), .exec () .ok,
    .env (.setFinalizers ["example.com/backup"])]

/-- **The reconcile's patch takes the other controller's finalizer away.** -/
theorem pool_patch_drops_finalizer :
    ∃ w w', Pools.Reachable Pools.someKey w ∧
      (Pools.machine Pools.someKey).step w (.exec () .ok) = some w' ∧
      Pools.finalizersOf w.shared = some ["example.com/backup"] ∧
      Pools.finalizersOf w'.shared = some [Pools.poolFinalizer] ∧
      ¬ Spared (SameOthers Pools.poolFinalizer) (Pools.finalizersOf w.shared)
        (Pools.finalizersOf w'.shared) := by
  obtain ⟨w, hr, hp⟩ := Pools.exists_pool foreignAdded
    (fun w => (((Pools.machine Pools.someKey).step w (.exec () .ok)).any fun w' =>
      Pools.finalizersOf w.shared = some ["example.com/backup"] &&
        Pools.finalizersOf w'.shared = some [Pools.poolFinalizer]) = true) (by decide +kernel)
  obtain ⟨w', hstep, hfs⟩ := (Option.any_eq_true ..).mp hp
  rw [Bool.and_eq_true, decide_eq_true_eq, decide_eq_true_eq] at hfs
  refine ⟨w, w', hr, hstep, hfs.1, hfs.2, ?_⟩
  rw [hfs.1, hfs.2]
  decide

/-- **The finalizers of others are left alone.** In any surroundings: a step of a reconcile leaves
    under every name of a claim the finalizers that were stored, but for the release finalizer; and
    so does a step of a Pool's reconcile but for the Pool finalizer, unless it is a patch of the
    metadata that takes effect on a list with other finalizers of others than the copy that was
    read. On the list of that copy it adds or takes away the Pool finalizer. -/
theorem finalizers_left_alone (r : MicroVMClaimReconciler) (key : ObjectKey) :
    (∀ (A : Type) (env : A → Shared → Option Shared),
      (∀ a s s', Writes.Numbered s → env a s = some s' → Writes.Numbers s s') →
      ∀ w0 w w' : Writes.ReaderWorld, Writes.Numbered w0.shared.shared →
        (∀ t, w0.running t = none) →
        (Writes.reader r env).Run (fun _ _ => True) w0 w →
        ∀ t f, (Writes.reader r env).step w (.exec t f) = some w' →
        ∀ k, Spared (OwnChange releaseFinalizer) (Writes.finalizersOf w.shared.shared k)
          (Writes.finalizersOf w'.shared.shared k)) ∧
    (∀ (A : Type) (env : A → Pools.State → Option Pools.State) (w0 w w' : Pools.PoolWorld),
      (∀ t, w0.running t = none) → (Pools.surrounded key env).Run (fun _ _ => True) w0 w →
        ∀ f, (Pools.surrounded key env).step w (.exec () f) = some w' →
        (Pools.patchMeets (SameOthers Pools.poolFinalizer) w f = true →
          Spared (SameOthers Pools.poolFinalizer) (Pools.finalizersOf w.shared)
            (Pools.finalizersOf w'.shared)) ∧
        (Pools.patchMeets Eq w f = true →
          Spared (OwnChange Pools.poolFinalizer) (Pools.finalizersOf w.shared)
            (Pools.finalizersOf w'.shared))) := by
  constructor
  · intro A env henv w0 w w' h0 hidle hrun t f hstep k
    have hS := Writes.reader_sound (r := r) henv
    have hsafe : Machine.Safe (Writes.reader r env) Writes.spec w := by
      refine hS.reach ⟨h0, fun t p hp => ?_, fun _ _ => trivial⟩ hrun
      simp [hidle t] at hp
    rcases hS.step_cases hsafe hstep with ⟨e, he, _⟩ | ⟨t', f', o, g, a, _, _, hpre, hx⟩ | he |
      ⟨he, _⟩
    · cases he
    · exact Writes.exec_finalizers hsafe.inv hpre (Writes.reader_exec hx).1 k
    · rw [he]
      exact Spared.refl (fun _ => .inl rfl) _
    · cases he
  · intro A env w0 w w' hidle hrun f hstep
    have hS := Pools.surrounded_sound key env
    have hsafe : Machine.Safe (Pools.surrounded key env) Pools.patchSpec w := by
      refine hS.reach ⟨trivial, fun t p hp => ?_, fun _ _ => trivial⟩ hrun
      simp [hidle t] at hp
    rcases hS.step_cases hsafe hstep with ⟨e, he, _⟩ | ⟨t', f', o, g, a, he, hr, hpre, hx⟩ | he |
      ⟨he, _⟩
    · cases he
    · cases he
      refine ⟨fun hmeets => Pools.exec_finalizers (fun _ => rfl) ?_ hx,
        fun hmeets => Pools.exec_finalizers (fun _ => .inl rfl) ?_ hx⟩
      · rintro base object p rfl happ hp
        have hbase : SameOthers Pools.poolFinalizer base.finalizers p.finalizers := by
          simpa [Pools.patchMeets, hr, hp, happ] using hmeets
        rcases mergeField_cases base.finalizers object.finalizers p.finalizers with
          ⟨_, hm⟩ | ⟨_, hm⟩
        · rw [hm]
          rfl
        · rw [hm]
          exact hpre.sameOthers.trans hbase.symm
      · rintro base object p rfl happ hp
        have hbase : base.finalizers = p.finalizers := by
          simpa [Pools.patchMeets, hr, hp, happ] using hmeets
        rw [← hbase, mergeField_base]
        exact hpre
    · rw [he]
      exact ⟨fun _ => Spared.refl (R := SameOthers _) (fun _ => rfl) _,
        fun _ => Spared.refl (fun _ => .inl rfl) _⟩
    · cases he

/-- A claim with another controller's finalizer is created, and a reconcile reads it. -/
def claimRead : List (Act Thread Choice EnvAct) :=
  [.env (.create ⟨"team", "job"⟩ "u1" ["example.com/backup"] ⟨"runners", none, ""⟩),
    .env (.sync ⟨"team", "job"⟩ 0), .spawn (.claim ⟨"team", "job"⟩),
    .exec (.claim ⟨"team", "job"⟩) .ok]

/-- A Pool with another controller's finalizer is created, and a reconcile reads it. -/
def poolRead : List (Act Unit Pools.Choice Pools.EnvAct) :=
  [.env (.create "u1" Pools.someSpec ["example.com/backup"]), .env (.sync 0), .spawn (),
    .exec () .ok]

/-- The Pool Controller in its own surroundings. -/
abbrev surroundings : Machine Unit Pools.Choice Pools.EnvAct Pools.PoolOp Pools.PoolOp.Ans
    Pools.State := Pools.surrounded Pools.someKey fun a s => Pools.env s a

theorem exists_surrounded (acts : List (Act Unit Pools.Choice Pools.EnvAct))
    (P : Pools.PoolWorld → Prop) [DecidablePred P]
    (h : (surroundings.replay (fun _ _ => True) Pools.start acts).any (fun w => decide (P w)) =
      true) : ∃ w, surroundings.Run (fun _ _ => True) Pools.start w ∧ P w :=
  Machine.exists_run _ acts P h

/-- Each controller adds its finalizer to a list with another's, which stays. -/
theorem finalizers_left_alone_added :
    (∃ w w' : Writes.ReaderWorld,
      Writes.finalizersOf w.shared.shared ⟨"team", "job"⟩ = some ["example.com/backup"] ∧
      Writes.finalizersOf w'.shared.shared ⟨"team", "job"⟩ =
        some ["example.com/backup", releaseFinalizer] ∧
      Spared (OwnChange releaseFinalizer) (Writes.finalizersOf w.shared.shared ⟨"team", "job"⟩)
        (Writes.finalizersOf w'.shared.shared ⟨"team", "job"⟩)) ∧
    ∃ w w' : Pools.PoolWorld,
      Pools.finalizersOf w.shared = some ["example.com/backup"] ∧
      Pools.finalizersOf w'.shared = some ["example.com/backup", Pools.poolFinalizer] ∧
      Spared (SameOthers Pools.poolFinalizer) (Pools.finalizersOf w.shared)
        (Pools.finalizersOf w'.shared) := by
  constructor
  · obtain ⟨w, hrun, hp⟩ := Writes.exists_read claimRead
      (fun w => (((Writes.reader {} env).step w (.exec (.claim ⟨"team", "job"⟩) .ok)).any fun w' =>
        Writes.finalizersOf w.shared.shared ⟨"team", "job"⟩ = some ["example.com/backup"] &&
          Writes.finalizersOf w'.shared.shared ⟨"team", "job"⟩ =
            some ["example.com/backup", releaseFinalizer]) = true) (by decide +kernel)
    obtain ⟨w', hstep, hfs⟩ := (Option.any_eq_true ..).mp hp
    rw [Bool.and_eq_true, decide_eq_true_eq, decide_eq_true_eq] at hfs
    exact ⟨w, w', hfs.1, hfs.2, (finalizers_left_alone {} ⟨"", ""⟩).1 EnvAct env
      (fun _ _ _ hN hx => Writes.env_numbers hN hx) Writes.quiet w w' Writes.quiet_numbered
      (fun _ => rfl) hrun _ _ hstep _⟩
  · obtain ⟨w, hrun, hmeets, hp⟩ := exists_surrounded poolRead
      (fun w => Pools.patchMeets (SameOthers Pools.poolFinalizer) w .ok = true ∧
        ((surroundings.step w (.exec () .ok)).any fun w' =>
          Pools.finalizersOf w.shared = some ["example.com/backup"] &&
            Pools.finalizersOf w'.shared = some ["example.com/backup", Pools.poolFinalizer]) =
          true) (by decide +kernel)
    obtain ⟨w', hstep, hfs⟩ := (Option.any_eq_true ..).mp hp
    rw [Bool.and_eq_true, decide_eq_true_eq, decide_eq_true_eq] at hfs
    exact ⟨w, w', hfs.1, hfs.2, ((finalizers_left_alone {} Pools.someKey).2 Pools.EnvAct
      (fun a s => Pools.env s a) Pools.start w w' (fun _ => rfl) hrun .ok hstep).1 hmeets⟩

end BatteryOperator
