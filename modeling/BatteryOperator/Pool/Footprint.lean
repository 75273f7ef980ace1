/-
  Subject:   What a reconcile of a Pool may do to the finalizers, in any surroundings and however
             its operations are answered.

  The patch of a Pool's metadata carries no lock: it is computed from the copy that was read, and
  the whole list in it replaces the stored one.

  * `poolDeletion_within`, ..., `chain_inside` -- **the chain changes no finalizer but the Pool
    finalizer** of the copy that was read;
  * `surrounded_sound` -- so every patch asked for is of such a change;
  * `exec_finalizers` -- **what a write leaves of the stored finalizers**, where the list that a
    patch meets is the one of its copy, or has the same finalizers of others (`patchMeets`).
-/
import BatteryOperator.Pool.Runs

namespace BatteryOperator.Pools

open Lib Finalizing Prog

variable {key : ObjectKey} {s s' : State}

/-! ## 1. The steps -/

/-- The operations of the steps: none reads the Pool, patches it, or ends the reconcile. -/
def Inside : PoolOp → Prop
  | .get => False
  | .patchStatus _ _ => False
  | .patch _ _ => False
  | .returned _ => False
  | _ => True

/-- ... and none touches the sightings. -/
def Silent : PoolOp → Prop
  | .forget => False
  | .observe _ _ _ => False
  | o => Inside o

theorem Silent.inside (o : PoolOp) (h : Silent o) : Inside o := by
  cases o with
  | forget | observe => trivial
  | _ => exact h

theorem Quiet.inside (o : PoolOp) (h : Quiet o) : Inside o := by
  cases o with
  | get | patchStatus | patch | returned => exact h
  | _ => trivial

/-- The Pool finalizer and the scope of a Pool. -/
def holding : Finalizing PoolScope Pool where
  own := poolFinalizer
  original := PoolScope.original
  finalizers sc := sc.object.finalizers

theorem Plain.silent (o : PoolOp) (h : Plain o) : Silent o := by
  cases o with
  | now | getPool => trivial
  | _ => exact h.elim

/-- A step that changes the status alone. -/
theorem status_within {sc : PoolScope} {p : PoolM (Outcome PoolScope)} {P Q : PoolOp → Prop}
    (hPQ : ∀ o, P o → Q o) (h : p.Within P (StatusStep sc)) :
    p.Within Q (holding.Footprint sc) := by
  refine within_weaken hPQ (within_mono (fun o ho => ?_) h)
  refine Steady.footprint ⟨ho.status.original, ?_⟩
  show o.scope.object.finalizers = _
  rw [ho.status.object]
  rfl

/-- The deletion is under way: the chain stops. -/
def Stops (sc : PoolScope) (o : Outcome PoolScope) : Prop :=
  holding.Footprint sc o ∧ o.result.stop = true

theorem released_stops (sc : PoolScope) : Stops sc (stopped (releasePool sc)) :=
  ⟨⟨rfl, .inr ⟨rfl, .inr (.inr rfl)⟩⟩, rfl⟩

theorem steady_stops {sc sc' : PoolScope} {err : Option String} (h : holding.Steady sc sc') :
    Stops sc ⟨sc', { stop := true }, err⟩ := ⟨h.footprint, rfl⟩

theorem drain_within (sc : PoolScope) (held : Battery.Pool) :
    (drain key sc held).Within Silent (Stops sc) := by
  unfold drain
  split
  · exact within_call trivial fun _ => steady_stops ⟨rfl, rfl⟩
  · refine within_call trivial fun r => ?_
    cases r with
    | error | ok => exact within_call trivial fun _ => steady_stops ⟨rfl, rfl⟩

theorem poolDeletion_stops {sc : PoolScope} (hdel : sc.object.deleting = true) :
    (poolDeletion key sc).Within Silent (Stops sc) := by
  unfold poolDeletion
  rw [hdel]
  simp only [Bool.not_true, Bool.false_eq_true, if_false]
  split
  · exact steady_stops (.refl sc)
  · refine within_call trivial fun r => ?_
    cases r with
    | ok => exact released_stops sc
    | error e =>
      dsimp only
      split
      · exact released_stops sc
      · split
        · exact steady_stops (.refl sc)
        · refine within_call trivial fun r => ?_
          cases r with
          | ok held => exact drain_within sc held
          | error e =>
            dsimp only
            split
            · exact released_stops sc
            · exact steady_stops (.refl sc)

theorem poolDeletion_idle {sc : PoolScope} (hlive : sc.object.deleting = false) :
    poolDeletion key sc = pure (goOn sc) := by
  simp [poolDeletion, hlive]

theorem poolDeletion_within (sc : PoolScope) :
    (poolDeletion key sc).Within Silent (holding.Footprint sc) := by
  cases hdel : sc.object.deleting with
  | true => exact within_mono (fun _ h => h.1) (poolDeletion_stops hdel)
  | false =>
    rw [poolDeletion_idle hdel]
    exact within_steady (.refl sc)

theorem ensureFinalizer_within (sc : PoolScope) :
    (ensureFinalizer sc).Within Silent (holding.Footprint sc) := by
  unfold ensureFinalizer
  split
  · exact within_steady (.refl sc)
  · exact ⟨rfl, .inr ⟨rfl, .inr (.inl rfl)⟩⟩

theorem poolPlacement_within (sc : PoolScope) :
    (poolPlacement key sc).Within Silent (holding.Footprint sc) := by
  refine within_call trivial fun r => ?_
  match r with
  | .ok hosts => exact within_steady ⟨rfl, rfl⟩
  | .error .notSynced => exact within_steady (.refl sc)
  | .error (.failed text) => exact within_steady (.refl sc)

theorem poolDeclaration_within (sc : PoolScope) :
    (poolDeclaration key sc).Within Silent (holding.Footprint sc) := by
  refine within_call trivial fun r => ?_
  cases r with
  | ok held => exact within_steady ⟨rfl, rfl⟩
  | error e =>
    dsimp only
    split
    · exact within_steady (.refl sc)
    · split
      · exact within_steady (.refl sc)
      · refine within_call trivial fun r => ?_
        cases r with
        | ok held => exact within_steady ⟨rfl, rfl⟩
        | error e =>
          dsimp only
          split
          · exact within_steady (.refl sc)
          · split
            · exact within_steady ⟨rfl, rfl⟩
            · exact within_steady (.refl sc)

theorem sendUpdate_within {sc sc' : PoolScope} (h : holding.Steady sc sc') (held : Battery.Pool) :
    (sendUpdate key sc' held).Within Silent (holding.Footprint sc) := by
  unfold sendUpdate
  split
  · exact within_steady h
  · refine within_call trivial fun r => ?_
    cases r with
    | ok held => exact within_steady ⟨h.original, h.finalizers⟩
    | error e =>
      dsimp only
      split
      · exact within_steady ⟨h.original, h.finalizers⟩
      · exact within_steady h

theorem poolUpdate_within (sc : PoolScope) :
    (poolUpdate key sc).Within Silent (holding.Footprint sc) := by
  unfold poolUpdate
  split
  · exact within_steady (.refl sc)
  · split
    · exact sendUpdate_within (.refl sc) _
    · refine within_call trivial fun r => ?_
      cases r with
      | ok held =>
        have h : holding.Steady sc { sc with held := some held } := ⟨rfl, rfl⟩
        exact sendUpdate_within h held
      | error e =>
        dsimp only
        split
        · exact within_steady (.refl sc)
        · exact within_steady (.refl sc)

/-- The steps before `poolStall`. -/
def stepsBefore (key : ObjectKey) : List Step :=
  [poolDeletion key, ensureFinalizer, poolPlacement key, poolDeclaration key, poolUpdate key,
    poolRejection]

/-- The steps after `poolStall`. -/
def stepsAfter (key : ObjectKey) : List Step := [poolCounts key, poolExhaustion, poolReadiness]

theorem poolChain_steps (key : ObjectKey) :
    (poolChain key).steps = stepsBefore key ++ poolStall :: stepsAfter key := rfl

theorem before_silent {sub : Step} (hsub : sub ∈ stepsBefore key) (sc : PoolScope) :
    (sub sc).Within Silent (holding.Footprint sc) := by
  simp only [stepsBefore, List.mem_cons, List.not_mem_nil, or_false] at hsub
  rcases hsub with rfl | rfl | rfl | rfl | rfl | rfl
  · exact poolDeletion_within sc
  · exact ensureFinalizer_within sc
  · exact poolPlacement_within sc
  · exact poolDeclaration_within sc
  · exact poolUpdate_within sc
  · exact status_within Plain.silent (poolRejection_within sc)

theorem after_silent {sub : Step} (hsub : sub ∈ stepsAfter key) (sc : PoolScope) :
    (sub sc).Within Silent (holding.Footprint sc) := by
  simp only [stepsAfter, List.mem_cons, List.not_mem_nil, or_false] at hsub
  rcases hsub with rfl | rfl | rfl
  · exact status_within Plain.silent (poolCounts_within sc)
  · exact status_within Plain.silent (poolExhaustion_within sc)
  · exact status_within Plain.silent (poolReadiness_within sc)

/-- **The chain's footprint.** -/
theorem chain_inside (key : ObjectKey) (sc : PoolScope) :
    ((poolChain key).run sc).Within Inside fun o => holding.Changed sc o.scope := by
  refine within_chain _ (fun sub hsub sc => ?_) (fun sub hsub _ => absurd hsub List.not_mem_nil) sc
  rw [poolChain_steps, List.mem_append, List.mem_cons] at hsub
  rcases hsub with hsub | rfl | hsub
  · exact within_weaken Silent.inside (before_silent hsub sc)
  · exact status_within Quiet.inside (poolStall_within sc)
  · exact within_weaken Silent.inside (after_silent hsub sc)

/-! ## 2. The reconcile, in any surroundings -/

/-- A patch of the metadata changes no finalizer but the Pool finalizer. -/
def OwnPatch : PoolOp → Prop
  | .patch base object => OwnChange poolFinalizer base.finalizers object.finalizers
  | _ => True

theorem Inside.ownPatch (o : PoolOp) (h : Inside o) : OwnPatch o := by
  cases o with
  | patch => exact h.elim
  | _ => trivial

/-- The end of a reconcile asks for its two patches. -/
theorem patch_within {P : PoolOp → Prop} {sc : PoolScope}
    (hs : P (.patchStatus sc.original sc.object)) (hp : P (.patch sc.original sc.object)) :
    (patch key sc).Within P fun _ => True := by
  refine within_bind (V := fun _ => True) ?_ fun _ _ => within_bind
    (V := fun _ => True) ?_ fun _ _ => trivial
  · unfold patchStatus
    split
    · trivial
    · exact within_call hs fun _ => trivial
  · unfold patchRest
    split
    · trivial
    · exact within_call hp fun _ => trivial

/-- **Every patch of a reconcile is of such a change.** -/
theorem reconcile_within (key : ObjectKey) :
    (reconcile key).Within OwnPatch fun _ => True := by
  refine within_call trivial fun r => ?_
  cases r with
  | error e =>
    dsimp only
    split
    · exact ⟨trivial, fun _ => trivial⟩
    · trivial
  | ok pool =>
    refine within_bind (within_weaken Inside.ownPatch (chain_inside key _)) fun o ho => ?_
    refine within_bind (patch_within trivial ?_) fun _ _ => trivial
    show OwnChange _ o.scope.original.finalizers _
    rw [show o.scope.original = pool from ho.original]
    exact ho.finalizers

/-- The machine of `Pool/System.lean` in the surroundings `env`. -/
def surrounded (key : ObjectKey) {A : Type} (env : A → State → Option State) :
    Machine Unit Choice A PoolOp PoolOp.Ans State where
  exec := (machine key).exec
  env := env
  prog := (machine key).prog
  crash := (machine key).crash

/-- The specification: every patch is of such a change. -/
def patchSpec : Spec Unit PoolOp State where
  Inv _ := True
  Pre _ o _ := OwnPatch o
  Rely _ _ _ := True
  Idle _ _ := True

theorem surrounded_sound (key : ObjectKey) {A : Type} (env : A → State → Option State) :
    Machine.Sound (surrounded key env) patchSpec where
  refl _ _ := trivial
  trans _ _ _ _ _ _ := trivial
  idle _ _ _ _ _ _ := trivial
  env_inv _ _ _ _ _ := trivial
  env_rely _ _ _ _ _ _ := trivial
  exec_inv _ _ _ _ _ _ _ _ _ := trivial
  exec_rely _ _ _ _ _ _ _ _ _ _ _ := trivial
  crash_inv _ _ := trivial
  crash_idle _ _ _ := trivial
  spawn _ s _ _ := by
    refine Machine.wp_mono (fun _ _ _ _ => trivial) _ (Machine.wp_within (J := fun _ => True)
      (V := fun _ => True) (fun _ _ _ _ _ => trivial) (fun _ _ ho _ _ => ho)
      (fun _ _ _ _ _ _ _ _ _ => trivial) _ ?_ trivial)
    exact within_bind (reconcile_within key) fun _ _ => ⟨trivial, fun _ => trivial⟩

/-! ## 3. The finalizers after a write -/

/-- The finalizers of the stored Pool. -/
def finalizersOf (s : State) : Option (List String) := s.object.map fun p => p.finalizers

/-- A patch of the metadata that takes effect meets stored finalizers that are so to those of the
    copy it was computed from. -/
def patchMeets (R : List String → List String → Prop) [DecidableRel R] (w : PoolWorld)
    (f : Choice) : Bool :=
  match w.running (), w.shared.object with
  | some (.op (.patch base _) _), some p => !f.applied || R base.finalizers p.finalizers
  | _, _ => true

variable {R : List String → List String → Prop}

theorem Finalized.spared {p : Pool} {fs : List String} (h : Finalized s p fs s')
    (hR : ∀ fs, R fs fs) (hp : s.object = some p) (hfs : R p.finalizers fs) :
    Spared R (finalizersOf s) (finalizersOf s') := by
  have hbefore : finalizersOf s = some p.finalizers := by
    unfold finalizersOf
    rw [hp]
    rfl
  cases h with
  | kept => exact Spared.refl hR _
  | set =>
    rw [hbefore]
    exact hfs
  | gone hnil =>
    rw [hbefore]
    show R _ []
    rw [← hnil]
    exact hfs

/-- **A write leaves the finalizers**, where a patch that takes effect does. -/
theorem exec_finalizers {f : Choice} {o : PoolOp} {r : o.Ans} (hR : ∀ fs, R fs fs)
    (hpatch : ∀ base object p, o = .patch base object → f.applied = true → s.object = some p →
      R p.finalizers (mergeField base.finalizers object.finalizers p.finalizers))
    (h : exec f s o = some (r, s')) : Spared R (finalizersOf s) (finalizersOf s') := by
  cases ho : Patches o with
  | false =>
    unfold finalizersOf State.object
    rw [exec_stored ho h]
    exact Spared.refl hR _
  | true =>
    cases exec_patched ho h with
    | kept => exact Spared.refl hR _
    | status p hp =>
      unfold finalizersOf
      rw [hp]
      exact hR _
    | finalizers p hp ha hfin => exact hfin.spared hR hp (hpatch _ _ p rfl ha hp)

end BatteryOperator.Pools
