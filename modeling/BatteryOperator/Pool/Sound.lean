/-
  Subject:   The reconcile of a Pool meets its duties, and what follows for every run.

  * `Quiet`, `StatusOnly` -- the steps that only write the status;
  * `Begun`, `Placed`, `Answered`, `Done` -- what a reconcile knows on its way down the chain: the
    object it works on is the one it read, what its status says it declared is declared, and
    battery holds the spec with the Hosts it resolved;
  * `wp_poolDeletion`, `wp_ensureFinalizer`, `wp_poolPlacement`, `wp_poolDeclaration`,
    `wp_poolUpdate`, `status_step` -- the steps of the chain;
  * `pool_sound` -- **the reconcile meets its duties**, whatever fails.
-/
import BatteryOperator.Pool.Duties
import BatteryOperator.ReconcileLogic

namespace BatteryOperator.Pools

open Lib Machine Prog

variable {key : ObjectKey} {s s' : State}

/-! ## 1. What others leave alone -/

variable {p : Pool} {b : Battery.Pool} {hosts : List String} {P : State → Prop} {α : Type}
  {o : PoolOp} {f : Choice} {sc sc' : PoolScope} {out : Result} {e : String}
  {Q : PoolScope → State → Prop} {r : Except BatteryError Battery.Pool}

/-- What the reconcile works on stays. -/
structure Moved (s s' : State) : Prop where
  sight : s'.sight = s.sight
  ended : s'.ended = s.ended
  resolved : s'.resolved = s.resolved

theorem Rely.moved (hR : Rely s s') : Moved s s' := ⟨hR.sight, hR.ended, hR.resolved⟩

theorem Works.move (h : ∃ w, Works s w p) (hm : Moved s s') : ∃ w, Works s' w p := by
  obtain ⟨w, hw⟩ := h
  exact ⟨w, hm.sight.trans hw.sight, hw.pool, hm.ended.trans hw.running⟩

theorem Declaring.move (h : Declaring s p) (hm : Moved s s') : Declaring s' p :=
  { h with works := Works.move h.works hm }

theorem Deleting.move (h : Deleting s p) (hm : Moved s s') : Deleting s' p :=
  { h with works := Works.move h.works hm }

theorem Told.rely (h : Told key s p) (hR : Rely s s') : Told key s' p := by
  refine ⟨?_, ?_⟩
  · rw [hR.accepted]
    exact h.accepted
  · rw [hR.declared]
    exact h.declared

theorem Rely.battery_some (hR : Rely s s') (hb : s'.battery = some b) :
    ∃ b', s.battery = some b' ∧ b'.spec = b.spec := by
  have hm := hR.battery
  rw [hb, Option.map_some] at hm
  exact Option.map_eq_some_iff.mp hm.symm

theorem Settled.rely (h : Settled key s p hosts) (hR : Rely s s') : Settled key s' p hosts := by
  intro b hb
  obtain ⟨b', hb', hs⟩ := hR.battery_some hb
  rw [← hs]
  exact h b' hb'

theorem Rely.battery_none (hR : Rely s s') (h : s.battery = none) : s'.battery = none := by
  cases hb : s'.battery with
  | none => rfl
  | some b =>
    obtain ⟨b', hb', _⟩ := hR.battery_some hb
    simp [h] at hb'

theorem Rely.trans {a b c : State} (h : Rely a b) (h' : Rely b c) : Rely a c :=
  ⟨h'.sight.trans h.sight, h'.battery.trans h.battery, h'.declared.trans h.declared,
    h'.accepted.trans h.accepted, h'.deleteSent.trans h.deleteSent, h'.resolved.trans h.resolved,
    h'.refused.trans h.refused, h'.ended.trans h.ended⟩

/-- The weakest precondition of a piece of the reconcile. -/
abbrev PoolWp (key : ObjectKey) {α : Type} (p : PoolM α) (Q : α → State → Prop) (s : State) :
    Prop := wp (machine key) (spec key) () p Q s

/-- A fact the environment leaves alone. -/
def Kept (P : State → Prop) : Prop := ∀ a b, Rely a b → P a → P b

theorem Kept.stable (h : Kept P) : Stable (spec key) () P :=
  fun a b hp hR _ => h a b hR hp

theorem Kept.and {P' : State → Prop} (h : Kept P) (h' : Kept P') : Kept fun s => P s ∧ P' s :=
  fun a b hR hp => ⟨h a b hR hp.1, h' a b hR hp.2⟩

theorem battery_kept (spec : Battery.PoolSpec) :
    Kept fun s => s.battery.map Battery.Pool.spec = some spec := fun _ _ hR => hR.battery.trans

theorem rely_refl (a : State) : (spec key).Rely () a a := Rely.refl a

/-- **One operation and what follows it.** -/
theorem pwp_ask (hP : Kept P) {Q : α → State → Prop} {k : o.Ans → PoolM α} (h : P s)
    (hpre : ∀ s1, P s1 → Pre key s1 o)
    (hk : ∀ s1 f r s2, Inv key s1 → P s1 → exec f s1 o = some (r, s2) → PoolWp key (k r) Q s2) :
    PoolWp key (ask o >>= k) Q s :=
  wp_call hP.stable h (fun s1 _ hp => hpre s1 hp)
    fun s1 f r s2 hI hp hx _ => hk s1 f r s2 hI hp hx

/-- **The end of a piece.** -/
theorem pwp_done (hP : Kept P) {Q : α → State → Prop} {a : α} (h : P s)
    (hQ : ∀ s', Inv key s' → P s' → Q a s') : PoolWp key (pure a) Q s :=
  wp_ret hP.stable h hQ

/-- The operations that change nothing a reconcile looks at. -/
def Quiet : PoolOp → Prop
  | .now => True
  | .getPool => True
  | .forget => True
  | .observe _ _ _ => True
  | _ => False

theorem exec_quiet {r : o.Ans} (ho : Quiet o) (h : exec f s o = some (r, s')) : Rely s s' := by
  cases o with
  | now | forget | observe =>
    cases h
    exact ⟨rfl, rfl, rfl, rfl, rfl, rfl, rfl, rfl⟩
  | getPool =>
    rw [(exec_getPool h).1]
    exact Rely.refl s
  | _ => cases ho

theorem pre_quiet (ho : Quiet o) : Pre key s o := by
  cases o with
  | now | forget | observe | getPool => trivial
  | _ => cases ho

/-- The clock, and battery's copy of the Pool. -/
def Plain : PoolOp → Prop
  | .now => True
  | .getPool => True
  | _ => False

theorem Plain.quiet (o : PoolOp) (h : Plain o) : Quiet o := by
  cases o with
  | now | getPool => trivial
  | _ => exact h.elim

/-- **A piece that asks for quiet operations only.** -/
theorem pwp_quiet (hP : Kept P) {V : α → Prop} {p : PoolM α} (hp : p.Within Quiet V) (h : P s) :
    PoolWp key p (fun a s' => V a ∧ P s') s :=
  wp_within hP.stable (fun _ _ ho _ _ => pre_quiet ho)
    (fun _ _ s _ s' ho _ hJ hx => hP s s' (exec_quiet ho hx) hJ) p hp h

/-! ## 2. The steps that write the status -/

/-- Only the status changed, and not its observed generation. -/
structure StatusOnly (sc sc' : PoolScope) : Prop where
  original : sc'.original = sc.original
  object : sc'.object = { sc.object with status := sc'.object.status }
  observed : sc'.object.status.observedGeneration = sc.object.status.observedGeneration

theorem StatusOnly.refl (sc : PoolScope) : StatusOnly sc sc := ⟨rfl, rfl, rfl⟩

theorem StatusOnly.trans {a b c : PoolScope} (h : StatusOnly a b) (h' : StatusOnly b c) :
    StatusOnly a c := by
  refine ⟨h'.original.trans h.original, ?_, h'.observed.trans h.observed⟩
  rw [h'.object, h.object]

/-- A change of the status that leaves the observed generation. -/
theorem statusOnly_mapStatus (sc : PoolScope) {f : PoolStatus → PoolStatus}
    (h : ∀ st, (f st).observedGeneration = st.observedGeneration) :
    StatusOnly sc (sc.mapStatus f) := ⟨rfl, rfl, h _⟩

/-- How such a step ends: it fails, or the chain goes on. -/
structure StatusStep (sc : PoolScope) (o : Outcome PoolScope) : Prop where
  status : StatusOnly sc o.scope
  goesOn : o.err = none → o.result.stop = false

theorem statusStep_goOn (h : StatusOnly sc sc') : StatusStep sc (goOn sc') := ⟨h, fun _ => rfl⟩

theorem statusStep_failed (h : StatusOnly sc sc') (e : String) :
    StatusStep sc (failed sc' e) := ⟨h, nofun⟩

theorem setCondition_within (sc : PoolScope) (type : PoolCondition) (status : ConditionStatus)
    (reason message : String) :
    (sc.setCondition type status reason message).Within Plain (StatusOnly sc) :=
  within_call trivial fun _ => statusOnly_mapStatus sc fun _ => rfl

theorem clearRejection_observed (st : PoolStatus) :
    (clearRejection st).observedGeneration = st.observedGeneration := by
  unfold clearRejection
  split
  · split <;> rfl
  · rfl

theorem poolRejection_within (sc : PoolScope) :
    (poolRejection sc).Within Plain (StatusStep sc) := by
  unfold poolRejection
  cases sc.refusal with
  | none => exact statusStep_goOn (statusOnly_mapStatus sc clearRejection_observed)
  | some e => exact within_bind (setCondition_within sc _ _ _ _) fun _ h => statusStep_goOn h

theorem poolStall_within (sc : PoolScope) : (poolStall sc).Within Quiet (StatusStep sc) := by
  unfold poolStall
  cases stallWatched sc with
  | none => exact within_call trivial fun _ => statusStep_goOn (.refl sc)
  | some watched =>
    refine within_call trivial fun _ => within_call trivial fun _ => ?_
    exact ⟨⟨rfl, rfl, rfl⟩, fun _ => rfl⟩

theorem poolCounts_within (sc : PoolScope) :
    (poolCounts key sc).Within Plain (StatusStep sc) := by
  unfold poolCounts
  split
  · refine within_call trivial fun r => ?_
    cases r with
    | ok held => exact statusStep_goOn ⟨rfl, rfl, rfl⟩
    | error e =>
      show Prog.Within Plain _ (if e.kind = .notFound then _ else _)
      split
      · exact statusStep_goOn ⟨rfl, rfl, rfl⟩
      · exact statusStep_failed (.refl sc) _
  · exact statusStep_goOn ⟨rfl, rfl, rfl⟩

theorem poolExhaustion_within (sc : PoolScope) :
    (poolExhaustion sc).Within Plain (StatusStep sc) := by
  unfold poolExhaustion
  exact within_bind (setCondition_within sc _ _ _ _) fun _ h => statusStep_goOn h

theorem poolReadiness_within (sc : PoolScope) :
    (poolReadiness sc).Within Plain (StatusStep sc) := by
  unfold poolReadiness
  split
  · exact statusStep_goOn (.refl sc)
  · exact within_bind (setCondition_within sc _ _ _ _) fun _ h => statusStep_goOn h

/-! ## 3. What a reconcile knows -/

/-- What the status says of the observed generation is what was read, or what battery accepted. -/
def Observed (key : ObjectKey) (sc : PoolScope) (s : State) : Prop :=
  sc.object.status.observedGeneration = sc.original.status.observedGeneration ∨
    (Declaring s sc.original ∧
      sc.object.status.observedGeneration = sc.original.generation ∧ Told key s sc.original)

/-- The reconcile has begun: nothing is changed, nothing is resolved. -/
structure Begun (sc : PoolScope) (s : State) : Prop where
  works : ∃ w, Works s w sc.original
  object : sc.object = sc.original
  fresh : sc.refusal = none ∧ sc.held = none
  unresolved : s.resolved = none

/-- The Hosts are resolved. -/
structure Placed (sc : PoolScope) (s : State) : Prop where
  declaring : Declaring s sc.original
  object : sc.object = sc.original
  fresh : sc.refusal = none ∧ sc.held = none
  resolved : s.resolved = some sc.hosts
  sorted : sorted sc.hosts = sc.hosts

/-- battery has answered: the scope's picture of battery is right, and where the status shows
    another generation than was read, battery holds the spec. -/
structure Answered (key : ObjectKey) (sc : PoolScope) (s : State) : Prop where
  declaring : Declaring s sc.original
  object : sc.object = { sc.original with status := sc.object.status }
  observed : Observed key sc s
  resolved : s.resolved = some sc.hosts
  sorted : Pools.sorted sc.hosts = sc.hosts
  refused : sc.refusal.isSome = true → s.refused = true
  held : ∀ b, sc.held = some b → s.battery.map Battery.Pool.spec = some b.spec
  settled : sc.refusal = none →
    sc.object.status.observedGeneration = sc.original.status.observedGeneration ∨
      Settled key s sc.original sc.hosts

/-- The spec is declared, unless battery refused it. -/
structure Done (key : ObjectKey) (sc : PoolScope) (s : State) : Prop where
  declaring : Declaring s sc.original
  object : sc.object = { sc.original with status := sc.object.status }
  observed : Observed key sc s
  settled : ∃ hosts, s.resolved = some hosts ∧
    (s.refused = false → Settled key s sc.original hosts)

/-- What the patches may write. -/
structure Writable (key : ObjectKey) (sc : PoolScope) (s : State) : Prop where
  works : ∃ w, Works s w sc.original
  observed : Observed key sc s
  rest : sc.object.rest = sc.original.rest ∨
    (sc.original.deleting = false ∧
      sc.object.finalizers = sc.original.finalizers ++ [poolFinalizer]) ∨
    (Deleting s sc.original ∧ s.battery = none ∧
      sc.object.finalizers = sc.original.finalizers.filter fun f => f ≠ poolFinalizer)

/-- A reconcile without an error and without a refusal has settled the Hosts it resolved. -/
def Fulfilled (key : ObjectKey) (p : Pool) (err : Option String) (s : State) : Prop :=
  err = none → s.refused = false → ∀ hosts, s.resolved = some hosts →
    Declaring s p ∧ Settled key s p hosts

/-- What the chain leaves. -/
structure Final (key : ObjectKey) (x : Left PoolScope) (s : State) : Prop where
  writable : Writable key x.1 s
  fulfilled : Fulfilled key x.1.original (joinErrors x.2.2) s

section Kept

variable {sc : PoolScope}

theorem Observed.kept : Kept (Observed key sc) := by
  intro a b hR h
  rcases h with h | ⟨hd, ho, ht⟩
  · exact .inl h
  · exact .inr ⟨hd.move hR.moved, ho, ht.rely hR⟩

theorem Begun.move (h : Begun sc s) (hm : Moved s s') : Begun sc s' :=
  { h with works := Works.move h.works hm, unresolved := hm.resolved.trans h.unresolved }

theorem Begun.kept : Kept (Begun sc) := fun _ _ hR h => h.move hR.moved

theorem Placed.move (h : Placed sc s) (hm : Moved s s') : Placed sc s' :=
  { h with declaring := h.declaring.move hm, resolved := hm.resolved.trans h.resolved }

theorem Placed.kept : Kept (Placed sc) := fun _ _ hR h => h.move hR.moved

theorem Answered.kept : Kept (Answered key sc) := by
  intro a b hR h
  refine ⟨h.declaring.move hR.moved, h.object, Observed.kept a b hR h.observed,
    hR.resolved.trans h.resolved, h.sorted, fun hr => hR.refused.trans (h.refused hr),
    fun b hb => hR.battery.trans (h.held b hb), fun hn => ?_⟩
  rcases h.settled hn with ho | hs
  · exact .inl ho
  · exact .inr (hs.rely hR)

theorem Done.kept : Kept (Done key sc) := by
  intro a b hR h
  obtain ⟨hosts, hres, hset⟩ := h.settled
  refine ⟨h.declaring.move hR.moved, h.object, Observed.kept a b hR h.observed, hosts,
    hR.resolved.trans hres, fun hn => ?_⟩
  exact (hset (hR.refused.symm.trans hn)).rely hR

theorem Writable.kept : Kept (Writable key sc) := by
  intro a b hR h
  refine ⟨Works.move h.works hR.moved, Observed.kept a b hR h.observed, ?_⟩
  rcases h.rest with hr | ha | ⟨hd, hb, hf⟩
  · exact .inl hr
  · exact .inr (.inl ha)
  · exact .inr (.inr ⟨hd.move hR.moved, hR.battery_none hb, hf⟩)

theorem Fulfilled.kept {p : Pool} {err : Option String} : Kept (Fulfilled key p err) := by
  intro a b hR h he hn hosts hres
  obtain ⟨hd, hs⟩ := h he (hR.refused.symm.trans hn) hosts (hR.resolved.symm.trans hres)
  exact ⟨hd.move hR.moved, hs.rely hR⟩

theorem Final.kept {x : Left PoolScope} : Kept (Final key x) := fun a b hR h =>
  ⟨Writable.kept a b hR h.writable, Fulfilled.kept a b hR h.fulfilled⟩

end Kept

/-! ## 4. How a step ends -/

/-- Where the Hosts are not resolved, nothing is owed of them. -/
theorem final_unresolved {errs : List String} (h : Writable key sc s) (hn : s.resolved = none) :
    Final key (sc, out, errs) s :=
  ⟨h, fun _ _ _ hres => nomatch hn.symm.trans hres⟩

theorem Begun.writable (h : Begun sc s) : Writable key sc s :=
  ⟨h.works, .inl (by rw [h.object]), .inl (by rw [h.object])⟩

theorem Placed.writable (h : Placed sc s) : Writable key sc s :=
  ⟨h.declaring.works, .inl (by rw [h.object]), .inl (by rw [h.object])⟩

theorem rest_of_object {q : Pool} (h : q = { p with status := q.status }) : q.rest = p.rest := by
  rw [h]
  rfl

theorem Answered.writable (h : Answered key sc s) : Writable key sc s :=
  ⟨h.declaring.works, h.observed, .inl (rest_of_object h.object)⟩

theorem Done.writable (h : Done key sc s) : Writable key sc s :=
  ⟨h.declaring.works, h.observed, .inl (rest_of_object h.object)⟩

theorem Done.final {errs : List String} (h : Done key sc s) : Final key (sc, out, errs) s := by
  refine ⟨h.writable, fun _ hn hosts hres => ?_⟩
  obtain ⟨hosts', hres', hset⟩ := h.settled
  cases hres.symm.trans hres'
  exact ⟨h.declaring, hset hn⟩

/-- A step's end, as the chain's rule takes it. -/
abbrev StepEnd (key : ObjectKey) (Q : PoolScope → State → Prop) := Next Q (Final key)

theorem next_goOn (h : Q sc s) : StepEnd key Q (goOn sc) s := Next.of_goOn h rfl rfl

theorem next_stopped (h : ∀ out, Final key (sc, out, []) s) : StepEnd key Q (stopped sc) s where
  goOn _ hs := nomatch hs
  failed _ _ he := nomatch he
  stopped out _ _ := h out

theorem pwp_goOn (hQ : Kept (Q sc)) (h : Q sc s) :
    PoolWp key (pure (goOn sc)) (StepEnd key Q) s := pwp_done hQ h fun _ _ => next_goOn

/-- Where the chain ends with an error, only the patches matter. -/
theorem pwp_failed (h : Writable key sc s) :
    PoolWp key (pure (failed sc e)) (StepEnd key Q) s := by
  refine pwp_done Writable.kept h fun _ _ hw => ⟨nofun, fun _ _ he => ?_, nofun⟩
  cases he
  exact ⟨hw, nofun⟩

theorem pwp_stopped (h : Begun sc s) : PoolWp key (pure (stopped sc)) (StepEnd key Q) s :=
  pwp_done Begun.kept h fun _ _ hb =>
    next_stopped fun _ => final_unresolved hb.writable hb.unresolved

/-- **A step that only writes the status** keeps what is done. -/
theorem status_step {sub : Step} (hsub : ∀ sc, (sub sc).Within Quiet (StatusStep sc))
    (sc : PoolScope) (s : State) (h : Done key sc s) :
    PoolWp key (sub sc) (StepEnd key (Done key)) s := by
  refine wp_mono (fun o s' _ ho => ?_) _ (pwp_quiet Done.kept (hsub sc) h)
  obtain ⟨hst, hd⟩ := ho
  have hdone : Done key o.scope s' := by
    refine ⟨hst.status.original ▸ hd.declaring, ?_, ?_, ?_⟩
    · rw [hst.status.original, hst.status.object, hd.object]
    · unfold Observed
      rw [hst.status.original, hst.status.observed]
      exact hd.observed
    · rw [hst.status.original]
      exact hd.settled
  exact ⟨fun _ _ => hdone, fun e out _ => hdone.final, fun out he hs =>
    nomatch (hst.goesOn he).symm.trans hs⟩

/-! ## 5. Deletion -/

/-- DeletePool has been sent for the object. -/
structure Erasing (sc : PoolScope) (s : State) : Prop where
  begun : Begun sc s
  deleting : Deleting s sc.original
  sent : sc.original.uid ∈ s.deleteSent

theorem Erasing.kept : Kept (Erasing sc) := fun a b hR h =>
  ⟨Begun.kept a b hR h.begun, h.deleting.move hR.moved, hR.deleteSent ▸ h.sent⟩

theorem Writable.status (h : Writable key sc s) (hst : StatusOnly sc sc') : Writable key sc' s := by
  have hrest : sc'.object.rest = sc.object.rest := rest_of_object hst.object
  have hfin : sc'.object.finalizers = sc.object.finalizers := by
    rw [hst.object]
  refine ⟨hst.original ▸ h.works, ?_, ?_⟩
  · unfold Observed
    rw [hst.original, hst.observed]
    exact h.observed
  · rw [hst.original, hrest, hfin]
    exact h.rest

theorem reportRefusal_within (sc : PoolScope) (st : Battery.PoolStatus) :
    (reportRefusal sc st).Within Quiet (StatusOnly sc) := by
  have hcounts : StatusOnly sc (sc.setCounts st) := statusOnly_mapStatus sc fun _ => rfl
  exact within_call trivial fun _ =>
    hcounts.trans (statusOnly_mapStatus (sc.setCounts st) fun _ => rfl)

/-- The refusal is reported, and the chain ends with an error. -/
theorem wp_reportRefusal {st : Battery.PoolStatus} (h : Writable key sc s) :
    PoolWp key (reportRefusal sc st >>= fun sc' => pure (failed sc' e)) (StepEnd key Q) s := by
  refine wp_bind rely_refl _ _ (wp_mono (fun sc' s' _ hst => ?_) _
    (pwp_quiet Writable.kept (reportRefusal_within sc st) h))
  exact pwp_failed (hst.2.status hst.1)

/-- battery holds nothing any more: the finalizer goes. -/
theorem wp_released (h : Erasing sc s) (hb : s.battery = none) :
    PoolWp key (pure (stopped (releasePool sc))) (StepEnd key Q) s := by
  refine pwp_done (Erasing.kept.and fun _ _ hR => hR.battery_none) ⟨h, hb⟩ ?_
  intro s' _ ⟨he, hn⟩
  refine next_stopped fun out => final_unresolved ⟨he.begun.works, .inl ?_, ?_⟩
    he.begun.unresolved
  · show sc.object.status.observedGeneration = _
    rw [he.begun.object]
    rfl
  · refine .inr (.inr ⟨he.deleting, hn, ?_⟩)
    show (sc.object.finalizers.filter _) = _
    rw [he.begun.object]
    rfl

theorem wp_drain {held : Battery.Pool} (h : Erasing sc s)
    (hb : s.battery.map Battery.Pool.spec = some held.spec) :
    PoolWp key (drain key sc held) (StepEnd key Q) s := by
  unfold drain
  split
  · exact wp_reportRefusal h.begun.writable
  · refine pwp_ask (Erasing.kept.and (battery_kept held.spec)) ⟨h, hb⟩ ?_ ?_
    · intro s1 ⟨he, hspec⟩
      obtain ⟨b, hbat, hbs⟩ := Option.map_eq_some_iff.mp hspec
      exact .inr ⟨sc.original, b, he.deleting, he.sent, hbat, by rw [hbs]⟩
    · intro s1 f r s2 hI ⟨he, _⟩ hx
      have hw : Writable key sc s2 := by
        refine Begun.writable ?_
        cases exec_updatePool hx with
        | applied _ hs | refused hs =>
          rw [hs]
          exact he.begun.move ⟨rfl, rfl, rfl⟩
        | unapplied hs =>
          rw [hs]
          exact he.begun
      cases r with
      | ok | error => exact wp_reportRefusal hw

/-- The chain goes on for an object that is alive. -/
def AliveScope (sc : PoolScope) (s : State) : Prop :=
  Begun sc s ∧ sc.original.deleting = false

theorem wp_poolDeletion (sc : PoolScope) (s : State) (h : Begun sc s) :
    PoolWp key (poolDeletion key sc) (StepEnd key AliveScope) s := by
  unfold poolDeletion
  rw [h.object]
  cases hd : sc.original.deleting with
  | false => exact pwp_done Begun.kept h fun _ _ hb => next_goOn ⟨hb, hd⟩
  | true =>
    cases hh : sc.original.held with
    | false => exact pwp_stopped h
    | true =>
      refine pwp_ask Begun.kept h
        (fun s1 hb => ⟨sc.original, hb.works, hd, hh⟩) fun s1 f r s2 hI hb hx => ?_
      obtain ⟨w, hw⟩ := hb.works
      obtain ⟨hs, hok, hnf⟩ := exec_deletePool hw hx
      have he : Erasing sc s2 := by
        have hm : Moved s1 s2 := by rcases hs with rfl | rfl <;> exact ⟨rfl, rfl, rfl⟩
        refine ⟨hb.move hm, ⟨(hb.move hm).works, hd, hh⟩, ?_⟩
        rcases hs with rfl | rfl <;> exact List.mem_cons_self
      cases r with
      | ok u => exact wp_released he (hok rfl)
      | error e =>
        dsimp only
        split
        next hk => exact wp_released he (hnf e rfl hk)
        · split
          · exact pwp_failed he.begun.writable
          · refine pwp_ask Erasing.kept he (fun _ _ => trivial) ?_
            intro s3 f' r' s4 _ he' hx'
            obtain ⟨hs4, hok', hnf'⟩ := exec_getPool hx'
            subst hs4
            cases r' with
            | ok held =>
              refine wp_drain he' ?_
              rw [hok' held rfl]
              rfl
            | error e' =>
              dsimp only
              split
              next hk' => exact wp_released he' (hnf' e' rfl hk')
              · exact pwp_failed he'.begun.writable

/-! ## 6. Finalizer and placement -/

/-- The chain goes on for an object that carries the finalizer. -/
def GuardedScope (sc : PoolScope) (s : State) : Prop := Begun sc s ∧ Declaring s sc.original

theorem wp_ensureFinalizer (sc : PoolScope) (s : State) (h : AliveScope sc s) :
    PoolWp key (ensureFinalizer sc) (StepEnd key GuardedScope) s := by
  obtain ⟨hb, hd⟩ := h
  unfold ensureFinalizer
  rw [hb.object]
  cases hh : sc.original.held with
  | true =>
    exact pwp_done Begun.kept hb fun _ _ hb' => next_goOn ⟨hb', hb'.works, hd, hh⟩
  | false =>
    refine pwp_done Begun.kept hb fun _ _ hb' => next_stopped fun _ => ?_
    exact final_unresolved ⟨hb'.works, .inl rfl, .inr (.inl ⟨hd, rfl⟩)⟩ hb'.unresolved

theorem wp_poolPlacement (sc : PoolScope) (s : State) (h : GuardedScope sc s) :
    PoolWp key (poolPlacement key sc) (StepEnd key Placed) s := by
  have hkept : Kept fun s => Declaring s sc.original := fun _ _ hR h => h.move hR.moved
  refine pwp_ask (Begun.kept.and hkept) h (fun _ _ => trivial) fun s1 f r s2 hI hg hx => ?_
  rcases exec_matching hx with ⟨hosts, rfl, hsorted, rfl⟩ | ⟨⟨e, rfl⟩, rfl⟩
  · obtain ⟨w, hw⟩ := hg.2.works
    have hp : Placed { sc with hosts := hosts } { s1 with resolved := some hosts } :=
      ⟨{ hg.2 with works := ⟨w, { hw with }⟩ }, hg.1.object, hg.1.fresh, rfl, hsorted⟩
    exact pwp_goOn Placed.kept hp
  · cases e with
    | notSynced => exact pwp_stopped hg.1
    | failed text => exact pwp_failed hg.1.writable

/-! ## 7. Declaration and update -/

/-- Sending a spec leaves what the reconcile works on. -/
theorem Sending.moved {spec : Battery.PoolSpec} (h : Sending s spec r s') : Moved s s' := by
  cases h with
  | applied _ hs | unapplied hs | refused hs =>
    rw [hs]
    exact ⟨rfl, rfl, rfl⟩

/-- A spec that is accepted is declared. -/
theorem Sending.ok {spec : Battery.PoolSpec} (h : Sending s spec r s') (hr : r = .ok b) :
    b.spec = spec ∧ s' = s.declare spec b.status := by
  subst hr
  cases h with
  | applied status hs hr =>
    rcases hr with he | ⟨e, he, _⟩
    · cases he
      exact ⟨rfl, hs⟩
    · cases he
  | _ => simp_all

/-- A spec that is refused is noted. -/
theorem Sending.invalid {spec : Battery.PoolSpec} (h : Sending s spec r s') {e : BatteryError}
    (hr : r = .error e) (he : e.kind = .invalid) : s'.refused = true := by
  subst hr
  cases h with
  | applied status hs hr =>
    rcases hr with hr | ⟨e', hr, hne⟩
    · cases hr
    · cases hr
      exact absurd he hne
  | unapplied _ e' hr hne =>
    cases hr
    exact absurd he hne
  | refused hs => rw [hs]

/-- **What battery holds after it accepted the spec.** -/
theorem Declaring.told (h : Declaring s p) (hosts : List String) (status : Battery.PoolStatus) :
    Told key (s.declare (poolSpecToBattery key p.spec hosts) status) p ∧
      Settled key (s.declare (poolSpecToBattery key p.spec hosts) status) p hosts := by
  obtain ⟨w, hw⟩ := h.works
  refine ⟨⟨⟨hosts, ?_⟩, ?_⟩, fun b hb => ?_⟩
  · simp [State.declare, hw.sight, hw.pool]
  · refine ⟨⟨w.epoch, p.generation, p.spec, hosts⟩, ?_, rfl⟩
    simp [State.declare, hw.sight, hw.pool, poolSpecToBattery]
  · cases hb
    rfl

/-- What a spec that was sent leaves of what the status says. -/
theorem Sending.observed (hdec : Declaring s sc.original)
    (h : Sending s (poolSpecToBattery key sc.original.spec hosts) r s') (ho : Observed key sc s) :
    Observed key sc s' := by
  rcases ho with ho | ⟨_, ho, ht⟩
  · exact .inl ho
  · refine .inr ⟨hdec.move h.moved, ho, ?_⟩
    cases h with
    | applied status hs =>
      rw [hs]
      exact (hdec.told hosts status).1
    | unapplied hs =>
      rw [hs]
      exact ht
    | refused hs =>
      rw [hs]
      exact ⟨ht.accepted, ht.declared⟩

/-- **A spec that was accepted** answers for the scope that notes it. -/
theorem Sending.answered (hdec : Declaring s sc.original)
    (hobj : sc.object = { sc.original with status := sc.object.status })
    (hres : s.resolved = some sc.hosts) (hsorted : sorted sc.hosts = sc.hosts)
    (hn : sc.refusal = none)
    (h : Sending s (poolSpecToBattery key sc.original.spec sc.hosts) r s') (hr : r = .ok b) :
    Answered key (sc.accepted b) s' := by
  obtain ⟨hspec, hs⟩ := h.ok hr
  have hm := h.moved
  have htold : Told key s' sc.original ∧ Settled key s' sc.original sc.hosts := by
    rw [hs]
    exact hdec.told sc.hosts b.status
  have hgen : sc.object.generation = sc.original.generation := by rw [hobj]
  have hbat : s'.battery.map Battery.Pool.spec = some b.spec := by
    rw [hs, hspec]
    rfl
  refine ⟨hdec.move hm, ?_, .inr ⟨hdec.move hm, hgen, htold.1⟩, hm.resolved.trans hres, hsorted,
    fun hr => ?_, fun b' hb' => ?_, fun _ => .inr htold.2⟩
  · exact congrArg (fun q : Pool => { q with status := (sc.accepted b).object.status }) hobj
  · have hr : sc.refusal.isSome = true := hr
    simp [hn] at hr
  · cases hb'
    exact hbat

theorem Placed.answered (h : Placed sc s) : Answered key sc s :=
  { h with
    object := by rw [h.object]
    observed := .inl (by rw [h.object])
    refused hr := by
      simp [h.fresh.1] at hr
    held b hb := by
      simp [h.fresh.2] at hb
    settled _ := .inl (by rw [h.object]) }

/-- **Declaration.** -/
theorem wp_poolDeclaration (sc : PoolScope) (s : State) (h : Placed sc s) :
    PoolWp key (poolDeclaration key sc) (StepEnd key (Answered key)) s := by
  refine pwp_ask Placed.kept h (fun _ _ => trivial) fun s1 f r s2 hI hp hx => ?_
  obtain ⟨rfl, hok, _⟩ := exec_getPool hx
  cases r with
  | ok held =>
    have ha : Answered key { sc with held := some held } s2 :=
      { (hp.answered : Answered key sc s2) with
        held := fun b hb => by
          cases hb
          rw [hok held rfl]
          rfl }
    exact pwp_goOn Answered.kept ha
  | error e =>
    have hheld : sc.original.held = true := hp.declaring.held
    simp only [hheld, Bool.not_true, Bool.false_eq_true, if_false]
    split
    · exact pwp_failed hp.writable
    · have hspec : sc.object.spec = sc.original.spec := by rw [hp.object]
      rw [hspec]
      refine pwp_ask Placed.kept hp
        (fun s3 hp3 => ⟨sc.original, sc.hosts, hp3.declaring, hp3.sorted, rfl⟩) ?_
      intro s3 f' r' s4 _ hp3 hx'
      have hsend := exec_createPool hx'
      have hp4 : Placed sc s4 := hp3.move hsend.moved
      cases r' with
      | ok b =>
        have ha : Answered key (sc.accepted b) s4 :=
          hsend.answered hp3.declaring (by rw [hp3.object]) hp3.resolved hp3.sorted
            hp3.fresh.1 rfl
        exact pwp_goOn Answered.kept ha
      | error e' =>
        dsimp only
        split
        · exact pwp_done Placed.kept hp4 fun _ _ hp' => next_goOn hp'.answered
        · split
          next hinv =>
            have ha : Answered key { sc with refusal := some e' } s4 :=
              { (hp4.answered : Answered key sc s4) with
                refused := fun _ => hsend.invalid rfl hinv
                settled := nofun }
            exact pwp_goOn Answered.kept ha
          · exact pwp_failed hp4.writable

/-- **A Pool whose generation was observed is settled**, once its Hosts are the ones battery's Pool
    names: what was declared last is of the generation that was read. -/
theorem Declaring.settled (h : Declaring s p) (hI : Inv key s)
    (hgen : p.generation = p.status.observedGeneration)
    (hhosts : ∀ b, s.battery = some b → sorted b.spec.flintlockHosts = hosts) :
    Settled key s p hosts := by
  intro b hb
  obtain ⟨w, q, hw, hq, hu, _, he⟩ := h.stored hI
  rcases (hI.holds b hb).declared with ⟨q', hq', hsent⟩ | ⟨d, hd, hdec⟩
  · -- its deletion has not begun
    have hqq : q' = q := Option.some.inj (hq'.symm.trans hq)
    rw [hqq, hu] at hsent
    exact absurd hsent (hI.unsent w p hw.sight hw.pool h.alive)
  · have hcov : Covers d p := hdec.sight w hw.sight p hw.pool (he.trans hdec.epoch.symm)
    have hle := hcov.observed
    have hge := hcov.upward.generation
    have hspec : d.spec = p.spec := hcov.upward.spec (by omega)
    have hh : d.hosts = hosts := by
      rw [← hhosts b hb, hdec.spec]
      exact hdec.hosts.symm
    rw [hdec.spec, hspec, hh]

theorem Answered.done (h : Answered key sc s)
    (hset : s.refused = false → Settled key s sc.original sc.hosts) : Done key sc s :=
  ⟨h.declaring, h.object, h.observed, sc.hosts, h.resolved, hset⟩

/-- The update is sent where it is due, and where it is not, battery holds the spec. -/
theorem wp_sendUpdate {held : Battery.Pool} (h : Answered key sc s) (hn : sc.refusal = none)
    (hb : s.battery.map Battery.Pool.spec = some held.spec) :
    PoolWp key (sendUpdate key sc held) (StepEnd key (Done key)) s := by
  unfold sendUpdate
  cases hout : outdated sc held with
  | false =>
    refine pwp_done (Answered.kept.and (battery_kept held.spec)) ⟨h, hb⟩
      fun s' hI ⟨ha, hspec⟩ => next_goOn (ha.done fun _ => ?_)
    rcases ha.settled hn with ho | hs
    · have hout' : sc.object.generation = sc.object.status.observedGeneration ∧
          sorted held.spec.flintlockHosts = sc.hosts := by
        simpa [outdated] using hout
      have hgen : sc.object.generation = sc.original.generation := by rw [ha.object]
      refine ha.declaring.settled hI ?_ fun b hbat => ?_
      · rw [← hgen, hout'.1, ho]
      · rw [hbat, Option.map_some, Option.some.injEq] at hspec
        rw [hspec]
        exact hout'.2
    · exact hs
  | true =>
    have hspec : sc.object.spec = sc.original.spec := by rw [h.object]
    rw [hspec]
    refine pwp_ask Answered.kept h
      (fun s1 ha => .inl ⟨sc.original, sc.hosts, ha.declaring, ha.sorted, rfl⟩) ?_
    intro s1 f r s2 _ ha hx
    have hsend := exec_updatePool hx
    have hm := hsend.moved
    cases r with
    | ok b =>
      have ha' : Answered key (sc.accepted b) s2 :=
        hsend.answered ha.declaring ha.object ha.resolved ha.sorted hn rfl
      obtain ⟨hbs, hs⟩ := hsend.ok rfl
      refine pwp_goOn Done.kept (ha'.done fun _ => ?_)
      rw [hs]
      exact (ha.declaring.told sc.hosts b.status).2
    | error e =>
      have hobs : Observed key sc s2 := Sending.observed ha.declaring hsend ha.observed
      dsimp only
      split
      next hinv =>
        have hd : Done key { sc with refusal := some e } s2 :=
          ⟨ha.declaring.move hm, ha.object, hobs, sc.hosts, hm.resolved.trans ha.resolved,
            fun hf => nomatch (hsend.invalid rfl hinv).symm.trans hf⟩
        exact pwp_goOn Done.kept hd
      · have hw : Writable key sc s2 :=
          ⟨(ha.declaring.move hm).works, hobs, .inl (rest_of_object ha.object)⟩
        exact pwp_failed hw

/-- **Update.** -/
theorem wp_poolUpdate (sc : PoolScope) (s : State) (h : Answered key sc s) :
    PoolWp key (poolUpdate key sc) (StepEnd key (Done key)) s := by
  unfold poolUpdate
  split
  next hr =>
    refine pwp_done Answered.kept h fun _ _ ha => next_goOn (ha.done fun hf => ?_)
    exact nomatch (ha.refused hr).symm.trans hf
  next hr =>
    have hn : sc.refusal = none := by simpa using hr
    split
    next held hh => exact wp_sendUpdate h hn (h.held held hh)
    · refine pwp_ask Answered.kept h (fun _ _ => trivial) fun s1 f r s2 hI ha hx => ?_
      obtain ⟨rfl, hok, hnf⟩ := exec_getPool hx
      cases r with
      | ok held =>
        have hspec : s2.battery.map Battery.Pool.spec = some held.spec := by
          rw [hok held rfl]
          rfl
        have ha' : Answered key { sc with held := some held } s2 :=
          { ha with
            held := fun b hb => by
              cases hb
              exact hspec }
        exact wp_sendUpdate ha' hn hspec
      | error e =>
        dsimp only
        split
        next hk =>
          have hbat : s2.battery = none := hnf e rfl hk
          have hd : Done key sc s2 := ha.done fun _ b hb => nomatch hbat.symm.trans hb
          exact pwp_goOn Done.kept hd
        · exact pwp_failed ha.writable

/-! ## 8. The chain, the patches and the whole reconcile -/

theorem ends_poolChain : Ends (machine key) (spec key) () Begun (Final key)
    (poolChain key).steps := by
  have hfin : ∀ x, Stable (spec key) () (Final key x) := fun x => Final.kept.stable
  have hst : ∀ {sub : Step} {subs : List Step},
      (∀ sc, (sub sc).Within Quiet (StatusStep sc)) →
      Ends (machine key) (spec key) () (Done key) (Final key) subs →
      Ends (machine key) (spec key) () (Done key) (Final key) (sub :: subs) :=
    fun hsub hsubs => ends_cons rely_refl hfin (fun sc s h => status_step hsub sc s h) hsubs
  have hplain : ∀ {sub : Step} {subs : List Step},
      (∀ sc, (sub sc).Within Plain (StatusStep sc)) →
      Ends (machine key) (spec key) () (Done key) (Final key) subs →
      Ends (machine key) (spec key) () (Done key) (Final key) (sub :: subs) :=
    fun hsub => hst fun sc => within_weaken Plain.quiet (hsub sc)
  refine ends_cons rely_refl hfin wp_poolDeletion ?_
  refine ends_cons rely_refl hfin wp_ensureFinalizer ?_
  refine ends_cons rely_refl hfin wp_poolPlacement ?_
  refine ends_cons rely_refl hfin wp_poolDeclaration ?_
  refine ends_cons rely_refl hfin wp_poolUpdate ?_
  refine hplain poolRejection_within (hst poolStall_within (hplain poolCounts_within
    (hplain poolExhaustion_within (hplain poolReadiness_within ?_))))
  exact ends_nil (fun _ => Done.kept.stable) fun _ _ _ _ hd => hd.final

theorem wp_patch (hP : Kept P) (hw : Writable key sc s) (h : P s) :
    PoolWp key (patch key sc) (fun _ => P) s := by
  have hkept : Kept fun s => Writable key sc s ∧ P s := Writable.kept.and hP
  have hstatus : PoolWp key (patchStatus key sc) (fun _ s => Writable key sc s ∧ P s) s := by
    unfold patchStatus
    split
    · exact pwp_done hkept ⟨hw, h⟩ fun _ _ hb => hb
    · refine pwp_ask hkept ⟨hw, h⟩ (fun s1 hb => ⟨hb.1.works, hb.1.observed⟩) ?_
      intro s1 f r s2 _ hb hx
      have hR := (exec_patched (o := .patchStatus _ _) rfl hx).rely
      exact pwp_done hkept (hkept s1 s2 hR hb) fun _ _ hb' => hb'
  have hrest : ∀ s, Writable key sc s ∧ P s →
      PoolWp key (patchRest key sc) (fun _ s => Writable key sc s ∧ P s) s := by
    intro s hb
    unfold patchRest
    split
    · exact pwp_done hkept hb fun _ _ hb' => hb'
    next hne =>
      refine pwp_ask hkept hb (fun s1 hb1 => ?_) fun s1 f r s2 _ hb1 hx => ?_
      · rcases hb1.1.rest with heq | ⟨hd, hf⟩ | ⟨hdel, hn, hf⟩
        · exact absurd heq.symm hne
        · exact .inl ⟨hb1.1.works, hd, hf⟩
        · exact .inr ⟨hdel, hn, hf⟩
      · have hR := (exec_patched (o := .patch _ _) rfl hx).rely
        exact pwp_done hkept (hkept s1 s2 hR hb1) fun _ _ hb' => hb'
  unfold patch
  refine wp_seq rely_refl hstatus fun errs s1 _ hb => ?_
  refine wp_bind rely_refl _ _ (wp_mono (fun errs' s2 _ hb' => ?_) _ (hrest s1 hb))
  exact pwp_done hP hb'.2 fun _ _ hp => hp

/-- What a reconcile ends with. -/
def Returns (key : ObjectKey) (r : Result × Option String) (s : State) : Prop :=
  Pre key s (.returned r.2)

theorem Returns.kept {r : Result × Option String} : Kept (Returns key r) := by
  intro a b hR h he hn hosts hres
  obtain ⟨p, hd, hs⟩ := h he (hR.refused.symm.trans hn) hosts (hR.resolved.symm.trans hres)
  exact ⟨p, hd.move hR.moved, hs.rely hR⟩

theorem wp_reconcilePool {pool : Pool} (h : Begun { object := pool, original := pool } s) :
    PoolWp key (reconcilePool key pool) (Returns key) s := by
  unfold reconcilePool Chain.run
  refine wp_bind rely_refl _ _ ?_
  refine wp_seq rely_refl (ends_poolChain _ s {} h) fun x s1 _ hx => ?_
  refine pwp_done Final.kept hx fun s2 _ hf => ?_
  refine wp_seq rely_refl
    (wp_patch (P := Fulfilled key x.1.original (joinErrors x.2.2)) Fulfilled.kept hf.writable
      hf.fulfilled)
    fun patchErr s3 _ hful => ?_
  refine pwp_done Fulfilled.kept hful fun s4 _ hful' he hn hosts hres => ?_
  have herr :=
    Option.toList_eq_nil_iff.mp (List.append_eq_nil_iff.mp (joinErrors_eq_none he)).1
  exact ⟨_, hful' herr hn hosts hres⟩

theorem wp_reconcile (s : State) : PoolWp key (reconcile key) (Returns key) s := by
  unfold reconcile
  refine pwp_ask (P := fun _ => True) (fun _ _ _ h => h) trivial (fun _ _ => trivial) ?_
  intro s1 f r s2 _ _ hx
  have hfree : s2.resolved = none := by
    cases f with
    | ok | fail =>
      cases hx
      rfl
    | refuse | exists_ => cases hx
  have hkept : Kept fun s => s.resolved = none := fun _ _ hR h => hR.resolved.trans h
  have hret : ∀ r s, s.resolved = none → Returns key r s :=
    fun _ _ hn _ _ _ hres => nomatch hn.symm.trans hres
  cases r with
  | ok pool =>
    -- the object is the cache's copy
    refine wp_reconcilePool ⟨?_, rfl, ⟨rfl, rfl⟩, hfree⟩
    cases f with
    | ok =>
      have hx := Option.some.inj hx
      have hget : s1.get = .ok pool := congrArg Prod.fst hx
      cases congrArg Prod.snd hx
      unfold State.get at hget
      split at hget
      · cases hget
      next p hp =>
        cases hget
        exact ⟨_, rfl, hp, rfl⟩
    | fail | refuse | exists_ => cases hx
  | error e =>
    cases hnf : e.isNotFound with
    | true =>
      simp only [hnf, if_true]
      refine pwp_ask hkept hfree (fun _ _ => trivial) fun s3 f' r' s4 _ hn hx' => ?_
      refine pwp_done hkept ?_ fun _ _ hn' => hret _ _ hn'
      cases hx'
      exact hn
    | false =>
      simp only [hnf]
      exact pwp_done hkept hfree fun _ _ hn => hret _ _ hn

/-- **The reconcile meets its duties**, whatever fails. -/
theorem pool_sound (key : ObjectKey) : Sound (machine key) (spec key) where
  refl _ := Rely.refl
  trans _ _ _ _ := Rely.trans
  idle _ _ _ _ _ _ := trivial
  env_inv _ _ _ hI h := (env_cases h).inv hI
  env_rely _ _ _ _ _ h := (env_cases h).rely
  exec_inv _ _ _ _ _ _ hI hpre h := exec_inv hI hpre h
  exec_rely t u _ _ _ _ _ hne := absurd (Subsingleton.elim u t) hne
  crash_inv _ hI := hI.same ⟨rfl, rfl, rfl, rfl, rfl, rfl, rfl, rfl⟩
  crash_idle _ _ _ := trivial
  spawn _ s _ _ := by
    refine wp_seq rely_refl (wp_reconcile s) fun r s1 _ hr => ?_
    exact wp_last Returns.kept.stable hr fun _ _ hpre => hpre

end BatteryOperator.Pools
