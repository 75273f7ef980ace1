/-
  Subject:   The Claim Controller meets its specification, in every interleaving.

  * `wp_run`, `wp_reconcile`, `wp_recovery` -- the chain, a reconcile and a recovery are safe;
  * `sound` -- **the specification is sound for the machine**;
  * `ReachableBy.safe` -- **in every world reached the invariant holds, and every operation about
    to run meets its duty** (`ReachableBy.pre`);
  * `ReachableBy.invariant` -- a further property of the shared state needs to be checked against
    one operation at a time;
  * `exists_after`, `exists_reached`, `exists_step` -- a schedule that can be run reaches a world.
-/
import BatteryOperator.Claim.HeldSound
import BatteryOperator.ReconcileLogic

namespace BatteryOperator

open Lib Machine

/-! ## 1. The chain -/

section Chain

variable {r : MicroVMClaimReconciler} {k : ObjectKey}

/-- From `P`, the steps end in a plan. -/
def Chained (r : MicroVMClaimReconciler) (k : ObjectKey) (P : Scope → Shared → Prop)
    (subs : List (SubReconciler Code Scope)) : Prop :=
  ∀ sc s out, P sc s → Wp r k (Chain.runSteps subs sc out) (fun x => Plan k x.1) s

theorem chained_nil : Chained r k (Going k) [] :=
  ends_nil lasting_going fun _ _ _ _ hg => hg.plan

theorem chained_cons {P Q : Scope → Shared → Prop} {sub : SubReconciler Code Scope}
    {subs : List (SubReconciler Code Scope)}
    (hsub : ∀ sc s, P sc s → Wp r k (sub sc) (After k Q) s) (hsubs : Chained r k Q subs) :
    Chained r k P (sub :: subs) := by
  refine ends_cons (Rely.refl (.claim k)) (fun x => lasting_plan x.1) (fun sc s h => ?_) hsubs
  refine wp_mono (fun o s1 _ ho => ?_) _ (hsub sc s h)
  exact ⟨ho.2, fun _ _ _ => ho.1, fun _ _ _ => ho.1⟩

/-- **The chain leaves a plan.** -/
theorem wp_run {sc : Scope} {s : Shared} (h : Begun k sc s) :
    Wp r k (r.chain.run sc) (fun o => Plan k o.scope) s := by
  have hsteps : Chained r k (Begun k) r.chain.steps :=
    chained_cons (fun _ _ => wp_release _) <|
    chained_cons (fun _ _ => wp_ensureFinalizer) <|
    chained_cons (fun _ _ => wp_bindStep _) <|
    chained_cons (fun _ _ => wp_pending _) <|
    chained_cons (fun _ _ => wp_expireDeleted) <|
    chained_cons (fun _ _ => wp_recover) <|
    chained_cons (fun _ _ => wp_renew _) <|
    chained_cons (fun _ _ => wp_checkExpiry _) <|
    chained_cons (fun _ _ => wp_agentAddress) <|
    chained_cons (fun _ _ => wp_hostReady) chained_nil
  refine wp_seq (Rely.refl _) (hsteps sc s {} h) fun r1 s1 _ h1 => ?_
  obtain ⟨sc1, out1, errs1⟩ := r1
  refine wp_bind (Rely.refl _) _ _ (wp_seq (Rely.refl _) (wp_synced h1) fun o s2 _ h2 => ?_)
  refine wp_ret (lasting_plan _) h2 fun s3 _ h3 => ?_
  exact wp_ret (lasting_plan _) h3 fun _ _ h4 => h4

/-- **A reconcile is safe.** -/
theorem wp_reconcile {s : Shared} (h : s.binding k = none) :
    Wp r k (r.reconcile k) (fun _ => Idle (.claim k)) s := by
  unfold MicroVMClaimReconciler.reconcile
  refine wp_calm (lasting_binding none) rfl h (fun _ _ _ => trivial) ?_
  intro s1 c a s2 hI hb hx hI' hb'
  cases a with
  | error e => exact wp_ret (lasting_binding none) hb' fun _ _ hp => hp
  | ok claim =>
    have hsame : s2 = s1 := execRead_state hx
    have hcopy : (s2.claims k).copy = some claim := by
      have hv := execRead_ok hx
      rw [hsame]
      split at hv
      next c' hc' =>
        cases hv
        exact hc'
      · cases hv
    have hbegun : Begun k (Scope.new claim) s2 :=
      { ctx := Ctx.of_copy hI' hcopy, object := rfl, binding := hb', call := rfl, pool := rfl }
    refine wp_seq (Rely.refl _) (wp_run hbegun) fun o s3 _ ho => ?_
    refine wp_seq (Rely.refl _) (wp_patch ho) fun perr s4 _ hidle => ?_
    split
    · exact wp_ret (lasting_binding none) hidle fun _ _ hp => hp
    · exact wp_ret (lasting_binding none) hidle fun _ _ hp => hp

end Chain

/-! ## 2. The recovery -/

/-- The lease ids were battery's. -/
def Known (ids : List String) (s : Shared) : Prop :=
  ∀ id ∈ ids, ∃ vm uid p e, Fact.leased id vm uid p e ∈ s.history

theorem known_mono {ids : List String} {s s' : Shared} (h : Known ids s)
    (hle : s.history <:+ s'.history) : Known ids s' := by
  intro id hid
  obtain ⟨vm, uid, p, e, hm⟩ := h id hid
  exact ⟨vm, uid, p, e, hle.mem hm⟩

/-- The claims in the cache that hold a Lease record lease ids of battery's. -/
theorem known_of_cache {s : Shared} (hI : Inv s) :
    Known (((s.keys.filterMap fun k => (s.claims k).copy).filter holdsLease).map
      fun c => c.status.leaseID) s := by
  intro id hid
  obtain ⟨c, hc, rfl⟩ := List.mem_map.mp hid
  obtain ⟨hmem, hh⟩ := List.mem_filter.mp hc
  obtain ⟨k, _, hk⟩ := List.mem_filterMap.mp hmem
  obtain ⟨vm, e, _, hl⟩ := (Ctx.of_copy hI hk).leased hI (holdsLease_leaseID hh)
  exact ⟨vm, c.uid, poolOf c, e, hl⟩

/-- What ListLeases on every Pool says of Leases that were created. -/
theorem recordOk_of_answer {s s' : Shared} (hI : Inv s) {ids : List String} (hk : Known ids s)
    {t : Thread} {f : Choice} {leases : List LeaseRecord}
    (hx : execReceive t (.listLeases none) s f = some (.ok leases, s')) :
    RecordOk s.history ids leases := by
  cases execReceive_cases hx with | served _ _ _ _ hs =>
  cases Battery.serve_cases hs with | listed _ _ hlist =>
  intro id hid
  obtain ⟨vm, uid, p, e, hl⟩ := hk id hid
  constructor
  · intro hnone
    refine hI.ledger.gone_of_not_held hl fun l hm heq => ?_
    have hrec : l.toLeaseRecord ∈ leases := (hlist _).mpr ⟨l, hm, rfl, .inl rfl⟩
    exact RecoveredLeases.byID_none hnone _ hrec heq
  · intro rec hsome
    obtain ⟨hmem, hrid⟩ := RecoveredLeases.byID_some hsome
    obtain ⟨l, hm, heq, _⟩ := (hlist rec).mp hmem
    subst heq
    rw [← hrid]
    exact hI.ledger.current l hm

theorem stable_recordOk (ids : List String) (leases : List LeaseRecord) :
    Stable claimSpec .recovery fun s => RecordOk s.history ids leases := by
  intro s s' h hR _ id hid
  obtain ⟨hnone, hsome⟩ := h id hid
  exact ⟨fun hn => (hnone hn).mono (Rely.history hR),
    fun rec hr => (hsome rec hr).mono (Rely.history hR)⟩

/-- **A recovery is safe.** -/
theorem wp_recovery (r : MicroVMClaimReconciler) (s : Shared) :
    wp (machine r) claimSpec .recovery claimRecovery.run (fun _ => Idle .recovery) s := by
  have stable : ∀ ids, Stable claimSpec .recovery (Known ids) := fun ids _ _ hk hR _ =>
    known_mono hk (Rely.history hR)
  have any : Stable claimSpec .recovery fun _ => True := fun _ _ _ _ _ => trivial
  have done : ∀ (x : Option String) (s : Shared), wp (machine r) claimSpec .recovery
      (pure x) (fun _ => Idle .recovery) s := fun x s _ _ _ => trivial
  unfold claimRecovery.run
  refine wp_call any trivial (fun _ _ _ => trivial) fun s1 c a s2 hI _ hx hI' => ?_
  cases a with
  | error e => exact done _ _
  | ok claims =>
    have hsame : s2 = s1 := execRead_state hx
    have hclaims := execRead_ok hx
    cases hclaims
    subst hsame
    refine wp_call (stable _) (known_of_cache hI) (fun _ _ _ => ⟨none, rfl⟩) ?_
    intro s3 c3 _ s4 _ hk3 hx3 _
    cases hx3
    refine wp_call (stable _) (known_mono hk3 (List.suffix_cons _ _))
      (fun _ _ _ => ⟨none, rfl⟩) ?_
    intro s5 c5 b s6 hI5 hk5 hx5 hI6
    have hsame : s6 = s5 := receive_listLeases hx5
    subst hsame
    cases b with
    | error e => exact done _ _
    | ok leases =>
      have hrec := recordOk_of_answer hI5 hk5 hx5
      refine wp_call (stable_recordOk _ leases) hrec (fun _ _ hr => hr) ?_
      intro s7 _ _ s8 _ _ _ _
      exact done _ _

/-! ## 3. The whole machine -/

/-- **The specification is sound.** -/
theorem sound (r : MicroVMClaimReconciler) : Sound (machine r) claimSpec where
  refl := Rely.refl
  trans _ _ _ _ := Rely.trans
  idle t := by
    cases t with
    | claim k => exact lasting_binding none
    | recovery => exact fun _ _ _ _ _ => trivial
  env_inv := env_inv
  env_rely := env_rely
  exec_inv := exec_inv
  exec_rely := exec_rely
  crash_inv := crash_inv
  crash_idle t s _ := by
    cases t with
    | claim k => rfl
    | recovery => trivial
  spawn t s _ hidle := by
    cases t with
    | claim k =>
      refine wp_seq (Rely.refl _) (wp_reconcile hidle) fun _ s1 _ h1 => ?_
      exact wp_ret (lasting_binding none) h1 fun _ _ hp => hp
    | recovery =>
      exact wp_seq (Rely.refl _) (wp_recovery r s) fun _ _ _ _ _ _ _ => trivial

/-- A start has no version of any claim. -/
theorem Start.no_version {w : ClaimWorld} (h : Start w) {k : ObjectKey} {v : MicroVMClaim} :
    ¬ Version w.shared.claims k v := by
  intro hv
  unfold Version at hv
  rw [h.claims k] at hv
  simp [Register.init, Register.versions] at hv

theorem Start.inv {w : ClaimWorld} (h : Start w) : Inv w.shared := by
  have hfact : ∀ f, f ∉ w.shared.history := fun f hm => by
    simp [h.history] at hm
  have hlease : ∀ l, l ∉ w.shared.battery.leases := fun l hm => by
    simp [h.leases] at hm
  have hgone : ∀ id, ¬ Gone w.shared.history id := fun id hg => by
    obtain ⟨at_, cause, hm⟩ := hg
    exact hfact _ hm
  constructor
  case ledger =>
    constructor
    case held => exact fun l hl => absurd hl (hlease l)
    case current => exact fun l hl => absurd hl (hlease l)
    case live => exact fun l hl => absurd hl (hlease l)
    case kept => exact fun l hl => absurd hl (hlease l)
    case hosted => exact fun l hl => absurd hl (hlease l)
    case same => exact fun l hl => absurd hl (hlease l)
    case one => exact fun l hl => absurd hl (hlease l)
    case lost => exact fun _ _ _ _ _ hm => absurd hm (hfact _)
    case created => exact fun id hg => absurd hg (hgone id)
    case once => exact fun _ _ _ _ _ _ _ _ _ _ hm => absurd hm (hfact _)
    case named => exact fun _ _ _ _ _ hm => absurd hm (hfact _)
    case order => exact fun _ _ _ _ _ _ _ _ _ hm => absurd hm (hfact _)
    case asked => exact fun _ _ _ _ _ hm => absurd hm (hfact _)
    case replied => exact fun _ _ hm => absurd hm (hfact _)
  case store =>
    refine { order := fun k => ?_, revision := fun _ _ hv => absurd hv h.no_version
             key := fun _ _ hv => absurd hv h.no_version
             created := fun _ _ hv => absurd hv h.no_version
             named := fun _ _ hm => absurd hm (hfact _)
             once := fun _ _ _ hm => absurd hm (hfact _)
             ok := fun _ _ hv => absurd hv h.no_version }
    rw [h.claims k]
    exact List.pairwise_singleton _ _
  case owned =>
    refine { window := fun k v hv => ?_, recorded := fun _ _ hv => absurd hv h.no_version
             binding := fun k b hb => ?_, newest := fun _ _ hv => absurd hv h.no_version }
    · have hver : Version w.shared.claims k v := (w.shared.claims k).window_subset hv
      exact absurd hver h.no_version
    · simp [h.binding k] at hb
  case memory =>
    refine ⟨fun uid hd => ?_, fun id hm => ?_, fun id rec hm => ?_⟩
    · unfold DeletedVMs.has at hd
      simp [h.seen] at hd
    · simp [h.recovered] at hm
    · simp [h.recovered] at hm
  case expired => exact fun _ _ _ hm => absurd hm (hfact _)

theorem Start.safe {w : ClaimWorld} (r : MicroVMClaimReconciler) (h : Start w) :
    Safe (machine r) claimSpec w where
  inv := h.inv
  safe t p hp := by
    simp [h.running t] at hp
  rest t _ := by
    cases t with
    | claim k => exact h.binding k
    | recovery => trivial

section Reachable

variable {r : MicroVMClaimReconciler} {ok : ClaimWorld → ClaimAct → Prop} {w : ClaimWorld}

/-- **Every world reached is safe.** -/
theorem ReachableBy.safe (h : ReachableBy r ok w) : Safe (machine r) claimSpec w := by
  obtain ⟨w0, h0, hrun⟩ := h
  exact (sound r).reach (h0.safe r) hrun

theorem ReachableBy.inv (h : ReachableBy r ok w) : Inv w.shared := h.safe.inv

/-- The duty of an operation about to run is met. -/
theorem ReachableBy.pre (h : ReachableBy r ok w) {t : Thread} {o : Op}
    {f : o.Ans → Code Unit} (hrun : w.running t = some (.op o f)) : Pre t o w.shared :=
  (h.safe.safe t _ hrun w.shared (Rely.refl t _) h.inv).1

/-- A world reached with fewer steps admitted is reached with more. -/
theorem ReachableBy.mono {ok' : ClaimWorld → ClaimAct → Prop} (h : ReachableBy r ok w)
    (hok : ∀ w a, ok w a → ok' w a) : ReachableBy r ok' w := by
  obtain ⟨w0, h0, hrun⟩ := h
  exact ⟨w0, h0, hrun.mono hok⟩

/-- A schedule that was run reaches its world. -/
theorem ReachableBy.of_replay [∀ w a, Decidable (ok w a)] {w0 : ClaimWorld} (h0 : Start w0)
    (acts : List ClaimAct) (h : (machine r).replay ok w0 acts = some w) : ReachableBy r ok w :=
  ⟨w0, h0, run_of_replay acts h⟩

/-- **A further invariant**, from one step of each kind. -/
theorem ReachableBy.invariant (h : ReachableBy r ok w) {C : Shared → Prop}
    (hstart : ∀ w0, Start w0 → C w0.shared)
    (henv : ∀ w e s', ok w (.env e) → Inv w.shared → C w.shared → env e w.shared = some s' →
      Inv s' → C s')
    (hexec : ∀ w t c o f a s', ok w (.exec t c) → w.running t = some (.op o f) → Inv w.shared →
      Pre t o w.shared → C w.shared → exec t c o w.shared = some (a, s') → Inv s' → C s')
    (hcrash : ∀ s, Inv s → C s → C (crash s)) : C w.shared := by
  obtain ⟨w0, h0, hrun⟩ := h
  exact (sound r).invariant (h0.safe r) (hstart w0 h0) henv hexec hcrash hrun

end Reachable

/-! ## 4. Schedules -/

/-- Nothing has happened yet; every Pool's threshold is 30 seconds. -/
def quietWorld : ClaimWorld where
  shared :=
    { revision := 0
      keys := []
      claims := fun _ => Register.init none
      pools := fun _ => none
      nodes := fun _ => Register.init none
      battery := ⟨[], fun _ => 30 * second, []⟩
      binding := fun _ => none
      deleted := {}
      recovered := {}
      slots := 0
      now := 0
      history := [] }
  running := fun _ => none

theorem quietWorld_start : Start quietWorld :=
  ⟨fun _ => rfl, rfl, rfl, fun _ => rfl, rfl, rfl, rfl, fun _ => rfl⟩

/-- The world after a schedule whose steps `ok` admits. -/
def after (ok : ClaimWorld → ClaimAct → Bool) (acts : List ClaimAct) : Option ClaimWorld :=
  (machine {}).replay (fun w a => ok w a = true) quietWorld acts

/-- A schedule that can be run reaches a world; what holds of it can be computed. -/
theorem exists_after (ok : ClaimWorld → ClaimAct → Bool) (acts : List ClaimAct)
    (P : ClaimWorld → Prop) [DecidablePred P]
    (h : (after ok acts).any (fun w => decide (P w)) = true) :
    ∃ w, ReachableBy {} (fun w a => ok w a = true) w ∧ P w := by
  obtain ⟨w, hw, hp⟩ := (Option.any_eq_true ..).mp h
  exact ⟨w, ReachableBy.of_replay quietWorld_start acts hw, of_decide_eq_true hp⟩

/-- Every step is admitted. -/
def anyStep : ClaimWorld → ClaimAct → Bool := fun _ _ => true

theorem exists_reached (acts : List ClaimAct) (P : ClaimWorld → Prop) [DecidablePred P]
    (h : (after anyStep acts).any (fun w => decide (P w)) = true) :
    ∃ w, Reachable {} w ∧ P w := by
  obtain ⟨w, hw, hp⟩ := exists_after anyStep acts P h
  exact ⟨w, hw.mono fun _ _ _ => trivial, hp⟩

/-- ... in which this claim is stored. -/
theorem exists_stored (acts : List ClaimAct) (k : ObjectKey)
    (P : ClaimWorld → MicroVMClaim → Prop) [∀ w c, Decidable (P w c)]
    (h : (after anyStep acts).any (fun w =>
      (w.shared.stored k).any fun c => decide (P w c)) = true) :
    ∃ w c, Reachable {} w ∧ w.shared.stored k = some c ∧ P w c := by
  obtain ⟨w, hw, hp⟩ := exists_reached acts
    (fun w => (w.shared.stored k).any (fun c => decide (P w c)) = true)
    (by simpa only [Bool.decide_eq_true] using h)
  obtain ⟨c, hc, hd⟩ := (Option.any_eq_true ..).mp hp
  exact ⟨w, c, hw, hc, of_decide_eq_true hd⟩

/-- ... and one step further. -/
theorem exists_step (acts : List ClaimAct) (a : ClaimAct) (P : ClaimWorld → ClaimWorld → Prop)
    [∀ w w', Decidable (P w w')]
    (h : (after anyStep acts).any (fun w =>
      ((machine {}).step w a).any fun w' => decide (P w w')) = true) :
    ∃ w w', Reachable {} w ∧ (machine {}).step w a = some w' ∧ P w w' := by
  obtain ⟨w, hw, hstep⟩ := (Option.any_eq_true ..).mp h
  obtain ⟨w', hs, hp⟩ := (Option.any_eq_true ..).mp hstep
  have hr : ReachableBy {} (fun w a => anyStep w a = true) w :=
    ReachableBy.of_replay quietWorld_start acts hw
  exact ⟨w, w', hr.mono fun _ _ _ => trivial, hs, of_decide_eq_true hp⟩

end BatteryOperator
