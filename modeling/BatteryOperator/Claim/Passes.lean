/-
  Subject:   The ways one reconcile takes through the chain of the Claim Controller.

  Most steps have nothing to do for most claims: a claim being deleted meets `Release` alone, one
  without a Lease is for `Bind` and `Pending`, and only a claim that holds its Lease gets past them
  to the steps that keep or expire it. `Pass` lists these ways with the steps that ran on each.

  * `idle` -- a step that asked for nothing and left the scope as it was;
  * `visits_unheld` -- the last six steps have nothing to do for a claim that is not Bound;
  * `chain_visits` -- **every reconcile takes one of the ways**;
  * `chain_ends` -- and `Synced` has the last word;
  * `reconcileClaim_ends` -- then the write.
-/
import BatteryOperator.Claim.Course
import BatteryOperator.Claim.Footprint

namespace BatteryOperator.Course

open Lib Prog

/-! ## 1. Steps with nothing to do -/

/-- A step of the chain that ran. -/
abbrev Step := Visit Op Op.Ans Scope

/-- A step that asked for nothing and left the scope as it was. -/
def idle (sc : Scope) : Step := ⟨sc, [], { scope := sc }⟩

/-- A step that has nothing to do for a scope. -/
def Rests (sub : SubReconciler Code Scope) (sc : Scope) : Prop :=
  ∀ asked o, (sub sc).Ends asked o → asked = [] ∧ o = { scope := sc }

variable {subs : List (SubReconciler Code Scope)} {sc : Scope} {vs : List Step} {c : MicroVMClaim}
  {b : Bind} {asked : Trace} {o : Outcome Scope} {perr : Option String}

/-- The chain goes on after it, from the same scope. -/
theorem visits_rest {sub : SubReconciler Code Scope} (hsub : Rests sub sc)
    (h : Visits (sub :: subs) sc vs) : ∃ rest, vs = idle sc :: rest ∧ Visits subs sc rest := by
  obtain ⟨v, rest, rfl, rfl, hv, hrest⟩ := visits_cons h
  obtain ⟨hasked, ho⟩ := hsub v.asked v.outcome hv
  have hidle : v = idle v.before := by
    obtain ⟨before, asked, outcome⟩ := v
    simp only at hasked ho
    rw [hasked, ho]
    rfl
  refine ⟨rest, by rw [← hidle], ?_⟩
  rcases hrest with ⟨hend, -⟩ | ⟨-, hvs⟩
  · exact absurd (by rw [hidle]; exact ⟨rfl, rfl⟩) hend
  · rw [ho] at hvs
    exact hvs

/-- Steps that all have nothing to do. -/
theorem visits_allRest (hsubs : ∀ sub ∈ subs, Rests sub sc) (h : Visits subs sc vs) :
    vs = List.replicate subs.length (idle sc) := by
  induction subs generalizing vs with
  | nil =>
    cases h
    rfl
  | cons sub subs ih =>
    obtain ⟨rest, rfl, hrest⟩ := visits_rest (hsubs sub List.mem_cons_self) h
    rw [ih (fun s hs => hsubs s (List.mem_cons_of_mem sub hs)) hrest]
    rfl

/-! ## 2. The steps that keep a Bound claim -/

/-- The `Backoff` the chain runs with. -/
def backoffOf (r : MicroVMClaimReconciler) : Backoff :=
  if r.backoff = ⟨0, 0⟩ then defaultBackoff else r.backoff

/-- The last six steps. -/
def heldSteps (b : Backoff) : List (SubReconciler Code Scope) :=
  [ExpireDeleted.reconcile, Recover.reconcile, Renew.reconcile ⟨b⟩, CheckExpiry.reconcile ⟨b⟩,
    AgentAddress.reconcile, HostReady.reconcile]

theorem chain_steps (r : MicroVMClaimReconciler) :
    r.chain.steps = [Release.reconcile ⟨backoffOf r⟩, EnsureFinalizer.reconcile,
      Bind.reconcile { slots := r.slots }, Pending.reconcile ⟨backoffOf r⟩] ++
        heldSteps (backoffOf r) := rfl

theorem holdsLease_of_unbound (h : c.status.phase ≠ .bound) : holdsLease c = false := by
  simp [holdsLease, h]

theorem boundNode_of_unbound (h : c.status.phase ≠ .bound) : boundNode c = none := by
  simp [boundNode, h]

/-- **A claim that is not Bound** is nothing for the last six steps. -/
theorem visits_unheld {b : Backoff} (hph : sc.object.status.phase ≠ .bound)
    (h : Visits (heldSteps b) sc vs) : vs = List.replicate 6 (idle sc) := by
  have hh := holdsLease_of_unbound hph
  have hb := boundNode_of_unbound hph
  refine visits_allRest (fun sub hsub asked o ho => ?_) h
  simp only [heldSteps, List.mem_cons, List.not_mem_nil, or_false] at hsub
  rcases hsub with rfl | rfl | rfl | rfl | rfl | rfl
  · cases expireDeleted_ends ho with
    | idle => exact ⟨rfl, rfl⟩
    | _ => simp_all
  · cases recover_ends ho with
    | idle => exact ⟨rfl, rfl⟩
    | _ => simp_all
  · cases renew_ends ho with
    | idle => exact ⟨rfl, rfl⟩
    | _ => simp_all
  · cases checkExpiry_ends ho with
    | idle => exact ⟨rfl, rfl⟩
    | _ => simp_all
  · cases agentAddress_ends ho with
    | idle => exact ⟨rfl, rfl⟩
    | _ => simp_all
  · cases hostReady_ends ho with
    | idle => exact ⟨rfl, rfl⟩
    | _ => simp_all

/-! ## 3. The ways through the chain -/

/-- **The ways a reconcile takes**, with the steps that ran. -/
inductive Pass (r : MicroVMClaimReconciler) (c : MicroVMClaim) : List Step → Prop where
  /-- A claim being deleted. -/
  | released (hd : c.deleting = true) (asked : Trace) (o : Outcome Scope)
      (h : Released ⟨backoffOf r⟩ (Scope.new c) asked o) : Pass r c [⟨Scope.new c, asked, o⟩]
  /-- A claim that gets its finalizer. -/
  | guarded (hd : c.deleting = false) (hr : c.hasRelease = false) :
      Pass r c [idle (Scope.new c),
        ⟨Scope.new c, [], .stopped (Scope.new c).addFinalizer⟩]
  /-- A claim without a Lease, where `Bind` ends the chain. -/
  | bind (hd : c.deleting = false) (hr : c.hasRelease = true) (hl : c.status.leaseID = "")
      (asked : Trace) (o : Outcome Scope) (h : Bound { slots := r.slots } (Scope.new c) asked o)
      (hend : o.err ≠ none ∨ o.result.stop = true) :
      Pass r c [idle (Scope.new c), idle (Scope.new c), ⟨Scope.new c, asked, o⟩]
  /-- A claim without a Lease that is kept Pending. -/
  | pending (hd : c.deleting = false) (hr : c.hasRelease = true) (hl : c.status.leaseID = "")
      (asked : Trace) (o : Outcome Scope) (h : Bound { slots := r.slots } (Scope.new c) asked o)
      (he : o.err = none) (hs : o.result.stop = false) (reason message : String)
      (hp : pendingReason o.scope (claimError o.scope) = some (reason, message)) (now : Time)
      (w : Step) (hw : w = ⟨o.scope, [⟨.now, now⟩],
        { scope := pendingBy o.scope reason message now,
          result := ⟨false, (backoffOf r).after
            (now - boundSince (pendingBy o.scope reason message now) now)⟩ }⟩) :
      Pass r c (idle (Scope.new c) :: idle (Scope.new c) :: ⟨Scope.new c, asked, o⟩ :: w ::
        List.replicate 6 (idle w.outcome.scope))
  /-- A claim with a Lease that is not Bound. -/
  | resting (hd : c.deleting = false) (hr : c.hasRelease = true) (hl : c.status.leaseID ≠ "")
      (hph : c.status.phase ≠ .bound) : Pass r c (List.replicate 10 (idle (Scope.new c)))
  /-- A claim that holds its Lease. -/
  | held (hr : c.hasRelease = true) (hh : holdsLease c = true) (vs : List Step)
      (h : Visits (heldSteps (backoffOf r)) (Scope.new c) vs) :
      Pass r c (List.replicate 4 (idle (Scope.new c)) ++ vs)

/-- `Bind` lets the chain go on only with something for `Pending` to say, or a Lease. -/
theorem pends_of_goOn (h : Bound b (Scope.new c) asked o) (hl : c.status.leaseID = "")
    (he : o.err = none) (hs : o.result.stop = false) :
    ∃ rm, pendingReason o.scope (claimError o.scope) = some rm := by
  cases h with
  | idle hl' => exact absurd hl hl'
  | unread | poolUnread => cases he
  | gone | taken | full => cases hs
  | poolDeleting => exact ⟨_, rfl⟩
  | claim _ _ _ _ _ _ _ _ _ hc =>
    cases hc with
    | granted => cases hs
    | failed => cases he
    | pends e hp =>
      refine Option.isSome_iff_exists.mp ?_
      show (pendingReason ((Scope.new c).called methodClaimVM (some e)) (some e)).isSome = true
      unfold pendingReason
      dsimp only
      split
      · rfl
      · split
        · rfl
        · split
          · rfl
          · split
            · rfl
            · split
              · rfl
              · simp_all [pends]

section Chain

variable {r : MicroVMClaimReconciler} {c : MicroVMClaim} {vs : List Step}

theorem release_rests {rel : Release} (hd : sc.object.deleting = false) :
    Rests rel.reconcile sc := by
  intro asked o h
  cases release_ends h with
  | idle => exact ⟨rfl, rfl⟩
  | _ => simp_all

theorem ensureFinalizer_rests (hd : sc.object.deleting = false) (hr : sc.object.hasRelease = true) :
    Rests EnsureFinalizer.reconcile sc := by
  intro asked o h
  cases ensureFinalizer_ends h with
  | there => exact ⟨rfl, rfl⟩
  | _ => simp_all

theorem bind_rests (hl : sc.object.status.leaseID ≠ "") : Rests b.reconcile sc := by
  intro asked o h
  cases bind_ends h with
  | idle => exact ⟨rfl, rfl⟩
  | _ => simp_all

theorem pending_rests {p : Pending} (c : MicroVMClaim) : Rests p.reconcile (Scope.new c) := by
  intro asked o h
  cases pending_ends h with
  | idle => exact ⟨rfl, rfl⟩
  | pending _ _ hp => cases hp

/-- From `Bind` on, of a claim without a Lease. -/
theorem visits_unleased (hd : c.deleting = false) (hr : c.hasRelease = true)
    (hl : c.status.leaseID = "")
    (h : Visits (Bind.reconcile { slots := r.slots } :: Pending.reconcile ⟨backoffOf r⟩ ::
      heldSteps (backoffOf r)) (Scope.new c) vs) :
    Pass r c (idle (Scope.new c) :: idle (Scope.new c) :: vs) := by
  obtain ⟨⟨before, asked, o⟩, rest, rfl, rfl, hv, hrest⟩ := visits_cons h
  have hb := bind_ends hv
  rcases hrest with ⟨hend, rfl⟩ | ⟨⟨he, hs⟩, hvs⟩
  · refine .bind hd hr hl asked o hb ?_
    by_cases he : o.err = none
    · refine .inr ?_
      cases hs : o.result.stop with
      | true => rfl
      | false => exact absurd ⟨he, hs⟩ hend
    · exact .inl he
  · obtain ⟨⟨reason, message⟩, hreason⟩ := pends_of_goOn hb hl he hs
    obtain ⟨⟨before, asked', o'⟩, rest, rfl, hbefore, hv', hrest'⟩ := visits_cons hvs
    cases hbefore
    cases pending_ends hv' with
    | idle hidle => cases hreason.symm.trans hidle
    | pending reason' message' hp now =>
      rcases hrest' with ⟨hend, -⟩ | ⟨-, hvs'⟩
      · exact absurd ⟨rfl, rfl⟩ hend
      · have hph : (pendingBy o.scope reason' message' now).object.status.phase ≠ .bound := by
          nofun
        rw [visits_unheld hph hvs']
        exact .pending hd hr hl asked o hb he hs reason' message' hp now _ rfl

/-- **Every reconcile takes one of the ways.** -/
theorem chain_visits (h : Visits r.chain.steps (Scope.new c) vs) : Pass r c vs := by
  rw [chain_steps] at h
  cases hd : c.deleting with
  | true =>
    obtain ⟨⟨before, asked, o⟩, rest, rfl, rfl, hv, hrest⟩ := visits_cons h
    have hrel := release_ends hv
    have hstop : o.result.stop = true := by
      cases hrel with
      | idle hd' => cases hd.symm.trans hd'
      | done | unleased | released | transit | failed => rfl
    rcases hrest with ⟨-, rfl⟩ | ⟨⟨-, hgo⟩, -⟩
    · exact .released hd asked o hrel
    · cases hstop.symm.trans hgo
  | false =>
    obtain ⟨vs1, rfl, h1⟩ := visits_rest (release_rests hd) h
    cases hr : c.hasRelease with
    | false =>
      obtain ⟨⟨before, asked, o⟩, rest, rfl, rfl, hv, hrest⟩ := visits_cons h1
      cases ensureFinalizer_ends hv with
      | deleted hd' => cases hd.symm.trans hd'
      | there _ hr' => cases hr.symm.trans hr'
      | added =>
        rcases hrest with ⟨-, rfl⟩ | ⟨⟨-, hgo⟩, -⟩
        · exact .guarded hd hr
        · cases hgo
    | true =>
      obtain ⟨vs2, rfl, h2⟩ := visits_rest (ensureFinalizer_rests hd hr) h1
      by_cases hl : c.status.leaseID = ""
      · exact visits_unleased hd hr hl h2
      · obtain ⟨vs3, rfl, h3⟩ := visits_rest (bind_rests hl) h2
        obtain ⟨vs4, rfl, h4⟩ := visits_rest (pending_rests c) h3
        by_cases hph : c.status.phase = .bound
        · exact .held hr (by simp [holdsLease, hph, hl, hd]) vs4 h4
        · rw [visits_unheld hph h4]
          exact .resting hd hr hl hph

/-- **A chain that ended**: its steps, then `Synced` from the scope they left. -/
theorem chain_ends (h : (r.chain.run (Scope.new c)).Ends asked o) :
    ∃ vs last o', Visits r.chain.steps (Scope.new c) vs ∧
      asked = vs.flatMap Visit.asked ++ last ∧
      Reflected (Visit.leftScope (Scope.new c) vs) last o' ∧
      o = ⟨o'.scope, (Visit.left (Scope.new c) {} vs).2.1.merge { o'.result with stop := false },
        joinErrors ((Visit.left (Scope.new c) {} vs).2.2 ++ o'.err.toList)⟩ := by
  obtain ⟨before, after, x, rfl, hsteps, h1⟩ := ends_bind.mp h
  obtain ⟨vs, hvs, rfl, rfl⟩ := ends_runSteps hsteps
  obtain ⟨last, rest, y, rfl, hfinally, h2⟩ := ends_bind.mp h1
  cases h2
  obtain ⟨last, rest, o', rfl, hsynced, h3⟩ := ends_bind.mp hfinally
  cases h3
  refine ⟨vs, last, o', hvs, ?_, ?_, rfl⟩
  · simp
  · rw [← Visit.left_scope _ {}]
    exact synced_ends hsynced

/-- What a reconcile returns: an error if a step or the write failed, else the delay its steps asked
    for. -/
structure Returned (vs : List Step) (c : MicroVMClaim) (perr : Option String)
    (res : Result × Option String) : Prop where
  err : res.2 = none → (Visit.left (Scope.new c) {} vs).2.2 = [] ∧ perr = none
  delay : res.2 = none → 0 < (Visit.left (Scope.new c) {} vs).2.1.requeueAfter →
    0 < res.1.requeueAfter

/-- **A reconcile that ended**: the steps and `Synced`, none of which writes, and the write of the
    scope they left. -/
theorem reconcileClaim_ends {res : Result × Option String}
    (h : (r.reconcileClaim c).Ends asked res) :
    ∃ vs last o tail perr, Visits r.chain.steps (Scope.new c) vs ∧
      Reflected (Visit.leftScope (Scope.new c) vs) last o ∧ (o.scope.patch).Ends tail perr ∧
      asked = vs.flatMap Visit.asked ++ last ++ tail ∧ Returned vs c perr res ∧
      ∀ e ∈ vs.flatMap Visit.asked ++ last, Writes.Inner e.1 := by
  obtain ⟨before, after, x, rfl, hchain, h1⟩ := ends_bind.mp h
  have hinner := (hchain.within (Writes.chain_within r c)).1
  obtain ⟨vs, last, o, hvs, rfl, hlast, rfl⟩ := chain_ends hchain
  obtain ⟨tail, rest, perr, rfl, hpatch, h2⟩ := ends_bind.mp h1
  have hres : rest = [] ∧ Returned vs c perr res := by
    dsimp only at h2
    split at h2
    · cases h2
      exact ⟨rfl, nofun, nofun⟩
    next hjoin =>
      cases h2
      obtain ⟨hchainErr, hperr⟩ := List.append_eq_nil_iff.mp (joinErrors_eq_none hjoin)
      have herrs := joinErrors_eq_none (Option.toList_eq_nil_iff.mp hchainErr)
      refine ⟨rfl,
        fun _ => ⟨(List.append_eq_nil_iff.mp herrs).1, Option.toList_eq_nil_iff.mp hperr⟩,
        fun _ hpos => Result.merge_pos_left hpos⟩
  obtain ⟨rfl, hres⟩ := hres
  exact ⟨vs, last, o, tail, perr, hvs, hlast, hpatch, by simp, hres, hinner⟩

end Chain

/-! ## 4. The metadata -/

open Writes

/-- The steps that keep a Bound claim touch its status alone. -/
theorem heldSteps_sameMeta {b : Backoff} {sub : SubReconciler Code Scope}
    (hsub : sub ∈ heldSteps b) (ho : (sub sc).Ends asked o) : SameMeta sc o.scope := by
  simp only [heldSteps, List.mem_cons, List.not_mem_nil, or_false] at hsub
  rcases hsub with rfl | rfl | rfl | rfl | rfl | rfl
  · exact (expireDeleted_stays (expireDeleted_ends ho)).2
  · exact (recover_stays (recover_ends ho)).2
  · exact (renew_stays (renew_ends ho)).2
  · exact (checkExpiry_stays (checkExpiry_ends ho)).2
  · exact (agentAddress_stays (agentAddress_ends ho)).2
  · exact (hostReady_stays (hostReady_ends ho)).2

theorem visits_sameMeta (hsubs : ∀ sub ∈ subs, ∀ {sc : Scope} {asked : Trace} {o : Outcome Scope},
      (sub sc).Ends asked o → SameMeta sc o.scope) (h : Visits subs sc vs) :
    SameMeta sc (Visit.leftScope sc vs) := by
  induction h with
  | nil sc => exact ⟨rfl, rfl⟩
  | last sub subs v h => exact hsubs sub List.mem_cons_self h
  | next sub subs v vs h _ _ ih =>
    have hrest := ih fun s hs => hsubs s (List.mem_cons_of_mem sub hs)
    exact (hsubs sub List.mem_cons_self h).trans hrest

/-- **A claim that stays and has its finalizer** keeps its metadata. -/
theorem pass_sameMeta {r : MicroVMClaimReconciler} (hd : c.deleting = false)
    (hr : c.hasRelease = true) (h : Pass r c vs) :
    SameMeta (Scope.new c) (Visit.leftScope (Scope.new c) vs) := by
  cases h with
  | resting => exact ⟨rfl, rfl⟩
  | held _ _ vs h =>
    have hheld := visits_sameMeta (fun _ hsub => heldSteps_sameMeta hsub) h
    exact hheld
  | bind _ _ _ asked o h =>
    have hbound := (bind_stays h).2
    exact hbound
  | pending _ _ _ asked o h _ _ reason message _ now w hw =>
    have hbound := (bind_stays h).2
    show SameMeta (Scope.new c) w.outcome.scope
    rw [hw]
    exact hbound.trans ⟨rfl, rfl⟩
  | _ => simp_all

/-! ## 5. The write -/

/-- The write of a status: nothing, or one patch. -/
theorem patchStatus_ends {base : MicroVMClaim} {desired : MicroVMClaimStatus}
    (h : (Scope.patchStatus base desired).Ends asked perr) :
    (asked = [] ∧ base.status.encode = desired.encode) ∨
      ∃ ans, asked = [⟨.patchStatus base { base with status := desired }, ans⟩] := by
  unfold Scope.patchStatus at h
  split at h
  next hsame => exact .inl ⟨(ends_pure.mp h).1, hsame⟩
  · obtain ⟨ans, rest, rfl, h1⟩ := ends_call.mp h
    have hrest : rest = [] := by
      cases ans with
      | ok | error => exact (ends_pure.mp h1).1
    rw [hrest]
    exact .inr ⟨ans, rfl⟩

/-- The write of a scope whose metadata is as fetched: nothing, or the status. -/
theorem patch_ends (hmeta : sc.unpatched = sc.original) (h : sc.patch.Ends asked perr) :
    (asked = [] ∧ sc.original.status.encode = sc.object.status.encode) ∨
      ∃ ans, asked =
        [⟨.patchStatus sc.original { sc.original with status := sc.object.status }, ans⟩] := by
  unfold Scope.patch at h
  rw [if_pos hmeta, hmeta] at h
  exact patchStatus_ends h

/-- The write of a scope with other metadata: the metadata, and perhaps the status against the
    answer. -/
theorem patchMeta_ends (h : sc.patchMeta.Ends asked perr) :
    (∃ ans, asked = [⟨.patchMeta sc.original sc.unpatched, ans⟩]) ∨
      ∃ answer ans, asked = [⟨.patchMeta sc.original sc.unpatched, .ok answer⟩,
        ⟨.patchStatus answer { answer with status := sc.object.status }, ans⟩] := by
  unfold Scope.patchMeta at h
  obtain ⟨ans, rest, rfl, h1⟩ := ends_call.mp h
  cases ans with
  | error e =>
    dsimp only at h1
    split at h1
    · exact .inl ⟨_, by rw [(ends_pure.mp h1).1]⟩
    · exact .inl ⟨_, by rw [(ends_pure.mp h1).1]⟩
  | ok answer =>
    dsimp only at h1
    split at h1
    · exact .inl ⟨_, by rw [(ends_pure.mp h1).1]⟩
    · rcases patchStatus_ends h1 with ⟨rfl, -⟩ | ⟨ans, rfl⟩
      · exact .inl ⟨_, rfl⟩
      · exact .inr ⟨answer, ans, rfl⟩

/-- The write makes no call to battery. -/
theorem calls_patch (h : sc.patch.Ends asked perr) : calls asked = [] := by
  by_cases hmeta : sc.unpatched = sc.original
  · rcases patch_ends hmeta h with ⟨rfl, -⟩ | ⟨ans, rfl⟩
    · rfl
    · rfl
  · unfold Scope.patch at h
    rw [if_neg hmeta] at h
    rcases patchMeta_ends h with ⟨ans, rfl⟩ | ⟨answer, ans, rfl⟩
    · rfl
    · rfl

end BatteryOperator.Course
