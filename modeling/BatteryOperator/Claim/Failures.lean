/-
  Subject:   A reconcile all of whose calls to battery failed.

  A call that failed in transit says nothing, and an error that the step returns says nothing about
  the Lease: neither may move the claim. What is left of such a reconcile are conditions, the Exec
  Agent's address, an expiry that the recovery had listed, and for a claim without a Lease the phase
  Pending; and the claim is tried again.

  * `AllFail` -- every call of the steps that ran failed like that;
  * `Kept`, `FailedPass` -- what the steps left;
  * `failed_pass` -- **such a reconcile moves nothing**;
  * `retries` -- and asks for a retry.
-/
import BatteryOperator.Claim.Treatment

namespace BatteryOperator.Course

open Lib

/-! ## 1. Calls that failed -/

/-- Every call failed in transit, or with an error that its step returned. -/
def AllFail (vs : List Step) : Prop :=
  ∀ v ∈ vs, ∀ m ∈ calls v.asked, ∃ e, errorOf m.2 = some e ∧
    (failedInTransit (some e) = true ∨ v.outcome.err ≠ none)

/-! ## 2. What is kept -/

/-- The fields that only an answer of battery may change. -/
structure Kept (before after : MicroVMClaimStatus) : Prop where
  leaseID : after.leaseID = before.leaseID
  microVM : after.microVM = before.microVM
  nodeName : after.host.map HostReference.nodeName = before.host.map HostReference.nodeName
  boundTime : after.boundTime = before.boundTime
  observedRenewTime : after.observedRenewTime = before.observedRenewTime

namespace Kept

theorem refl (st : MicroVMClaimStatus) : Kept st st := ⟨rfl, rfl, rfl, rfl, rfl⟩

theorem trans {a b c : MicroVMClaimStatus} (h : Kept a b) (h' : Kept b c) : Kept a c :=
  ⟨h'.leaseID.trans h.leaseID, h'.microVM.trans h.microVM, h'.nodeName.trans h.nodeName,
    h'.boundTime.trans h.boundTime, h'.observedRenewTime.trans h.observedRenewTime⟩

end Kept

/-- The steps after a failed call: they keep the fields, the phase and the expiry. -/
structure Mirrors (sc sc' : Scope) : Prop where
  original : sc'.original = sc.original
  unpatched : sc'.unpatched = sc.unpatched
  kept : Kept sc.object.status sc'.object.status
  phase : sc'.object.status.phase = sc.object.status.phase
  expiry : sc'.object.status.leaseExpiresAt = sc.object.status.leaseExpiresAt

namespace Mirrors

variable {sc sc' sc'' : Scope}

theorem refl (sc : Scope) : Mirrors sc sc := ⟨rfl, rfl, .refl _, rfl, rfl⟩

theorem trans (h : Mirrors sc sc') (h' : Mirrors sc' sc'') : Mirrors sc sc'' :=
  ⟨h'.original.trans h.original, h'.unpatched.trans h.unpatched, h.kept.trans h'.kept,
    h'.phase.trans h.phase, h'.expiry.trans h.expiry⟩

theorem called (method : String) (err : Option BatteryError) :
    Mirrors sc (sc.called method err) := ⟨rfl, rfl, .refl _, rfl, rfl⟩

theorem setCondition (type : ClaimCondition) (status : ConditionStatus) (reason message : String)
    (now : Time) : Mirrors sc (sc.setCondition type status reason message now) :=
  ⟨rfl, rfl, ⟨rfl, rfl, rfl, rfl, rfl⟩, rfl, rfl⟩

end Mirrors

variable {c : MicroVMClaim} {sc : Scope} {asked : Trace} {o : Outcome Scope} {vs : List Step}
  {phase : MicroVMClaimPhase} {exp : Option Time} {v : Step} {b : Backoff}

theorem boundNode_host {host : HostReference} (h : boundNode c = some host) :
    c.status.host = some host := by
  unfold boundNode at h
  split at h
  · exact (Option.filter_eq_some_iff.mp h).1
  · cases h

/-- **AgentAddress** makes no call and keeps what battery said. -/
theorem mirrors_of_addressed (h : Addressed sc asked o) :
    Mirrors sc o.scope ∧ calls asked = [] := by
  cases h with
  | idle | unread => exact ⟨.refl sc, rfl⟩
  | read host hb =>
    refine ⟨⟨rfl, rfl, ⟨rfl, rfl, ?_, rfl, rfl⟩, rfl, rfl⟩, rfl⟩
    show some host.nodeName = sc.object.status.host.map HostReference.nodeName
    rw [boundNode_host hb]
    rfl

/-- ... and so does **HostReady**. -/
theorem mirrors_of_reported (h : Reported sc asked o) : Mirrors sc o.scope ∧ calls asked = [] := by
  cases h with
  | idle | unread => exact ⟨.refl sc, rfl⟩
  | read => exact ⟨.setCondition _ _ _ _ _, rfl⟩

theorem mirrors_of_reflected (h : Reflected sc asked o) : Mirrors sc o.scope := by
  cases h with
  | idle => exact .refl sc
  | set => exact .setCondition _ _ _ _ _

/-- **The last two steps.** -/
theorem mirrors_of_last (h : Visits [AgentAddress.reconcile, HostReady.reconcile] sc vs) :
    Mirrors sc (Visit.leftScope sc vs) ∧ (vs.flatMap fun v => calls v.asked) = [] := by
  obtain ⟨v, rest, rfl, rfl, hv, hrest⟩ := visits_cons h
  obtain ⟨hm, hcalls⟩ := mirrors_of_addressed (agentAddress_ends hv)
  rw [List.flatMap_cons, hcalls, List.nil_append]
  rcases hrest with ⟨-, rfl⟩ | ⟨-, hvs⟩
  · exact ⟨hm, rfl⟩
  · obtain ⟨w, rest, rfl, -, hw, hrest⟩ := visits_cons hvs
    obtain ⟨hm', hcalls'⟩ := mirrors_of_reported (hostReady_ends hw)
    rw [List.flatMap_cons, hcalls', List.nil_append]
    rcases hrest with ⟨-, rfl⟩ | ⟨-, hnil⟩
    · exact ⟨hm.trans hm', rfl⟩
    · cases hnil
      exact ⟨hm.trans hm', rfl⟩

/-! ## 3. The claim that holds its Lease -/

/-- What is left of the claim `c`: its metadata, the kept fields, and this phase and expiry. -/
structure LeftAs (c : MicroVMClaim) (phase : MicroVMClaimPhase) (exp : Option Time)
    (sc : Scope) : Prop where
  original : sc.original = c
  unpatched : sc.unpatched = c
  kept : Kept c.status sc.object.status
  phase : sc.object.status.phase = phase
  expiry : sc.object.status.leaseExpiresAt = exp

theorem LeftAs.mirrors {sc' : Scope} (h : LeftAs c phase exp sc) (h' : Mirrors sc sc') :
    LeftAs c phase exp sc' :=
  ⟨h'.original.trans h.original, h'.unpatched.trans h.unpatched, h.kept.trans h'.kept,
    h'.phase.trans h.phase, h'.expiry.trans h.expiry⟩

theorem LeftAs.object (h : LeftAs c phase exp sc) :
    sc.object = { c with status := sc.object.status } :=
  congrArg (fun x : MicroVMClaim => { x with status := sc.object.status }) h.unpatched

theorem leftAs_new (c : MicroVMClaim) :
    LeftAs c c.status.phase c.status.leaseExpiresAt (Scope.new c) :=
  ⟨rfl, rfl, .refl _, rfl, rfl⟩

/-- An expiry that is not after `now`. -/
def NotAfter (exp : Option Time) (now : Time) : Prop := ∀ t, exp = some t → t ≤ now

theorem comingExpiry_eq_none {now : Time} :
    comingExpiry c now = none ↔ NotAfter c.status.leaseExpiresAt now := by
  constructor
  · intro h t ht
    by_contra hlt
    simp [comingExpiry_of_lt ht (Int.not_le.mp hlt)] at h
  · intro h
    unfold comingExpiry
    cases hexp : c.status.leaseExpiresAt with
    | none => rfl
    | some t => exact if_neg (Int.not_lt.mpr (h t hexp))

/-- Some step failed, or asked for the backoff's wait. -/
def Retrying (b : Backoff) (vs : List Step) : Prop :=
  ∃ v ∈ vs, v.outcome.err ≠ none ∨ ∃ d, v.outcome.result.requeueAfter = b.after d

/-- What `Recover` leaves of a Lease that is not missing. -/
theorem recovered_leaves (hh : holdsLease c = true) (h : Recovered (Scope.new c) asked o)
    (hgo : o.err = none ∧ o.result.stop = false) :
    ∃ known, looked asked = some known ∧ known ≠ some none ∧
      LeftAs c c.status.phase (raised c.status.leaseExpiresAt known) o.scope ∧
      o.scope.object.spec = c.spec ∧ o.scope.object.deleting = c.deleting := by
  cases h with
  | idle hidle => cases hh.symm.trans hidle
  | missing => cases hgo.2
  | unknown => exact ⟨none, rfl, nofun, leftAs_new c, rfl, rfl⟩
  | listed _ rec =>
    exact ⟨some (some rec), rfl, nofun, ⟨rfl, rfl, ⟨rfl, rfl, rfl, rfl, rfl⟩, rfl, rfl⟩, rfl, rfl⟩

/-- A scope left of a claim that holds its Lease still holds it. -/
theorem LeftAs.holdsLease (h : LeftAs c c.status.phase exp sc)
    (hd : sc.object.deleting = c.deleting) (hh : holdsLease c = true) :
    holdsLease sc.object = true := by
  unfold BatteryOperator.holdsLease at hh ⊢
  rw [h.phase, h.kept.leaseID, hd]
  exact hh

theorem LeftAs.pendingRenewal (h : LeftAs c phase exp sc) (hs : sc.object.spec = c.spec) :
    pendingRenewal sc.object = pendingRenewal c := by
  unfold BatteryOperator.pendingRenewal
  rw [hs, h.kept.observedRenewTime]

theorem AllFail.tail (h : AllFail (v :: vs)) : AllFail vs :=
  fun w hw => h w (List.mem_cons_of_mem v hw)

/-- The call of the first of these steps failed. -/
theorem AllFail.head (h : AllFail (v :: vs)) {m : Made} (hm : calls v.asked = [m]) :
    ∃ e, errorOf m.2 = some e ∧ (failedInTransit (some e) = true ∨ v.outcome.err ≠ none) :=
  h v List.mem_cons_self m (by rw [hm]; exact List.mem_singleton_self m)

theorem Retrying.tail (h : Retrying b vs) : Retrying b (v :: vs) := by
  obtain ⟨w, hw, hor⟩ := h
  exact ⟨w, List.mem_cons_of_mem v hw, hor⟩

/-- The steps after `Recover`. -/
def laterSteps (b : Backoff) : List (SubReconciler Code Scope) :=
  [CheckExpiry.reconcile ⟨b⟩, AgentAddress.reconcile, HostReady.reconcile]

theorem renew_rests {r : Renew} (hp : pendingRenewal sc.object = false) : Rests r.reconcile sc := by
  intro asked o h
  cases renew_ends h with
  | idle => exact ⟨rfl, rfl⟩
  | _ => simp_all

theorem checkExpiry_rests {c : CheckExpiry} (hp : pendingRenewal sc.object = true) :
    Rests c.reconcile sc := by
  intro asked o h
  cases checkExpiry_ends h with
  | idle => exact ⟨rfl, rfl⟩
  | _ => simp_all

/-- **A ListLeases that failed** moves nothing; it was made because no expiry is to come. -/
theorem check_fails (hh : holdsLease sc.object = true) (hp : pendingRenewal sc.object = false)
    (h : Visits (laterSteps b) sc vs) (hcalls : (vs.flatMap fun v => calls v.asked) ≠ [])
    (hfail : AllFail vs) :
    Mirrors sc (Visit.leftScope sc vs) ∧ Retrying b vs ∧
      ∃ now, ⟨.now, now⟩ ∈ vs.flatMap Visit.asked ∧ comingExpiry sc.object now = none := by
  obtain ⟨⟨before, asked, o⟩, rest, rfl, hb, hv, hrest⟩ := visits_cons h
  change before = sc at hb
  subst hb
  cases checkExpiry_ends hv with
  | idle hidle =>
    rcases hidle with hn | hn
    · cases hh.symm.trans hn
    · cases hp.symm.trans hn
  | coming =>
    rcases hrest with ⟨hend, -⟩ | ⟨-, hlast⟩
    · exact absurd ⟨rfl, rfl⟩ hend
    · exact absurd (mirrors_of_last hlast).2 hcalls
  | transit _ _ now hc e ht at_ since =>
    rcases hrest with ⟨hend, -⟩ | ⟨-, hlast⟩
    · exact absurd ⟨rfl, rfl⟩ hend
    · exact ⟨(Mirrors.called _ _).trans (mirrors_of_last hlast).1,
        ⟨_, List.mem_cons_self, .inr ⟨_, rfl⟩⟩, now, List.mem_cons_self, hc⟩
  | failed _ _ now hc e ht =>
    rcases hrest with ⟨-, rfl⟩ | ⟨⟨hgo, -⟩, -⟩
    · exact ⟨.called _ _, ⟨_, List.mem_cons_self, .inl nofun⟩, now,
        List.mem_cons_self, hc⟩
    · cases hgo
  | answered _ _ now hc leases rest' _ hs =>
    have hone := (own_of_settled hh hc hs).made
    obtain ⟨e, he, -⟩ := hfail.head hone
    cases he

/-- **A Heartbeat that failed** moves nothing. -/
theorem renew_fails (hh : holdsLease sc.object = true) (hp : pendingRenewal sc.object = true)
    (h : Visits (Renew.reconcile ⟨b⟩ :: laterSteps b) sc vs) (hfail : AllFail vs) :
    Mirrors sc (Visit.leftScope sc vs) ∧ Retrying b vs := by
  obtain ⟨⟨before, asked, o⟩, rest, rfl, hb, hv, hrest⟩ := visits_cons h
  change before = sc at hb
  subst hb
  cases renew_ends hv with
  | idle hidle =>
    rcases hidle with hn | hn
    · cases hh.symm.trans hn
    · cases hp.symm.trans hn
  | gone _ _ e hk now =>
    obtain ⟨e', he', hor⟩ := hfail.head (m := ⟨.heartbeat _, .error e⟩) rfl
    cases he'
    rcases hor with ht | herr
    · have hn : failedInTransit (some e) = false := by simp [failedInTransit, hk]
      cases hn.symm.trans ht
    · exact absurd rfl herr
  | transit _ _ e ht now since =>
    rcases hrest with ⟨hend, -⟩ | ⟨-, hlater⟩
    · exact absurd ⟨rfl, rfl⟩ hend
    · -- the renewal is still to be relayed, so `CheckExpiry` has nothing to do
      have hrests : Rests (CheckExpiry.reconcile ⟨b⟩) (before.called methodHeartbeat (some e)) :=
        checkExpiry_rests hp
      obtain ⟨rest', rfl, hlast⟩ := visits_rest hrests hlater
      have hmirrors := (mirrors_of_last hlast).1
      exact ⟨(Mirrors.called _ _).trans hmirrors, ⟨_, List.mem_cons_self, .inr ⟨_, rfl⟩⟩⟩
  | failed _ _ e =>
    rcases hrest with ⟨-, rfl⟩ | ⟨⟨hgo, -⟩, -⟩
    · exact ⟨.called _ _, ⟨_, List.mem_cons_self, .inl (by simp)⟩⟩
    · cases hgo
  | renewed _ _ expiresAt now =>
    obtain ⟨e, he, -⟩ := hfail.head (m := ⟨.heartbeat _, .ok expiresAt⟩) rfl
    cases he

theorem looked_of_deleted (h : Deleted sc asked o) : looked asked = none := by
  cases h <;> rfl

/-- What is left of a claim that holds its Lease, and what `Recover` looked up. -/
structure HeldFails (c : MicroVMClaim) (asked : Trace) (left : Scope) : Prop where
  known : ∃ known, looked asked = some known ∧ known ≠ some none ∧
    LeftAs c c.status.phase (raised c.status.leaseExpiresAt known) left ∧
    (pendingRenewal c = true ∨ ∃ now, ⟨.now, now⟩ ∈ asked ∧
      NotAfter (raised c.status.leaseExpiresAt known) now)

/-- **The claim that holds its Lease**, after failed calls. -/
theorem held_fails (hh : holdsLease c = true) (h : Visits (heldSteps b) (Scope.new c) vs)
    (hcalls : (vs.flatMap fun v => calls v.asked) ≠ []) (hfail : AllFail vs) :
    HeldFails c (vs.flatMap Visit.asked) (Visit.leftScope (Scope.new c) vs) ∧ Retrying b vs := by
  obtain ⟨v1, vs1, rfl, hb1, h1, hrest1⟩ := visits_cons h
  have hdel := expireDeleted_ends h1
  have hq1 := calls_of_deleted hdel
  rcases hrest1 with ⟨-, rfl⟩ | ⟨hgo1, hvs1⟩
  · exact absurd (by simp [hq1]) hcalls
  · rw [deleted_scope hdel hgo1.2] at hvs1
    obtain ⟨v2, vs2, rfl, hb2, h2, hrest2⟩ := visits_cons hvs1
    have hrec := recover_ends h2
    have hq2 := calls_of_recovered hrec
    rcases hrest2 with ⟨-, rfl⟩ | ⟨hgo2, hvs2⟩
    · exact absurd (by simp [hq1, hq2]) hcalls
    · obtain ⟨known, hknown, hk, hleft, hspec, hdel2⟩ := recovered_leaves hh hrec hgo2
      have hh2 := hleft.holdsLease hdel2 hh
      have hp2 := hleft.pendingRenewal hspec
      have hlook : looked ((v1 :: v2 :: vs2).flatMap Visit.asked) = some known := by
        rw [List.flatMap_cons, List.flatMap_cons, looked_append, looked_append,
          looked_of_deleted hdel, hknown]
        rfl
      cases hp : pendingRenewal c with
      | true =>
        obtain ⟨hm, hretry⟩ := renew_fails hh2 (hp2.trans hp) hvs2 hfail.tail.tail
        exact ⟨⟨known, hlook, hk, hleft.mirrors hm, .inl hp⟩, hretry.tail.tail⟩
      | false =>
        obtain ⟨vs3, rfl, hvs3⟩ := visits_rest (renew_rests (hp2.trans hp)) hvs2
        have hcalls3 : (vs3.flatMap fun v => calls v.asked) ≠ [] := by
          intro hnil
          refine hcalls ?_
          rw [List.flatMap_cons, List.flatMap_cons, List.flatMap_cons, hq1, hq2, hnil]
          rfl
        obtain ⟨hm, hretry, now, hnow, hc⟩ :=
          check_fails hh2 (hp2.trans hp) hvs3 hcalls3 hfail.tail.tail.tail
        refine ⟨⟨known, hlook, hk, hleft.mirrors hm, .inr ⟨now, ?_, ?_⟩⟩,
          hretry.tail.tail.tail⟩
        · simp only [List.flatMap_cons, List.mem_append]
          exact .inr (.inr (.inr hnow))
        · rw [← hleft.expiry]
          exact comingExpiry_eq_none.mp hc

/-! ## 4. Every reconcile with failed calls -/

/-- What is left of a reconcile all of whose calls failed. -/
inductive FailedPass (c : MicroVMClaim) (asked : Trace) (left : Scope) : Prop where
  | releasing (hd : c.deleting = true)
      (h : LeftAs c c.status.phase c.status.leaseExpiresAt left) : FailedPass c asked left
  | binding (hd : c.deleting = false) (hl : c.status.leaseID = "")
      (phase : MicroVMClaimPhase) (hph : phase = c.status.phase ∨ phase = .pending)
      (h : LeftAs c phase c.status.leaseExpiresAt left) : FailedPass c asked left
  | holding (hh : holdsLease c = true) (h : HeldFails c asked left) : FailedPass c asked left

/-- `Release` after a failed ReleaseVM. -/
theorem release_fails (h : Released ⟨b⟩ (Scope.new c) asked o) (hcalls : calls asked ≠ [])
    (hfail : AllFail [⟨Scope.new c, asked, o⟩]) :
    Mirrors (Scope.new c) o.scope ∧ Retrying b [⟨Scope.new c, asked, o⟩] := by
  cases h with
  | idle | done | unleased => exact absurd rfl hcalls
  | released _ _ _ ans hans =>
    obtain ⟨e, he, hor⟩ := hfail.head (m := ⟨.releaseVM _, ans⟩) rfl
    cases ans with
    | ok => cases he
    | error e' =>
      cases he
      rcases hor with ht | herr
      · have hn : failedInTransit (some e) = false := by simp [failedInTransit, hans e rfl]
        cases hn.symm.trans ht
      · exact absurd rfl herr
  | transit _ _ _ e ht now since times =>
    exact ⟨.called _ _, ⟨_, List.mem_cons_self, .inr ⟨_, rfl⟩⟩⟩
  | failed _ _ _ e hk ht =>
    exact ⟨.called _ _, ⟨_, List.mem_cons_self, .inl (by simp)⟩⟩

/-- `Bind` after a ClaimVM that failed: the scope has the call, and nothing else. -/
theorem bind_fails {b : Bind} {rest : List Step} (h : Bound b (Scope.new c) asked o)
    (hcalls : calls asked ≠ []) (hfail : AllFail (⟨Scope.new c, asked, o⟩ :: rest)) :
    Mirrors (Scope.new c) o.scope ∧ (o.err ≠ none ∨ o.result.stop = false) := by
  cases h with
  | idle | unread | gone | taken | poolUnread | poolDeleting | full => exact absurd rfl hcalls
  | claim _ fresh _ _ _ _ _ hs _ hc =>
    cases hc with
    | granted claimed now =>
      obtain ⟨e, he, -⟩ := hfail.head (m := ⟨.claimVM _ _, .ok claimed⟩) (calls_bind hs)
      cases he
    | pends e hp => exact ⟨.called _ _, .inr rfl⟩
    | failed e hp => exact ⟨.called _ _, .inl nofun⟩

/-- **Failed calls move nothing**: what the steps of such a reconcile left. -/
theorem failed_pass {r : MicroVMClaimReconciler} (h : Pass r c vs)
    (hcalls : (vs.flatMap fun v => calls v.asked) ≠ []) (hfail : AllFail vs) :
    FailedPass c (vs.flatMap Visit.asked) (Visit.leftScope (Scope.new c) vs) ∧
      Retrying (backoffOf r) vs := by
  cases h with
  | released hd asked o h =>
    obtain ⟨hm, hretry⟩ := release_fails h (by simpa using hcalls) hfail
    exact ⟨.releasing hd ((leftAs_new c).mirrors hm), hretry⟩
  | guarded | resting => exact absurd rfl hcalls
  | bind hd _ hl asked o h hend =>
    obtain ⟨hm, hor⟩ := bind_fails h (by simpa [idle] using hcalls) hfail.tail.tail
    refine ⟨.binding hd hl _ (.inl rfl) ((leftAs_new c).mirrors hm), ?_⟩
    refine ⟨_, List.mem_cons_of_mem _ (List.mem_cons_of_mem _ List.mem_cons_self), .inl ?_⟩
    rcases hor with herr | hstop
    · exact herr
    · rcases hend with herr | hstop'
      · exact herr
      · cases hstop.symm.trans hstop'
  | pending hd _ hl asked o h he hs reason message hp now w hw =>
    have hq : calls w.asked = [] := by
      rw [hw]
      rfl
    obtain ⟨hm, -⟩ := bind_fails h (by simpa [idle, hq] using hcalls) hfail.tail.tail
    have hleft := (leftAs_new c).mirrors hm
    refine ⟨.binding hd hl .pending (.inr rfl) ?_, ?_⟩
    · show LeftAs c .pending c.status.leaseExpiresAt w.outcome.scope
      rw [hw]
      exact ⟨hleft.original, hleft.unpatched,
        hleft.kept.trans ⟨rfl, rfl, rfl, rfl, rfl⟩, rfl, hleft.expiry⟩
    · refine ⟨w, List.mem_cons_of_mem _ (List.mem_cons_of_mem _ (List.mem_cons_of_mem _
        List.mem_cons_self)), .inr ⟨now - boundSince (pendingBy o.scope reason message now) now,
          ?_⟩⟩
      rw [hw]
  | held _ hh vs h =>
    have hcalls' : (vs.flatMap fun v => calls v.asked) ≠ [] := by
      simpa [List.replicate_succ, idle] using hcalls
    obtain ⟨hheld, hretry⟩ := held_fails hh h hcalls' hfail.tail.tail.tail.tail
    exact ⟨.holding hh hheld, hretry.tail.tail.tail.tail⟩

theorem after_pos (hmin : 0 < b.min) (hmax : 0 < b.max) (d : Duration) : 0 < b.after d := by
  show (0 : Int) < min (max (d : Int) b.min) b.max
  have h1 : (0 : Int) < b.min := hmin
  have h2 : (0 : Int) < b.max := hmax
  omega

/-- **The retry**: an error, or a delay. -/
theorem retries {r : MicroVMClaimReconciler} {perr : Option String} {res : Result × Option String}
    (h : Retrying (backoffOf r) vs) (hres : Returned vs c perr res) (hmin : 0 < (backoffOf r).min)
    (hmax : 0 < (backoffOf r).max) : res.2 ≠ none ∨ 0 < res.1.requeueAfter := by
  by_cases hnone : res.2 = none
  · obtain ⟨v, hv, herr | ⟨d, hd⟩⟩ := h
    · exact absurd (hres.err hnone).1 (Visit.left_err hv herr)
    · refine .inr (hres.delay hnone (Visit.left_pos hv ?_))
      rw [hd]
      exact after_pos hmin hmax d
  · exact .inl hnone

end BatteryOperator.Course
