/-
  Subject:   Two reconciles of two copies of one claim, given the same answers at the same places.

  The copies have the same Lease and may differ in conditions, the expiry and, without a Lease, the
  phase; what the API server shows of the claim and what the recovery knows of the Lease may differ
  too, within what a run of failed reconciles can change. The two then ask for the same operations
  place by place, and what battery answers is taken the same way.

  * `Twin`, `Alike` -- copies with the same Lease; statuses that agree in what a claim ends with;
  * `Along`, `visits_along` -- the steps that keep a Lease go along with each other;
  * `held_twin`, `unleased_twin` -- the claims with and without a Lease;
  * `pass_twin` -- **two reconciles that got battery's answers leave alike statuses**.
-/
import BatteryOperator.Claim.Failures

namespace BatteryOperator.Course

open Lib Prog

/-! ## 1. Twins -/

/-- The fields a claim ends with. -/
structure Alike (a b : MicroVMClaimStatus) : Prop where
  phase : a.phase = b.phase
  leaseID : a.leaseID = b.leaseID
  microVM : a.microVM = b.microVM
  nodeName : a.host.map HostReference.nodeName = b.host.map HostReference.nodeName
  observedRenewTime : a.observedRenewTime = b.observedRenewTime

theorem Alike.symm {a b : MicroVMClaimStatus} (h : Alike a b) : Alike b a :=
  ⟨h.phase.symm, h.leaseID.symm, h.microVM.symm, h.nodeName.symm, h.observedRenewTime.symm⟩

theorem Alike.trans {a b c : MicroVMClaimStatus} (h : Alike a b) (h' : Alike b c) : Alike a c :=
  ⟨h.phase.trans h'.phase, h.leaseID.trans h'.leaseID, h.microVM.trans h'.microVM,
    h.nodeName.trans h'.nodeName, h.observedRenewTime.trans h'.observedRenewTime⟩

/-- Statuses that keep what alike ones have. -/
theorem Alike.kept {a b st st' : MicroVMClaimStatus} (h : Alike a b) (hk : Kept a st)
    (hp : st.phase = a.phase) (hk' : Kept b st') (hp' : st'.phase = b.phase) : Alike st st' where
  phase := hp.trans (h.phase.trans hp'.symm)
  leaseID := hk.leaseID.trans (h.leaseID.trans hk'.leaseID.symm)
  microVM := hk.microVM.trans (h.microVM.trans hk'.microVM.symm)
  nodeName := hk.nodeName.trans (h.nodeName.trans hk'.nodeName.symm)
  observedRenewTime :=
    hk.observedRenewTime.trans (h.observedRenewTime.trans hk'.observedRenewTime.symm)

/-- Two copies of one claim that differ at most in the status and the resourceVersion, with the same
    Lease. -/
structure Twin (a b : MicroVMClaim) : Prop where
  object : a = { b with status := a.status, resourceVersion := a.resourceVersion }
  leaseID : a.status.leaseID = b.status.leaseID
  microVM : a.status.microVM = b.status.microVM
  nodeName : a.status.host.map HostReference.nodeName = b.status.host.map HostReference.nodeName
  observedRenewTime : a.status.observedRenewTime = b.status.observedRenewTime

namespace Twin

variable {a b : MicroVMClaim}

variable (h : Twin a b)
include h

/-- What depends on neither. -/
theorem same {α : Type} (g : MicroVMClaim → α)
    (hg : ∀ c st v, g { c with status := st, resourceVersion := v } = g c) : g a = g b :=
  (congrArg g h.object).trans (hg b _ _)

theorem uid : a.uid = b.uid := h.same (fun c => c.uid) fun _ _ _ => rfl

theorem key : a.key = b.key := h.same _ fun _ _ _ => rfl

theorem spec : a.spec = b.spec := h.same MicroVMClaim.spec fun _ _ _ => rfl

theorem poolOf : poolOf a = poolOf b := h.same _ fun _ _ _ => rfl

theorem poolKey : poolKey a = poolKey b := h.same _ fun _ _ _ => rfl

theorem deleting : a.deleting = b.deleting := h.same _ fun _ _ _ => rfl

theorem hasRelease : a.hasRelease = b.hasRelease := h.same _ fun _ _ _ => rfl

theorem pendingRenewal : pendingRenewal a = pendingRenewal b := by
  unfold BatteryOperator.pendingRenewal
  rw [h.spec, h.observedRenewTime]

theorem holdsLease (hph : a.status.phase = b.status.phase) : holdsLease a = holdsLease b := by
  unfold BatteryOperator.holdsLease
  rw [hph, h.leaseID, h.deleting]

/-- With other statuses that have the same Lease. -/
theorem withStatus {st st' : MicroVMClaimStatus} (hs : Alike st st') :
    Twin { a with status := st } { b with status := st' } :=
  ⟨congrArg (fun c : MicroVMClaim => { c with status := st }) h.object, hs.leaseID, hs.microVM,
    hs.nodeName, hs.observedRenewTime⟩

theorem alike (hph : a.status.phase = b.status.phase) : Alike a.status b.status :=
  ⟨hph, h.leaseID, h.microVM, h.nodeName, h.observedRenewTime⟩

end Twin

variable {sc sc' : Scope}

/-- The steps after battery's last answer keep twins alike. -/
theorem alike_of_mirrors {left left' : Scope} (h : Alike sc.object.status sc'.object.status)
    (hm : Mirrors sc left) (hm' : Mirrors sc' left') :
    Alike left.object.status left'.object.status :=
  h.kept hm.kept hm.phase hm'.kept hm'.phase

/-! ## 2. The same answers -/

/-- What a place of the run is answered: any function of the place and the operation. -/
abbrev Oracle := Nat → (o : Op) → o.Ans

/-- Not about the claim in the API server, nor about what the recovery knows. -/
def Outside : Op → Prop
  | .apiGet _ => False
  | .lookup _ => False
  | _ => True

/-- Every call was answered, with success or an error its step acts on. -/
def AllAnswered (asked : Trace) : Prop :=
  ∀ m ∈ calls asked, ∀ e, errorOf m.2 = some e → actsOn m.1 e = true

/-! ## 3. Steps in step -/

/-- Scopes of twins in one phase, where the expiry of both is to come or of neither. -/
structure Twins (f : Oracle) (sc sc' : Scope) : Prop where
  twin : Twin sc.object sc'.object
  phase : sc.object.status.phase = sc'.object.status.phase
  coming : pendingRenewal sc.object = false → ∀ n,
    comingExpiry sc.object (f n .now) = none ↔ comingExpiry sc'.object (f n .now) = none

/-- Two steps that leave twins, where the chain goes on after both or after neither. -/
structure Along (f : Oracle) (o o' : Outcome Scope) : Prop where
  goesOn : o.err = none ∧ o.result.stop = false ↔ o'.err = none ∧ o'.result.stop = false
  left : Twins f o.scope o'.scope

namespace Twins

variable {f : Oracle} (h : Twins f sc sc')

include h

theorem alike : Alike sc.object.status sc'.object.status := h.twin.alike h.phase

theorem holdsLease : holdsLease sc.object = holdsLease sc'.object := h.twin.holdsLease h.phase

/-- An expired claim has its Lease as before. -/
theorem expired (why why' : Why) (now now' : Time) :
    Twins f (expiredBy sc why now) (expiredBy sc' why' now') :=
  ⟨h.twin.withStatus { h.alike with phase := rfl }, rfl, h.coming⟩

theorem called (method : String) (e : Option BatteryError) :
    Twins f (sc.called method e) (sc'.called method e) := ⟨h.twin, h.phase, h.coming⟩

end Twins

section Twins

variable {f f' : Oracle} {n : Nat} {sc sc' : Scope} {vs vs' : List Step}

/-- Twins expire alike. -/
theorem inStep_expire {V : Outcome Scope → Outcome Scope → Prop} (ht : Twin sc.object sc'.object)
    (why : Why) (h : ∀ now now', V (.stopped (expiredBy sc why now))
      (.stopped (expiredBy sc' why now'))) :
    InStep f f' V
      (expire sc why >>= fun s => pure (.stopped s))
      (expire sc' why >>= fun s => pure (.stopped s)) := by
  refine .op fun n => ?_
  show InStep f f' V
    (.op (.logExpired sc.object.uid sc.object.status.leaseID why) fun _ =>
      .ret (.stopped (expiredBy sc why (f n .now))))
    (.op (.logExpired sc'.object.uid sc'.object.status.leaseID why) fun _ =>
      .ret (.stopped (expiredBy sc' why (f' n .now))))
  rw [ht.uid, ht.leaseID]
  exact .op fun _ => .ret (h _ _)

theorem expire_along (h : Twins f sc sc') (why : Why) :
    InStep f f' (Along f)
      (expire sc why >>= fun s => pure (.stopped s))
      (expire sc' why >>= fun s => pure (.stopped s)) :=
  inStep_expire h.twin why fun _ _ => ⟨.rfl, h.expired _ _ _ _⟩

/-- What ListLeases said. -/
theorem settle_along {now : Time} {leases : List LeaseRecord} (h : Twins f sc sc') :
    InStep f f' (Along f) (CheckExpiry.settle sc now leases)
      (CheckExpiry.settle sc' now leases) := by
  unfold CheckExpiry.settle
  rw [h.twin.leaseID]
  dsimp only
  split
  · exact expire_along h _
  · split
    · exact expire_along h _
    · exact .op fun _ => .ret ⟨.rfl, h.twin.withStatus { h.alike with }, h.phase,
        fun _ _ => .rfl⟩

/-- **The steps after `Recover`**, of twins. -/
theorem visits_along {subs : List (SubReconciler Code Scope)}
    (hsubs : ∀ sub ∈ subs, ∀ sc sc', Twins f sc sc' →
      InStep f f' (Along f) (sub sc) (sub sc')) (ht : Twins f sc sc')
    (h : Visits (subs ++ [AgentAddress.reconcile, HostReady.reconcile]) sc vs)
    (h' : Visits (subs ++ [AgentAddress.reconcile, HostReady.reconcile]) sc' vs')
    (ha : AnsweredFrom f n (vs.flatMap Visit.asked))
    (ha' : AnsweredFrom f' n (vs'.flatMap Visit.asked)) :
    Alike (Visit.leftScope sc vs).object.status (Visit.leftScope sc' vs').object.status := by
  induction subs generalizing sc sc' vs vs' n with
  | nil => exact alike_of_mirrors ht.alike (mirrors_of_last h).1 (mirrors_of_last h').1
  | cons sub subs ih =>
    obtain ⟨v, rest, rfl, rfl, hv, hrest⟩ := visits_cons h
    obtain ⟨v', rest', rfl, rfl, hv', hrest'⟩ := visits_cons h'
    rw [List.flatMap_cons] at ha ha'
    obtain ⟨hav, ha⟩ := answeredFrom_append.mp ha
    obtain ⟨hav', ha'⟩ := answeredFrom_append.mp ha'
    obtain ⟨hboth, hlen⟩ := (hsubs sub List.mem_cons_self _ _ ht).ends hv hv' hav hav'
    rw [← hlen] at ha'
    rcases hrest with ⟨hend, rfl⟩ | ⟨hgo, hvs⟩
    · rcases hrest' with ⟨-, rfl⟩ | ⟨hgo', -⟩
      · exact hboth.left.alike
      · exact absurd (hboth.goesOn.mpr hgo') hend
    · rcases hrest' with ⟨hend', -⟩ | ⟨-, hvs'⟩
      · exact absurd (hboth.goesOn.mp hgo) hend'
      · have hleft := ih (fun s hs => hsubs s (List.mem_cons_of_mem _ hs)) hboth.left hvs
          hvs' ha ha'
        exact hleft

/-- Where the first of two steps lets the chain go on, so does the second, after as many operations,
    and what they leave is related. -/
def Ahead (f f' : Oracle) (R : Scope → Scope → Prop) (p p' : Code (Outcome Scope)) : Prop :=
  ∀ n asked o asked' o', p.Ends asked o → p'.Ends asked' o' → AnsweredFrom f n asked →
    AnsweredFrom f' n asked' → o.err = none ∧ o.result.stop = false →
      (o'.err = none ∧ o'.result.stop = false) ∧ asked.length = asked'.length ∧ R o.scope o'.scope

/-- **A step before the first call**: both chains go on. -/
theorem visits_ahead {R : Scope → Scope → Prop} {sub : SubReconciler Code Scope}
    {subs : List (SubReconciler Code Scope)}
    (hquiet : ∀ {asked o}, (sub sc).Ends asked o → calls asked = [])
    (hsub : Ahead f f' R (sub sc) (sub sc')) (h : Visits (sub :: subs) sc vs)
    (h' : Visits (sub :: subs) sc' vs') (ha : AnsweredFrom f n (vs.flatMap Visit.asked))
    (ha' : AnsweredFrom f' n (vs'.flatMap Visit.asked))
    (hcalls : calls (vs.flatMap Visit.asked) ≠ []) :
    ∃ left left' vs1 vs1' m, R left left' ∧ Visits subs left vs1 ∧ Visits subs left' vs1' ∧
      AnsweredFrom f m (vs1.flatMap Visit.asked) ∧ AnsweredFrom f' m (vs1'.flatMap Visit.asked) ∧
      calls (vs1.flatMap Visit.asked) ≠ [] ∧
      Visit.leftScope sc vs = Visit.leftScope left vs1 ∧
      Visit.leftScope sc' vs' = Visit.leftScope left' vs1' := by
  obtain ⟨v, vs1, rfl, -, hv, hrest⟩ := visits_cons h
  obtain ⟨v', vs1', rfl, -, hv', hrest'⟩ := visits_cons h'
  rw [List.flatMap_cons] at ha ha' hcalls
  rw [calls_append, hquiet hv, List.nil_append] at hcalls
  obtain ⟨hav, ha⟩ := answeredFrom_append.mp ha
  obtain ⟨hav', ha'⟩ := answeredFrom_append.mp ha'
  rcases hrest with ⟨-, rfl⟩ | ⟨hgo, hvs⟩
  · exact absurd rfl hcalls
  · obtain ⟨hgo', hlen, hR⟩ := hsub _ _ _ _ _ hv hv' hav hav' hgo
    rcases hrest' with ⟨hend, -⟩ | ⟨-, hvs'⟩
    · exact absurd hgo' hend
    · rw [← hlen] at ha'
      exact ⟨_, _, vs1, vs1', _, hR, hvs, hvs', ha, ha', hcalls, rfl, rfl⟩

variable (hsame : ∀ n o, Outside o → f n o = f' n o)

include hsame

/-- A call that both make is answered alike. -/
theorem inStep_callBattery {α β : Type} {V : α → β → Prop} {uid : String} {call : Call}
    {k : Except BatteryError call.Answer → Code α} {k' : Except BatteryError call.Answer → Code β}
    (h : ∀ r, InStep f f' V (k r) (k' r)) :
    InStep f f' V (callBattery uid call >>= k) (callBattery uid call >>= k') := by
  refine .op fun _ => .op fun n => ?_
  rw [← hsame n (.receive uid call) trivial]
  exact h _

theorem renew_along {r : Renew} (h : Twins f sc sc') :
    InStep f f' (Along f) (r.reconcile sc) (r.reconcile sc') := by
  unfold Renew.reconcile
  rw [h.holdsLease, h.twin.pendingRenewal]
  split
  · exact .ret ⟨.rfl, h⟩
  · rw [h.twin.uid, h.twin.leaseID]
    refine inStep_callBattery hsame fun answer => ?_
    cases answer with
    | ok expiresAt =>
      refine .op fun _ => .ret ⟨.rfl, ?_, h.phase, fun _ _ => .rfl⟩
      exact h.twin.withStatus { h.alike with
        observedRenewTime := congrArg MicroVMClaimSpec.renewTime h.twin.spec }
    | error e =>
      dsimp only
      split
      · exact expire_along (h.called _ _) _
      · split
        · exact .op fun _ => .ret ⟨.rfl, h.called _ _⟩
        · exact .ret ⟨⟨nofun, nofun⟩, h.called _ _⟩

theorem checkExpiry_along {c : CheckExpiry} (h : Twins f sc sc') :
    InStep f f' (Along f) (c.reconcile sc) (c.reconcile sc') := by
  unfold CheckExpiry.reconcile
  rw [h.holdsLease]
  cases hp : pendingRenewal sc.object with
  | true =>
    rw [← h.twin.pendingRenewal, hp]
    simp only [Bool.or_true, if_true]
    exact .ret ⟨.rfl, h⟩
  | false =>
    rw [← h.twin.pendingRenewal, hp]
    split
    · exact .ret ⟨.rfl, h⟩
    · refine .op fun n => ?_
      have hcome := h.coming hp n
      rw [← hsame n .now trivial]
      cases hc : comingExpiry sc.object (f n .now) with
      | some exp =>
        cases hc' : comingExpiry sc'.object (f n .now) with
        | some exp' =>
          simp only [Prog.bind, hc, hc']
          exact .op fun _ => .ret ⟨.rfl, h⟩
        | none => cases (hcome.mpr hc').symm.trans hc
      | none =>
        simp only [Prog.bind, hc, hcome.mp hc]
        rw [h.twin.uid, h.twin.poolOf]
        refine inStep_callBattery hsame fun answer => ?_
        cases answer with
        | ok leases => exact settle_along (h.called _ _)
        | error e =>
          dsimp only
          split
          · exact .op fun _ => .ret ⟨.rfl, h.called _ _⟩
          · exact .ret ⟨⟨nofun, nofun⟩, h.called _ _⟩

variable {a b c : MicroVMClaim} {asked asked' : Trace} {o o' : Outcome Scope}
  {r : MicroVMClaimReconciler}

/-- **ExpireDeleted**: it ends the chain, or leaves both as they were. -/
theorem expireDeleted_ahead (ht : Twin a b) (hph : a.status.phase = b.status.phase) :
    Ahead f f' (fun sc sc' => sc = Scope.new a ∧ sc' = Scope.new b)
      (ExpireDeleted.reconcile (Scope.new a)) (ExpireDeleted.reconcile (Scope.new b)) := by
  have hh : holdsLease (Scope.new a).object = holdsLease (Scope.new b).object := ht.holdsLease hph
  have hvm : (Scope.new a).object.status.microVM = (Scope.new b).object.status.microVM := ht.microVM
  have hstep : InStep f f'
      (fun o o' => o.result.stop = true ∨ o.scope = Scope.new a ∧ o' = { scope := Scope.new b })
      (ExpireDeleted.reconcile (Scope.new a)) (ExpireDeleted.reconcile (Scope.new b)) := by
    unfold ExpireDeleted.reconcile
    rw [hh, hvm]
    split
    · exact .ret (.inr ⟨rfl, rfl⟩)
    · split
      · exact .ret (.inr ⟨rfl, rfl⟩)
      next microVM _ =>
        refine .op fun n => ?_
        rw [← hsame n (.deletedHas microVM.uid) trivial]
        cases f n (.deletedHas microVM.uid) with
        | false => exact .ret (.inr ⟨rfl, rfl⟩)
        | true => exact inStep_expire ht _ fun _ _ => .inl rfl
  intro n asked o asked' o' h h' ha ha' hgo
  obtain ⟨hstop | ⟨hsc, rfl⟩, hlen⟩ := hstep.ends h h' ha ha'
  · cases hgo.2.symm.trans hstop
  · exact ⟨⟨rfl, rfl⟩, hlen, hsc, rfl⟩

omit hsame in
/-- **Recover**: the Lease is missing, or it leaves what it looked up. -/
theorem recovered_answered (hh : holdsLease c = true) (h : Recovered (Scope.new c) asked o)
    (ha : AnsweredFrom f n asked) :
    o.result.stop = true ∧ f n (.lookup c.status.leaseID) = some none ∨
      (o.err = none ∧ o.result.stop = false) ∧ f n (.lookup c.status.leaseID) ≠ some none ∧
      asked.length = 1 ∧ o.scope.object.spec = c.spec ∧
      LeftAs c c.status.phase
        (raised c.status.leaseExpiresAt (f n (.lookup c.status.leaseID))) o.scope := by
  cases h with
  | idle hidle => cases hh.symm.trans hidle
  | missing => exact .inl ⟨rfl, ha.1.symm⟩
  | unknown =>
    have hans : none = f n (.lookup c.status.leaseID) := ha.1
    rw [← hans]
    exact .inr ⟨⟨rfl, rfl⟩, nofun, rfl, rfl, leftAs_new c⟩
  | listed _ rec =>
    have hans : some (some rec) = f n (.lookup c.status.leaseID) := ha.1
    rw [← hans]
    exact .inr ⟨⟨rfl, rfl⟩, nofun, rfl, rfl, rfl, rfl, ⟨rfl, rfl, rfl, rfl, rfl⟩, rfl, rfl⟩

section Held

variable (ht : Twin a b) (hph : a.status.phase = b.status.phase) (hh : holdsLease a = true)
  (hknown : ∀ n, f n (.lookup b.status.leaseID) ≠ some none →
    f' n (.lookup b.status.leaseID) ≠ some none)
  (hcoming : pendingRenewal b = false → ∀ n m,
    NotAfter (raised a.status.leaseExpiresAt (f n (.lookup b.status.leaseID))) (f m .now) ↔
      NotAfter (raised b.status.leaseExpiresAt (f' n (.lookup b.status.leaseID))) (f m .now))
include ht hph hh hknown hcoming

omit hsame in
theorem recover_ahead :
    Ahead f f' (Twins f) (Recover.reconcile (Scope.new a)) (Recover.reconcile (Scope.new b)) := by
  intro n asked o asked' o' h h' ha ha' hgo
  rcases recovered_answered hh (recover_ends h) ha with ⟨hstop, -⟩ | ⟨-, hk, hlen, hspec, hleft⟩
  · cases hgo.2.symm.trans hstop
  rw [ht.leaseID] at hk hleft
  have hhb : holdsLease b = true := (ht.holdsLease hph).symm.trans hh
  rcases recovered_answered hhb (recover_ends h') ha' with
    ⟨-, hmissing⟩ | ⟨hgo', -, hlen', -, hleft'⟩
  · exact absurd hmissing (hknown n hk)
  have halike := (ht.alike hph).kept hleft.kept hleft.phase hleft'.kept hleft'.phase
  refine ⟨hgo', hlen.trans hlen'.symm, ?_, halike.phase, ?_⟩
  · rw [hleft.object, hleft'.object]
    exact ht.withStatus halike
  · intro hp m
    have hpb : pendingRenewal b = false :=
      ht.pendingRenewal.symm.trans ((hleft.pendingRenewal hspec).symm.trans hp)
    rw [comingExpiry_eq_none, comingExpiry_eq_none, hleft.expiry, hleft'.expiry]
    exact hcoming hpb _ _

/-- **The claim that holds its Lease.** The two reconciles may have read different expiries, as long
    as both are to come or neither. -/
theorem held_twin {bo : Backoff} (h : Visits (heldSteps bo) (Scope.new a) vs)
    (h' : Visits (heldSteps bo) (Scope.new b) vs')
    (ha : AnsweredFrom f 0 (vs.flatMap Visit.asked))
    (ha' : AnsweredFrom f' 0 (vs'.flatMap Visit.asked))
    (hcalls : calls (vs.flatMap Visit.asked) ≠ []) :
    Alike (Visit.leftScope (Scope.new a) vs).object.status
      (Visit.leftScope (Scope.new b) vs').object.status := by
  obtain ⟨_, _, vs1, vs1', m, ⟨rfl, rfl⟩, h1, h1', ha1, ha1', hc1, hleft, hleft'⟩ :=
    visits_ahead (fun h => calls_of_deleted (expireDeleted_ends h))
      (expireDeleted_ahead hsame ht hph) h h' ha ha' hcalls
  rw [hleft, hleft']
  obtain ⟨_, _, vs2, vs2', m, ht2, h2, h2', ha2, ha2', -, hleft, hleft'⟩ :=
    visits_ahead (fun h => calls_of_recovered (recover_ends h))
      (recover_ahead ht hph hh hknown hcoming) h1 h1' ha1 ha1' hc1
  rw [hleft, hleft']
  have hsubs : ∀ sub ∈ [Renew.reconcile ⟨bo⟩, CheckExpiry.reconcile ⟨bo⟩], ∀ sc sc',
      Twins f sc sc' → InStep f f' (Along f) (sub sc) (sub sc') := by
    intro sub hsub sc sc' h
    simp only [List.mem_cons, List.not_mem_nil, or_false] at hsub
    rcases hsub with rfl | rfl
    · exact renew_along hsame h
    · exact checkExpiry_along hsame h
  exact visits_along hsubs ht2 h2 h2' ha2 ha2'

end Held

/-- How two ClaimVMs with one answer end. -/
inductive ClaimedAlike (a b : MicroVMClaim) (o o' : Outcome Scope) : Prop where
  | granted (claimed : Claim) (now now' : Time)
      (h : o = .stopped (boundBy (Scope.new a) claimed now))
      (h' : o' = .stopped (boundBy (Scope.new b) claimed now')) :
      ClaimedAlike a b o o'
  | pends (e : BatteryError) (h : o = { scope := (Scope.new a).called methodClaimVM (some e) })
      (h' : o' = { scope := (Scope.new b).called methodClaimVM (some e) }) : ClaimedAlike a b o o'

omit hsame in
/-- Pending takes up the errors that `Bind` acts on. -/
theorem pends_of_acts {pool : PoolRef} {rid : String} {e : BatteryError}
    (h : actsOn (.claimVM pool rid) e = true) : pends e = true := by
  simp only [actsOn, Bool.or_eq_true] at h
  simp only [pends, Bool.or_eq_true]
  exact .inl h

/-- The ClaimVM. -/
theorem claim_twin {fresh fresh' : MicroVMClaim} (ht : Twin a b) (hu : fresh.uid = fresh'.uid)
    (h : Claimed (Scope.new a) fresh asked o) (h' : Claimed (Scope.new b) fresh' asked' o')
    (ha : AnsweredFrom f n asked) (ha' : AnsweredFrom f' n asked')
    (hanswered : AllAnswered asked) : ClaimedAlike a b o o' := by
  have hans : ∀ {e : BatteryError}, calls asked =
      [⟨.claimVM (poolOf a) fresh.uid, .error e⟩] →
        actsOn (.claimVM (poolOf a) fresh.uid) e = true := by
    intro e hm
    refine hanswered ⟨.claimVM (poolOf a) fresh.uid, .error e⟩ ?_ e rfl
    rw [hm]
    exact List.mem_singleton_self _
  have hboth : ∀ r, r = f (n + 1) (.receive a.uid (.claimVM (poolOf a) fresh.uid)) →
      r = f' (n + 1) (.receive b.uid (.claimVM (poolOf b) fresh'.uid)) := by
    intro r hr
    rw [← ht.uid, ← ht.poolOf, ← hu]
    exact hr.trans (hsame _ (.receive a.uid _) trivial)
  cases h with
  | granted claimed now =>
    have hX := hboth (.ok claimed) ha.2.1
    cases h' with
    | granted claimed' now' =>
      cases hX.trans (Eq.symm ha'.2.1)
      exact .granted claimed now now' rfl rfl
    | pends | failed => cases hX.trans (Eq.symm ha'.2.1)
  | pends e hp =>
    have hX := hboth (.error e) ha.2.1
    cases h' with
    | granted => cases hX.trans (Eq.symm ha'.2.1)
    | pends e' =>
      cases hX.trans (Eq.symm ha'.2.1)
      exact .pends e rfl rfl
    | failed e' hp' =>
      cases hX.trans (Eq.symm ha'.2.1)
      cases hp.symm.trans hp'
  | failed e hp => cases hp.symm.trans (pends_of_acts (hans rfl))

/-- **Bind**, where it made a ClaimVM that battery answered. -/
theorem bind_twin {bi : Bind} (ht : Twin a b) (hl : a.status.leaseID = "")
    (hfresh : ∀ n key fresh, f n (.apiGet key) = .ok fresh →
      ∃ fresh', f' n (.apiGet key) = .ok fresh' ∧ free fresh' = true ∧ fresh.uid = fresh'.uid)
    (h : Bound bi (Scope.new a) asked o) (h' : Bound bi (Scope.new b) asked' o')
    (ha : AnsweredFrom f 0 asked) (ha' : AnsweredFrom f' 0 asked')
    (hcalls : calls asked ≠ []) (hanswered : AllAnswered asked) : ClaimedAlike a b o o' := by
  cases h with
  | idle hl' => exact absurd hl hl'
  | unread | gone | taken | poolUnread | poolDeleting | full => exact absurd rfl hcalls
  | claim _ fresh _ pool hpool askedC slotted hs o hc =>
    have hX : Except.ok fresh = f 0 (.apiGet a.key) := ha.1
    have hXpool : pool = f' 1 (.poolGet (poolKey b)) := by
      rw [← ht.poolKey]
      exact Eq.trans ha.2.1 (hsame _ (.poolGet _) trivial)
    obtain ⟨fresh', hY, hfree, hu⟩ := hfresh 0 a.key fresh hX.symm
    rw [ht.key] at hY
    cases h' with
    | idle hl' => exact absurd (ht.leaseID.symm.trans hl) hl'
    | unread _ e | gone _ e =>
      have hY' : Except.error e = f' 0 (.apiGet b.key) := ha'.1
      cases hY'.trans hY
    | taken _ fresh'' hnot =>
      have hY' : Except.ok fresh'' = f' 0 (.apiGet b.key) := ha'.1
      cases hY'.trans hY
      cases hfree.symm.trans hnot
    | poolUnread _ _ _ e hn =>
      cases hXpool.trans (Eq.symm ha'.2.1)
      cases hpool.symm.trans hn
    | poolDeleting _ _ _ pool' hp =>
      cases hXpool.trans (Eq.symm ha'.2.1)
      simp only [poolStays] at hpool
      cases hdel : pool'.deletionTimestamp <;> simp [hdel] at hp hpool
    | full _ _ _ _ _ m hm =>
      rw [hm] at hs
      cases hs with
      | taken => cases (Eq.trans ha.2.2.1 (hsame _ _ trivial)).trans (Eq.symm ha'.2.2.1)
    | claim _ fresh'' _ pool' _ askedC' slotted' hs' o' hc' =>
      have hY' : Except.ok fresh'' = f' 0 (.apiGet b.key) := ha'.1
      cases hY'.trans hY
      rw [AllAnswered, calls_bind hs] at hanswered
      generalize bi.slots = slots at hs hs'
      cases hs with
      | unbounded =>
        cases hs' with
        | unbounded => exact claim_twin hsame ht hu hc hc' ha.2.2 ha'.2.2 hanswered
      | taken m =>
        cases hs' with
        | taken =>
          exact claim_twin hsame ht hu hc hc' (answeredFrom_append.mp ha.2.2.2).1
            (answeredFrom_append.mp ha'.2.2.2).1 hanswered

omit hsame in
/-- `Release` leaves the status alone. -/
theorem released_status {r : Release} (h : Released r sc asked o) :
    o.scope.object.status = sc.object.status := by
  cases h <;> rfl

omit hsame in
/-- **A claim without a Lease** is for `Bind`, which ends the chain or leaves the claim to
    `Pending`. -/
theorem Pass.unleased (h : Pass r c vs) (hd : c.deleting = false) (hr : c.hasRelease = true)
    (hl : c.status.leaseID = "") :
    ∃ asked o last, Bound { slots := r.slots } (Scope.new c) asked o ∧
      vs.flatMap Visit.asked = asked ++ last ∧ calls last = [] ∧
      ((o.err ≠ none ∨ o.result.stop = true) ∧ Visit.leftScope (Scope.new c) vs = o.scope ∨
        o.result.stop = false ∧ ∃ reason message now,
          Visit.leftScope (Scope.new c) vs = pendingBy o.scope reason message now) := by
  cases h with
  | released hd' => cases hd.symm.trans hd'
  | guarded _ hr' => cases hr.symm.trans hr'
  | resting _ _ hl' => exact absurd hl hl'
  | held _ hh => exact absurd hl (holdsLease_iff.mp hh).2.1
  | bind _ _ _ asked o h hend =>
    exact ⟨asked, o, [], h, by simp [idle], rfl, .inl ⟨hend, rfl⟩⟩
  | pending _ _ _ asked o h _ hs reason message _ now w hw =>
    subst hw
    exact ⟨asked, o, [⟨.now, now⟩], h, by simp [idle, List.replicate_succ], rfl,
      .inr ⟨hs, reason, message, now, rfl⟩⟩

omit hsame in
/-- A claim without a Lease whose ClaimVM was answered is Bound or Pending. -/
theorem answered_phase (hd : c.deleting = false) (hr : c.hasRelease = true)
    (hl : c.status.leaseID = "") (h : Pass r c vs) (hcalls : calls (vs.flatMap Visit.asked) ≠ [])
    (hanswered : AllAnswered (vs.flatMap Visit.asked)) :
    (Visit.leftScope (Scope.new c) vs).object.status.phase ≠ .empty := by
  obtain ⟨asked, o, last, hb, hsum, hq, hend⟩ := h.unleased hd hr hl
  rw [AllAnswered, hsum, calls_append, hq, List.append_nil] at hanswered
  rw [hsum, calls_append, hq, List.append_nil] at hcalls
  rcases hend with ⟨hend, hleft⟩ | ⟨-, reason, message, now, hleft⟩
  · rw [hleft]
    cases hb with
    | idle hl' => exact absurd hl hl'
    | unread | gone | taken | poolUnread | poolDeleting | full => exact absurd rfl hcalls
    | claim _ fresh _ _ _ _ _ hslot _ hc =>
      rw [calls_bind hslot] at hanswered
      cases hc with
      | granted claimed now =>
        intro hempty
        cases hempty
      | pends e hp =>
        rcases hend with hn | hn
        · exact absurd rfl hn
        · cases hn
      | failed e hp =>
        have hacts := hanswered ⟨.claimVM _ fresh.uid, .error e⟩ List.mem_cons_self e rfl
        cases hp.symm.trans (pends_of_acts hacts)
  · rw [hleft]
    intro hempty
    cases hempty

variable (ht : Twin a b) (h : Pass r a vs) (h' : Pass r b vs')
  (ha : AnsweredFrom f 0 (vs.flatMap Visit.asked))
  (ha' : AnsweredFrom f' 0 (vs'.flatMap Visit.asked))
  (hcalls : calls (vs.flatMap Visit.asked) ≠ []) (hanswered : AllAnswered (vs.flatMap Visit.asked))
include ht h h' ha ha' hcalls hanswered

/-- **The claims without a Lease.** -/
theorem unleased_twin (hd : a.deleting = false) (hr : a.hasRelease = true)
    (hl : a.status.leaseID = "") (hfresh : ∀ n key fresh, f n (.apiGet key) = .ok fresh →
      ∃ fresh', f' n (.apiGet key) = .ok fresh' ∧ free fresh' = true ∧ fresh.uid = fresh'.uid) :
    Alike (Visit.leftScope (Scope.new a) vs).object.status
      (Visit.leftScope (Scope.new b) vs').object.status := by
  obtain ⟨asked, o, last, hb, hsum, hq, hend⟩ := h.unleased hd hr hl
  obtain ⟨asked', o', last', hb', hsum', -, hend'⟩ := h'.unleased (ht.deleting.symm.trans hd)
    (ht.hasRelease.symm.trans hr) (ht.leaseID.symm.trans hl)
  rw [AllAnswered, hsum, calls_append, hq, List.append_nil] at hanswered
  rw [hsum, calls_append, hq, List.append_nil] at hcalls
  rw [hsum] at ha
  rw [hsum'] at ha'
  cases bind_twin hsame ht hl hfresh hb hb' (answeredFrom_append.mp ha).1
    (answeredFrom_append.mp ha').1 hcalls hanswered with
  | granted claimed now now' hX hY =>
    subst hX hY
    rcases hend with ⟨-, hleft⟩ | ⟨hgo, -⟩
    · rcases hend' with ⟨-, hleft'⟩ | ⟨hgo, -⟩
      · rw [hleft, hleft']
        exact ⟨rfl, rfl, rfl, rfl, congrArg MicroVMClaimSpec.renewTime ht.spec⟩
      · cases hgo
    · cases hgo
  | pends e hX hY =>
    subst hX hY
    rcases hend with ⟨hn, -⟩ | ⟨-, reason, message, now, hleft⟩
    · simp at hn
    · rcases hend' with ⟨hn, -⟩ | ⟨-, reason', message', now', hleft'⟩
      · simp at hn
      · rw [hleft, hleft']
        exact ⟨rfl, ht.leaseID, ht.microVM, ht.nodeName, ht.observedRenewTime⟩

/-- **Two reconciles of twins**, one of which got answers from battery. -/
theorem pass_twin
    (hph : b.deleting = true ∨ b.status.leaseID ≠ "" → a.status.phase = b.status.phase)
    (hfresh : b.status.leaseID = "" → b.deleting = false → b.hasRelease = true →
      ∀ n key fresh, f n (.apiGet key) = .ok fresh →
        ∃ fresh', f' n (.apiGet key) = .ok fresh' ∧ free fresh' = true ∧ fresh.uid = fresh'.uid)
    (hknown : holdsLease b = true → ∀ n, f n (.lookup b.status.leaseID) ≠ some none →
      f' n (.lookup b.status.leaseID) ≠ some none)
    (hcoming : holdsLease b = true → pendingRenewal b = false → ∀ n m,
      NotAfter (raised a.status.leaseExpiresAt (f n (.lookup b.status.leaseID))) (f m .now) ↔
        NotAfter (raised b.status.leaseExpiresAt (f' n (.lookup b.status.leaseID))) (f m .now)) :
    Alike (Visit.leftScope (Scope.new a) vs).object.status
      (Visit.leftScope (Scope.new b) vs').object.status := by
  by_cases hu : a.deleting = false ∧ a.hasRelease = true ∧ a.status.leaseID = ""
  · obtain ⟨hd, hr, hl⟩ := hu
    exact unleased_twin hsame ht h h' ha ha' hcalls hanswered hd hr hl
      (hfresh (ht.leaseID.symm.trans hl) (ht.deleting.symm.trans hd) (ht.hasRelease.symm.trans hr))
  cases h with
  | bind hd hr hl | pending hd hr hl => exact absurd ⟨hd, hr, hl⟩ hu
  | released hd asked o h =>
    have hdb := ht.deleting.symm.trans hd
    have halike := ht.alike (hph (.inl hdb))
    cases h' with
    | released _ asked' o' h' =>
      show Alike o.scope.object.status o'.scope.object.status
      rw [released_status h, released_status h']
      exact halike
    | guarded hd' | bind hd' | pending hd' | resting hd' => cases hdb.symm.trans hd'
    | held _ hh => cases hdb.symm.trans (holdsLease_iff.mp hh).2.2
  | guarded | resting => exact absurd rfl hcalls
  | held hr hh vs h =>
    have hphase := hph (.inr ?_)
    · have hhb : holdsLease b = true := (ht.holdsLease hphase).symm.trans hh
      have hfour : ∀ (sc : Scope) (ws : List Step),
          (List.replicate 4 (idle sc) ++ ws).flatMap Visit.asked = ws.flatMap Visit.asked := by
        intro sc ws
        simp [List.replicate_succ, idle]
      rw [hfour] at ha hcalls hanswered
      cases h' with
      | released hd' => cases (holdsLease_iff.mp hhb).2.2.symm.trans hd'
      | guarded _ hr' => cases (ht.hasRelease.symm.trans hr).symm.trans hr'
      | bind _ _ hl' | pending _ _ hl' => exact absurd hl' (holdsLease_iff.mp hhb).2.1
      | resting _ _ _ hph' => exact absurd (holdsLease_iff.mp hhb).1 hph'
      | held _ _ vs' h' =>
        rw [hfour] at ha'
        have halike := held_twin hsame ht hphase hh (hknown hhb) (hcoming hhb) h h' ha ha' hcalls
        exact halike
    · rw [← ht.leaseID]
      exact (holdsLease_iff.mp hh).2.1

end Twins

end BatteryOperator.Course
