/-
  Subject:   Whether the Synced condition agrees with how a step treated the call it made.

  A call's end is read twice: by the step that made it, which knows the method, and by `Synced`,
  which does not look at it. The step acts on the answer, keeps the claim as it is for a retry, or
  returns the error to the work queue; `answered` and `failedInTransit` tell the same three apart by
  the error alone.

  * `Treats` -- what a step did with the end of its call;
  * `chain_treats` -- the scope a chain leaves has the last call, and its step treated it;
  * `misread` -- the errors the two read differently: answers to `Synced`, and returned by the step;
  * `synced_agrees` -- **they agree exactly if the last call did not end with one of these**.
-/
import BatteryOperator.Claim.Passes

namespace BatteryOperator.Course

open Lib

/-! ## 1. How the end of a call is treated -/

/-- The method of a call. -/
def methodOf : Call → String
  | .claimVM _ _ => methodClaimVM
  | .heartbeat _ => methodHeartbeat
  | .releaseVM _ => methodReleaseVM
  | .listLeases _ => methodListLeases

/-- What the scope keeps of a call. -/
def recorded (m : Made) : BatteryCall := ⟨methodOf m.1, errorOf m.2⟩

/-- The errors of a call that the steps act on. -/
def actsOn : Call → BatteryError → Bool
  | .claimVM _ _, e => e.kind = .exhausted || e.kind = .notFound || e.kind = .aborted
  | .heartbeat _, e => e.kind = .notFound
  | .releaseVM _, e => e.kind = .notFound
  | .listLeases _, _ => false

/-- The status and the reason of a condition of the working copy. -/
def conditionOf (sc : Scope) (type : ClaimCondition) : Option (ConditionStatus × String) :=
  (findStatusCondition sc.object.status.conditions type).map fun c => (c.status, c.reason)

theorem conditionOf_set_same (sc : Scope) (type : ClaimCondition) (status : ConditionStatus)
    (reason message : String) (now : Time) :
    conditionOf (sc.setCondition type status reason message now) type = some (status, reason) := by
  have hfind := findStatusCondition_set_same sc.object.status.conditions
    ⟨type, status, reason, message, sc.object.generation, now⟩
  refine (congrArg (Option.map _) hfind).trans ?_
  cases findStatusCondition sc.object.status.conditions type <;> rfl

theorem conditionOf_set_other (sc : Scope) {type type' : ClaimCondition} (hne : type ≠ type')
    (status : ConditionStatus) (reason message : String) (now : Time) :
    conditionOf (sc.setCondition type status reason message now) type' = conditionOf sc type' :=
  congrArg (Option.map _) (findStatusCondition_set_other _ _ hne)

/-- The claim is kept Pending for this reason. -/
def KeptPending (sc : Scope) (reason : String) : Prop :=
  sc.object.status.phase = .pending ∧ conditionOf sc .bound = some (.false, reason)

/-- **The end of the call was an answer**: the step bound the claim, renewed or listed its Lease,
    expired or released it, or the claim was kept Pending for what battery said. `left` is the scope
    at the end. -/
def TreatedAsAnswer (v : Step) (left : Scope) (m : Made) : Prop :=
  v.outcome.err = none ∧
    match m with
    | ⟨.claimVM _ _, .ok claimed⟩ =>
      v.outcome.scope.object.status.phase = .bound ∧
        v.outcome.scope.object.status.leaseID = claimed.leaseID
    | ⟨.claimVM _ _, .error _⟩ =>
      ∃ reason ∈ [reasonPoolExhausted, reasonPoolNotFound, reasonClaimAborted],
        KeptPending left reason
    | ⟨.heartbeat _, .ok expiresAt⟩ =>
      v.outcome.scope.object.status.leaseExpiresAt = some expiresAt ∧
        v.outcome.scope.object.status.observedRenewTime = v.before.object.spec.renewTime
    | ⟨.heartbeat _, .error _⟩ => v.outcome.scope.object.status.phase = .expired
    | ⟨.listLeases _, .ok leases⟩ =>
      v.outcome.scope.object.status.phase = .expired ∨
        ∃ rec ∈ leases, v.outcome.scope.object.status.leaseExpiresAt = some rec.expiresAt
    | ⟨.listLeases _, .error _⟩ => False
    | ⟨.releaseVM _, _⟩ => v.outcome.scope.object.hasRelease = false

/-- **The call failed in transit**: the step kept the claim as it was and returned no error; a claim
    without a Lease is kept Pending for want of an answer. -/
def TreatedInTransit (v : Step) (left : Scope) (m : Made) : Prop :=
  v.outcome.err = none ∧ v.outcome.scope.object = v.before.object ∧
    ∀ pool rid, m.1 = .claimVM pool rid → KeptPending left reasonBatteryUnavailable

/-- What a step did with the end of its call. -/
structure Treats (v : Step) (left : Scope) (m : Made) : Prop where
  made : calls v.asked = [m]
  last : left.batteryCall = some (recorded m)
  answer : (∀ e, errorOf m.2 = some e → actsOn m.1 e = true) →
    TreatedAsAnswer v left m ∧ ¬ TreatedInTransit v left m
  transit : ∀ e, errorOf m.2 = some e → failedInTransit (some e) = true →
    TreatedInTransit v left m
  returned : ∀ e, errorOf m.2 = some e → actsOn m.1 e = false →
    failedInTransit (some e) = false → v.outcome.err ≠ none

/-- What the steps act on is an answer of battery's. -/
theorem answer_of_actsOn {call : Call} {e : BatteryError} (h : actsOn call e = true) :
    failedInTransit (some e) = false ∧ answered (some e) = true := by
  cases call <;> simp only [actsOn, Bool.or_eq_true, decide_eq_true_eq, Bool.false_eq_true] at h
  · rcases h with (h | h) | h <;> simp [failedInTransit, answered, h]
  · simp [failedInTransit, answered, h]
  · simp [failedInTransit, answered, h]

section Constructors

variable {v : Step} {left : Scope} {m : Made}

section Answered

variable (hmade : calls v.asked = [m]) (hlast : left.batteryCall = some (recorded m))
include hmade hlast

/-- The step acted on the answer, and not by keeping the claim as it was. -/
theorem Treats.of_answer (hacts : ∀ e, errorOf m.2 = some e → actsOn m.1 e = true)
    (ha : TreatedAsAnswer v left m) (hn : ¬ TreatedInTransit v left m) : Treats v left m where
  made := hmade
  last := hlast
  answer _ := ⟨ha, hn⟩
  transit e he ht := by
    simp [(answer_of_actsOn (hacts e he)).1] at ht
  returned e he hf := by
    simp [hacts e he] at hf

/-- The call failed in transit, and the claim is as it was. -/
theorem Treats.of_transit {e : BatteryError} (he : errorOf m.2 = some e)
    (ht : failedInTransit (some e) = true) (h : TreatedInTransit v left m) : Treats v left m where
  made := hmade
  last := hlast
  answer hacts := by
    simp [(answer_of_actsOn (hacts e he)).1] at ht
  transit _ _ _ := h
  returned e' he' _ ht' := by
    cases he.symm.trans he'
    simp [ht] at ht'

/-- The error was returned. -/
theorem Treats.of_returned {e : BatteryError} (he : errorOf m.2 = some e)
    (hacts : actsOn m.1 e = false) (ht : failedInTransit (some e) = false)
    (h : v.outcome.err ≠ none) : Treats v left m where
  made := hmade
  last := hlast
  answer hall := by
    simp [hall e he] at hacts
  transit e' he' ht' := by
    cases he.symm.trans he'
    simp [ht] at ht'
  returned _ _ _ _ := h

end Answered

/-- A step that changed something of the claim did not keep it as it was. -/
theorem not_transit_of_ne {β : Type} (part : MicroVMClaim → β)
    (hne : part v.outcome.scope.object ≠ part v.before.object) : ¬ TreatedInTransit v left m := by
  rintro ⟨-, hkept, -⟩
  exact hne (congrArg part hkept)

/-- What the later steps left matters only for a ClaimVM, in what keeps the claim Pending. -/
theorem Treats.later {left' : Scope} (h : Treats v left m)
    (hkept : ∀ pool rid, m.1 = .claimVM pool rid → ∀ reason,
      KeptPending left' reason ↔ KeptPending left reason)
    (hcall : left'.batteryCall = left.batteryCall) : Treats v left' m := by
  have hanswer : TreatedAsAnswer v left' m ↔ TreatedAsAnswer v left m := by
    obtain ⟨call, ans⟩ := m
    cases call with
    | claimVM pool rid =>
      cases ans with
      | ok => rfl
      | error => simp only [TreatedAsAnswer, hkept pool rid rfl]
    | heartbeat | listLeases => cases ans <;> rfl
    | releaseVM => rfl
  have htransit : TreatedInTransit v left' m ↔ TreatedInTransit v left m :=
    and_congr_right fun _ => and_congr_right fun _ =>
      forall₃_congr fun pool rid hm => hkept pool rid hm _
  refine ⟨h.made, hcall.trans h.last, fun hacts => ?_, fun e he ht => ?_, h.returned⟩
  · rw [hanswer, htransit]
    exact h.answer hacts
  · rw [htransit]
    exact h.transit e he ht

end Constructors

/-! ## 2. The steps that call battery -/

variable {sc : Scope} {asked : Trace} {o : Outcome Scope} {v : Step} {vs : List Step}

/-- What a step that makes at most one call, and no ClaimVM, does with it. -/
def Own (sc : Scope) (asked : Trace) (o : Outcome Scope) : Prop :=
  (calls asked = [] ∧ o.scope.batteryCall = sc.batteryCall) ∨
    ∃ m, (∀ pool rid, m.1 ≠ .claimVM pool rid) ∧ Treats ⟨sc, asked, o⟩ o.scope m

theorem own_of_released {r : Release} (h : Released r sc asked o) : Own sc asked o := by
  cases h with
  | idle | done | unleased => exact .inl ⟨rfl, rfl⟩
  | released _ hr _ ans hans =>
    have hgone : (sc.called methodReleaseVM (errorOf ans)).removeFinalizer.object.hasRelease =
        false := by
      simp [Scope.removeFinalizer, MicroVMClaim.removeFinalizer, MicroVMClaim.hasRelease]
    refine .inr ⟨⟨.releaseVM sc.object.status.leaseID, ans⟩, nofun,
      .of_answer rfl rfl (fun e he => ?_) ⟨rfl, hgone⟩ ?_⟩
    · cases ans with
      | ok a => cases he
      | error e' =>
        cases he
        exact decide_eq_true (hans _ rfl)
    · refine not_transit_of_ne MicroVMClaim.hasRelease fun hsame => ?_
      cases hgone.symm.trans (hsame.trans hr)
  | transit _ _ _ e ht now since times =>
    have hmade : calls (exchange sc.object.uid (.releaseVM sc.object.status.leaseID) (.error e) ++
        ⟨.now, now⟩ :: times.map (⟨.now, ·⟩)) =
          [⟨.releaseVM sc.object.status.leaseID, .error e⟩] := by
      have htimes : calls (times.map (⟨.now, ·⟩)) = [] := by
        induction times with
        | nil => rfl
        | cons t ts ih => exact ih
      rw [calls_append, calls_cons, htimes]
      rfl
    exact .inr ⟨⟨.releaseVM sc.object.status.leaseID, .error e⟩, nofun,
      .of_transit hmade rfl rfl ht ⟨rfl, rfl, nofun⟩⟩
  | failed _ _ _ e hk ht =>
    exact .inr ⟨⟨.releaseVM sc.object.status.leaseID, .error e⟩, nofun,
      .of_returned rfl rfl rfl (decide_eq_false hk) ht nofun⟩

theorem own_of_renewed {r : Renew} (h : Renewed r sc asked o) : Own sc asked o := by
  cases h with
  | idle => exact .inl ⟨rfl, rfl⟩
  | gone hh _ e hk now =>
    refine .inr ⟨⟨.heartbeat sc.object.status.leaseID, .error e⟩, (by simp),
      .of_answer rfl rfl (fun e' he => ?_) ⟨rfl, rfl⟩ ?_⟩
    · cases he
      exact decide_eq_true hk
    · refine not_transit_of_ne (·.status.phase) fun hsame => ?_
      cases hsame.trans (holdsLease_iff.mp hh).1
  | transit _ _ e ht now since =>
    exact .inr ⟨⟨.heartbeat sc.object.status.leaseID, .error e⟩, (by simp),
      .of_transit rfl rfl rfl ht ⟨rfl, rfl, (by simp)⟩⟩
  | failed _ _ e hk ht =>
    exact .inr ⟨⟨.heartbeat sc.object.status.leaseID, .error e⟩, (by simp),
      .of_returned rfl rfl rfl (decide_eq_false hk) ht (by simp)⟩
  | renewed _ hp expiresAt now =>
    refine .inr ⟨⟨.heartbeat sc.object.status.leaseID, .ok expiresAt⟩,
      (by simp),
      .of_answer rfl rfl (by simp [errorOf]) ⟨rfl, rfl, rfl⟩ ?_⟩
    refine not_transit_of_ne (·.status.observedRenewTime) fun hsame => ?_
    have hsame : sc.object.spec.renewTime = sc.object.status.observedRenewTime := hsame
    simp [pendingRenewal, hsame] at hp

/-- A status whose expiry is to come. -/
theorem comingExpiry_of_lt {c : MicroVMClaim} {now exp : Time}
    (h : c.status.leaseExpiresAt = some exp) (hlt : now < exp) :
    comingExpiry c now = some exp := by
  simp [comingExpiry, h, hlt]

theorem own_of_settled {now : Time} {leases : List LeaseRecord} (hh : holdsLease sc.object = true)
    (hc : comingExpiry sc.object now = none) (h : Settled sc now leases asked o) :
    Treats ⟨sc, ⟨.now, now⟩ ::
      (exchange sc.object.uid (.listLeases (some (poolOf sc.object))) (.ok leases) ++ asked), o⟩
      o.scope ⟨.listLeases (some (poolOf sc.object)), .ok leases⟩ := by
  cases h with
  | missing | overdue =>
    refine .of_answer rfl rfl (by simp [errorOf]) ⟨rfl, .inl rfl⟩ ?_
    refine not_transit_of_ne (·.status.phase) fun hsame => ?_
    cases hsame.trans (holdsLease_iff.mp hh).1
  | listed rec hl ho at_ =>
    refine .of_answer rfl rfl (by simp [errorOf])
      ⟨rfl, .inr ⟨rec, List.mem_of_find?_eq_some hl, rfl⟩⟩ ?_
    refine not_transit_of_ne (·.status.leaseExpiresAt) fun hsame => ?_
    cases (comingExpiry_of_lt hsame.symm ho).symm.trans hc

theorem own_of_checked {c : CheckExpiry} (h : Checked c sc asked o) : Own sc asked o := by
  cases h with
  | idle | coming => exact .inl ⟨rfl, rfl⟩
  | transit _ _ now _ e ht at_ since =>
    exact .inr ⟨⟨.listLeases (some (poolOf sc.object)), .error e⟩, nofun,
      .of_transit rfl rfl rfl ht ⟨rfl, rfl, nofun⟩⟩
  | failed _ _ now _ e ht =>
    exact .inr ⟨⟨.listLeases (some (poolOf sc.object)), .error e⟩, nofun,
      .of_returned rfl rfl rfl rfl ht nofun⟩
  | answered hh _ now hc leases rest o hs =>
    exact .inr ⟨⟨.listLeases (some (poolOf sc.object)), .ok leases⟩,
      nofun, own_of_settled hh hc hs⟩

theorem own_of_addressed (h : Addressed sc asked o) : Own sc asked o := by
  cases h with
  | idle | unread | read => exact .inl ⟨rfl, rfl⟩

theorem own_of_reported (h : Reported sc asked o) : Own sc asked o := by
  cases h with
  | idle | unread | read => exact .inl ⟨rfl, rfl⟩

theorem calls_of_deleted (h : Deleted sc asked o) : calls asked = [] := by
  cases h <;> rfl

theorem deleted_scope (h : Deleted sc asked o) (hgo : o.result.stop = false) : o.scope = sc := by
  cases h with
  | idle | there => rfl
  | gone => cases hgo

theorem calls_of_recovered (h : Recovered sc asked o) : calls asked = [] := by
  cases h <;> rfl

/-! ## 3. The last call of a chain -/

/-- The step that made the last call, if one did. -/
def lastCaller (vs : List Step) : Option Step :=
  (vs.filter fun v => !(calls v.asked).isEmpty).getLast?

theorem lastCaller_cons_quiet (h : calls v.asked = []) :
    lastCaller (v :: vs) = lastCaller vs := by
  simp [lastCaller, h]

theorem lastCaller_cons_call {m : Made} (h : calls v.asked = [m]) :
    lastCaller (v :: vs) = some ((lastCaller vs).getD v) := by
  simp [lastCaller, h, List.getLast?_cons]

@[simp] theorem lastCaller_cons_idle (sc : Scope) (vs : List Step) :
    lastCaller (idle sc :: vs) = lastCaller vs := lastCaller_cons_quiet rfl

@[simp] theorem lastCaller_replicate_idle (sc : Scope) (n : Nat) :
    lastCaller (List.replicate n (idle sc)) = none := by
  induction n with
  | zero => rfl
  | succ n ih => rw [List.replicate_succ, lastCaller_cons_idle, ih]

/-- The steps made no call and left the scope's last one, or the scope has the last of theirs. -/
def Reflects (sc : Scope) (vs : List Step) : Prop :=
  (lastCaller vs = none ∧ (Visit.leftScope sc vs).batteryCall = sc.batteryCall) ∨
    ∃ v m, lastCaller vs = some v ∧ (∀ pool rid, m.1 ≠ .claimVM pool rid) ∧
      Treats v (Visit.leftScope sc vs) m

/-- One more step before them. -/
theorem Reflects.cons (hv : Own v.before v.asked v.outcome) (h : Reflects v.outcome.scope vs) :
    Reflects v.before (v :: vs) := by
  have hleft : Visit.leftScope v.before (v :: vs) = Visit.leftScope v.outcome.scope vs := rfl
  unfold Reflects
  rw [hleft]
  rcases hv with ⟨hquiet, hcall⟩ | ⟨m, hm, ht⟩
  · rw [lastCaller_cons_quiet hquiet]
    rcases h with ⟨hnone, hcall'⟩ | hsome
    · exact .inl ⟨hnone, hcall'.trans hcall⟩
    · exact .inr hsome
  · rw [lastCaller_cons_call ht.made]
    rcases h with ⟨hnone, hcall⟩ | ⟨v', m', hsome, hm', ht'⟩
    · rw [hnone]
      exact .inr ⟨v, m, rfl, hm, ht.later (fun pool rid h => absurd h (hm pool rid)) hcall⟩
    · rw [hsome]
      exact .inr ⟨v', m', rfl, hm', ht'⟩

/-- **Steps that treat their own calls**, one after the other. -/
theorem reflects_of_own {subs : List (SubReconciler Code Scope)}
    (hsubs : ∀ sub ∈ subs, ∀ sc asked o, (sub sc).Ends asked o → Own sc asked o)
    (h : Visits subs sc vs) : Reflects sc vs := by
  induction h with
  | nil sc => exact .inl ⟨rfl, rfl⟩
  | last sub subs v h => exact .cons (hsubs sub List.mem_cons_self _ _ _ h) (.inl ⟨rfl, rfl⟩)
  | next sub subs v vs h _ _ ih =>
    exact .cons (hsubs sub List.mem_cons_self _ _ _ h)
      (ih fun s hs => hsubs s (List.mem_cons_of_mem sub hs))

/-- The steps of a claim that holds its Lease. What `Recover` learned at the Operator's start is the
    last call only until a step makes one. -/
theorem held_treats {b : Backoff} (h : Visits (heldSteps b) sc vs) (hv : lastCaller vs = some v) :
    ∃ m, Treats v (Visit.leftScope sc vs) m := by
  obtain ⟨v1, vs1, rfl, rfl, h1, hrest1⟩ := visits_cons h
  rw [lastCaller_cons_quiet (calls_of_deleted (expireDeleted_ends h1))] at hv
  rcases hrest1 with ⟨-, rfl⟩ | ⟨-, hvs1⟩
  · cases hv
  · obtain ⟨v2, vs2, rfl, hb2, h2, hrest2⟩ := visits_cons hvs1
    rw [lastCaller_cons_quiet (calls_of_recovered (recover_ends h2))] at hv
    rcases hrest2 with ⟨-, rfl⟩ | ⟨-, hvs2⟩
    · cases hv
    · have hown : Reflects v2.outcome.scope vs2 := by
        refine reflects_of_own (fun sub hsub sc asked o ho => ?_) hvs2
        simp only [List.mem_cons, List.not_mem_nil, or_false] at hsub
        rcases hsub with rfl | rfl | rfl | rfl
        · exact own_of_renewed (renew_ends ho)
        · exact own_of_checked (checkExpiry_ends ho)
        · exact own_of_addressed (agentAddress_ends ho)
        · exact own_of_reported (hostReady_ends ho)
      rcases hown with ⟨hnone, -⟩ | ⟨v', m, hsome, -, ht⟩
      · cases hnone.symm.trans hv
      · cases hsome.symm.trans hv
        exact ⟨m, ht⟩

/-! ## 4. ClaimVM -/

theorem keptPending_pendingBy (sc : Scope) (reason message : String) (now : Time) :
    KeptPending (pendingBy sc reason message now) reason :=
  ⟨rfl, conditionOf_set_same _ .bound .false reason message now⟩

/-- A claim is kept Pending for one reason. -/
theorem KeptPending.unique {reason reason' : String} (h : KeptPending sc reason)
    (h' : KeptPending sc reason') : reason = reason' := by
  cases h.2.symm.trans h'.2
  rfl

/-- The reason `Pending` gives for the error of a ClaimVM. -/
theorem pendingReason_claim {e : BatteryError} {reason message : String}
    (hpool : sc.poolDeleting = false)
    (h : pendingReason sc (some e) = some (reason, message)) :
    (failedInTransit (some e) = true → reason = reasonBatteryUnavailable) ∧
      (failedInTransit (some e) = false →
        reason ∈ [reasonPoolExhausted, reasonPoolNotFound, reasonClaimAborted]) := by
  simp only [pendingReason, hpool, Bool.false_eq_true, if_false] at h
  split at h
  next h1 =>
    cases h
    exact ⟨fun ht => by simp [failedInTransit, h1] at ht, fun _ => by simp⟩
  · split at h
    next h2 =>
      cases h
      exact ⟨fun ht => by simp [failedInTransit, h2] at ht, fun _ => by simp⟩
    · split at h
      next h3 =>
        cases h
        exact ⟨fun _ => rfl, fun hf => by cases h3.symm.trans hf⟩
      next h3 =>
        refine ⟨fun ht => absurd ht h3, fun _ => ?_⟩
        split at h
        · cases h
          simp
        · cases h

/-- The calls of `Bind` are those of its ClaimVM. -/
theorem calls_bind {fresh : MicroVMClaim} {pool : Except ApiError PoolObject} {slots : Option Nat}
    {slotted : Trace} (h : InSlot slots slotted asked) :
    calls (⟨.apiGet sc.object.key, .ok fresh⟩ :: ⟨.poolGet (poolKey sc.object), pool⟩ :: slotted) =
      calls asked := by
  cases h with
  | unbounded => rfl
  | taken n => simp [calls_cons, madeOf]

/-- Where `Bind` ends the chain. -/
theorem bind_treats {b : Bind} {c : MicroVMClaim} (h : Bound b (Scope.new c) asked o)
    (hl : c.status.leaseID = "") (hend : o.err ≠ none ∨ o.result.stop = true) :
    calls asked = [] ∨ ∃ m, Treats ⟨Scope.new c, asked, o⟩ o.scope m := by
  cases h with
  | idle hl' => exact absurd hl hl'
  | unread | gone | taken | poolUnread | poolDeleting | full => exact .inl rfl
  | claim _ fresh _ _ _ _ _ hs _ hc =>
    right
    cases hc with
    | granted claimed now =>
      refine ⟨⟨.claimVM (poolOf c) fresh.uid, .ok claimed⟩,
        .of_answer (calls_bind hs) rfl (by simp [errorOf]) ⟨rfl, rfl, rfl⟩ ?_⟩
      rintro ⟨-, -, hpending⟩
      cases (hpending _ _ rfl).1
    | failed e hp =>
      have hp : actsOn (.claimVM (poolOf c) fresh.uid) e = false ∧
          failedInTransit (some e) = false := by
        simpa [pends, actsOn] using hp
      exact ⟨⟨.claimVM (poolOf c) fresh.uid, .error e⟩,
        .of_returned (calls_bind hs) rfl rfl hp.1 hp.2 (by simp)⟩
    | pends e =>
      rcases hend with he | hstop
      · exact absurd rfl he
      · cases hstop

/-- Where `Pending` takes the error up. -/
theorem pending_treats {b : Bind} {c : MicroVMClaim} {reason message : String} {now : Time}
    (h : Bound b (Scope.new c) asked o) (he : o.err = none) (hs : o.result.stop = false)
    (hp : pendingReason o.scope (claimError o.scope) = some (reason, message)) :
    calls asked = [] ∨
      ∃ m, Treats ⟨Scope.new c, asked, o⟩ (pendingBy o.scope reason message now) m := by
  cases h with
  | poolDeleting => exact .inl rfl
  | claim _ fresh _ _ _ _ _ hslot _ hc =>
    right
    cases hc with
    | pends e hpe =>
      have hkept := keptPending_pendingBy ((Scope.new c).called methodClaimVM (some e)) reason
        message now
      obtain ⟨htransit, hanswer⟩ := pendingReason_claim rfl hp
      refine ⟨⟨.claimVM (poolOf c) fresh.uid, .error e⟩, ?_⟩
      cases ht : failedInTransit (some e) with
      | true =>
        refine .of_transit (calls_bind hslot) rfl rfl ht ⟨rfl, rfl, fun _ _ _ => ?_⟩
        rw [htransit ht] at hkept ⊢
        exact hkept
      | false =>
        refine .of_answer (calls_bind hslot) rfl (fun e' he' => ?_)
          ⟨rfl, reason, hanswer ht, hkept⟩ ?_
        · cases he'
          simpa [pends, actsOn, ht] using hpe
        · rintro ⟨-, -, hpending⟩
          have hreason := hkept.unique (hpending _ _ rfl)
          have hmem := hanswer ht
          rw [hreason] at hmem
          revert hmem
          decide
    | _ => simp_all
  | _ => simp_all

/-- A step that is the only one to make a call, and treated it. -/
theorem treats_of_one {v' : Step} {left : Scope} (hvs : lastCaller vs = none)
    (h : calls v.asked = [] ∨ ∃ m, Treats v left m) (hv : lastCaller (v :: vs) = some v') :
    ∃ m, Treats v' left m := by
  rcases h with hquiet | ⟨m, ht⟩
  · rw [lastCaller_cons_quiet hquiet, hvs] at hv
    cases hv
  · rw [lastCaller_cons_call ht.made, hvs] at hv
    cases hv
    exact ⟨m, ht⟩

/-- **The scope a chain's steps left has the last call**, and its step treated it. -/
theorem chain_treats {r : MicroVMClaimReconciler} {c : MicroVMClaim} (h : Pass r c vs)
    (hv : lastCaller vs = some v) : ∃ m, Treats v (Visit.leftScope (Scope.new c) vs) m := by
  cases h with
  | released hd asked o h =>
    refine treats_of_one rfl ?_ hv
    rcases own_of_released h with ⟨hquiet, -⟩ | ⟨m, -, ht⟩
    · exact .inl hquiet
    · exact .inr ⟨m, ht⟩
  | guarded => cases hv
  | bind _ _ hl asked o h hend =>
    rw [lastCaller_cons_idle, lastCaller_cons_idle] at hv
    exact treats_of_one rfl (bind_treats h hl hend) hv
  | pending _ _ hl asked o h he hs reason message hp now w hw =>
    have hquiet : calls w.asked = [] := by
      rw [hw]
      rfl
    have htail : lastCaller (w :: List.replicate 6 (idle w.outcome.scope)) = none := by
      rw [lastCaller_cons_quiet hquiet, lastCaller_replicate_idle]
    rw [lastCaller_cons_idle, lastCaller_cons_idle] at hv
    show ∃ m, Treats v w.outcome.scope m
    refine treats_of_one htail ?_ hv
    rw [hw]
    exact pending_treats h he hs hp
  | resting =>
    rw [lastCaller_replicate_idle] at hv
    cases hv
  | held _ _ vs h =>
    have hlast : lastCaller (List.replicate 4 (idle (Scope.new c)) ++ vs) = lastCaller vs := by
      simp [List.replicate_succ]
    rw [hlast] at hv
    have hheld := held_treats h hv
    exact hheld

/-! ## 5. Synced -/

/-- The Synced condition does not show in how the call was treated. -/
theorem Treats.synced {left : Scope} {m : Made} (h : Treats v left m)
    (status : ConditionStatus) (reason message : String) (now : Time) :
    Treats v (left.setCondition .synced status reason message now) m := by
  refine h.later (fun _ _ _ reason' => ?_) rfl
  unfold KeptPending
  rw [conditionOf_set_other left (by decide)]
  exact Iff.rfl

theorem calls_flatMap (vs : List Step) :
    calls (vs.flatMap Visit.asked) = vs.flatMap fun v => calls v.asked := by
  induction vs with
  | nil => rfl
  | cons v vs ih => rw [List.flatMap_cons, List.flatMap_cons, calls_append, ih]

theorem mem_of_lastCaller (h : lastCaller vs = some v) : v ∈ vs :=
  (List.mem_filter.mp (List.mem_of_getLast? h)).1

/-- The errors of a call that `Synced` takes for answers though the calling step does not. -/
def misread : Call → ErrorKind → Bool
  | .claimVM _ _, _ => false
  | .heartbeat _, kind | .releaseVM _, kind => kind = .exhausted || kind = .aborted
  | .listLeases _, kind => kind = .notFound || kind = .exhausted || kind = .aborted

theorem misread_eq (call : Call) (e : BatteryError) :
    misread call e.kind = (answered (some e) && !actsOn call e) := by
  obtain ⟨kind, text⟩ := e
  cases call <;> cases kind <;> rfl

section Report

variable (call : BatteryCall) {e : BatteryError}

theorem syncedReport_answered (h : answered call.err = true) :
    syncedReport call = (.true, reasonSynced, "battery answered " ++ call.method) := if_pos h

theorem syncedReport_transit (he : call.err = some e) (ha : answered (some e) = false)
    (ht : failedInTransit (some e) = true) :
    syncedReport call = (.false, reasonBatteryUnavailable,
      call.method ++ " got no answer from battery: " ++ e.text) := by
  simp [syncedReport, he, ha, ht]

theorem syncedReport_failed (he : call.err = some e) (ha : answered (some e) = false)
    (ht : failedInTransit (some e) = false) :
    syncedReport call = (.false, reasonBatteryError, call.method ++ " failed: " ++ e.text) := by
  simp [syncedReport, he, ha, ht]

end Report

/-- **The Synced condition agrees with how the call was treated**: it is true only if the step took
    the end of its call as an answer, false with `BatteryUnavailable` exactly if the step took the
    call as failed in transit, and false with `BatteryError` whenever the step returned the
    error. -/
structure Agrees (v : Step) (left : Scope) (m : Made) : Prop where
  answer : ∀ reason, conditionOf left .synced = some (.true, reason) → TreatedAsAnswer v left m
  transit : conditionOf left .synced = some (.false, reasonBatteryUnavailable) ↔
    TreatedInTransit v left m
  returned : v.outcome.err ≠ none → conditionOf left .synced = some (.false, reasonBatteryError)

section Agreement

variable {left : Scope} {m : Made} {e : BatteryError} (h : Treats v left m)
  (hsynced : conditionOf left .synced = some ((syncedReport (recorded m)).1,
    (syncedReport (recorded m)).2.1))
include h hsynced

theorem agrees_answered (ha : answered (errorOf m.2) = true)
    (hacts : ∀ e, errorOf m.2 = some e → actsOn m.1 e = true) : Agrees v left m := by
  obtain ⟨hanswer, hn⟩ := h.answer hacts
  rw [syncedReport_answered (recorded m) ha] at hsynced
  refine ⟨fun _ _ => hanswer, ?_, fun herr => absurd hanswer.1 herr⟩
  rw [hsynced]
  exact ⟨nofun, fun ht => absurd ht hn⟩

theorem agrees_unanswered (he : errorOf m.2 = some e) (ha : answered (some e) = false) :
    Agrees v left m := by
  cases ht : failedInTransit (some e) with
  | true =>
    have htransit := h.transit e he ht
    rw [syncedReport_transit (recorded m) he ha ht] at hsynced
    refine ⟨fun reason hs => ?_, ⟨fun _ => htransit, fun _ => hsynced⟩,
      fun herr => absurd htransit.1 herr⟩
    cases hsynced.symm.trans hs
  | false =>
    have hacts : actsOn m.1 e = false := by
      cases hacts : actsOn m.1 e with
      | false => rfl
      | true => cases ha.symm.trans (answer_of_actsOn hacts).2
    have herr := h.returned e he hacts ht
    rw [syncedReport_failed (recorded m) he ha ht] at hsynced
    refine ⟨fun reason hs => ?_, ⟨fun hs => ?_, fun htr => absurd htr.1 herr⟩, fun _ => hsynced⟩
    · cases hsynced.symm.trans hs
    · have hreason : reasonBatteryError = reasonBatteryUnavailable :=
        congrArg Prod.snd (Option.some.inj (hsynced.symm.trans hs))
      exact absurd hreason (by decide)

/-- What `Synced` reports of a call agrees with how it was treated unless it misreads the error. -/
theorem agrees_iff : Agrees v left m ↔ ∀ e, errorOf m.2 = some e → misread m.1 e.kind = false := by
  constructor
  · -- a misread error was returned by the step, and `Synced` says that battery answered
    intro hagree e he
    rw [misread_eq, Bool.and_eq_false_iff]
    by_contra hmis
    simp only [not_or, Bool.not_eq_false, Bool.not_eq_true'] at hmis
    have hkind : failedInTransit (some e) = false := by
      obtain ⟨kind, text⟩ := e
      cases kind <;> first | rfl | cases hmis.1
    have hreturned := hagree.returned (h.returned e he hmis.2 hkind)
    rw [syncedReport_answered (recorded m) (by rw [recorded, he]; exact hmis.1)] at hsynced
    cases hsynced.symm.trans hreturned
  · intro hmis
    cases he : errorOf m.2 with
    | none => exact agrees_answered h hsynced (by rw [he]; rfl) (by rw [he]; nofun)
    | some e =>
      cases ha : answered (some e) with
      | false => exact agrees_unanswered h hsynced he ha
      | true =>
        have hacts : actsOn m.1 e = true := by simpa [misread_eq, ha] using hmis e he
        refine agrees_answered h hsynced (by rw [he]; exact ha) fun e' he' => ?_
        cases he.symm.trans he'
        exact hacts

end Agreement

/-- **Synced agrees with how the last call was treated** exactly if it did not misread the call's
    error: an ErrExhausted or ErrAborted of Heartbeat or ReleaseVM, or one of these or an
    ErrNotFound of ListLeases. -/
theorem synced_agrees (r : MicroVMClaimReconciler) (c : MicroVMClaim) (asked : Trace)
    (o : Outcome Scope) (h : (r.chain.run (Scope.new c)).Ends asked o) :
    ∃ vs, Visits r.chain.steps (Scope.new c) vs ∧ vs.flatMap Visit.asked <+: asked ∧
      calls asked = vs.flatMap (fun v => calls v.asked) ∧
      ∀ v, lastCaller vs = some v → ∃ m, calls v.asked = [m] ∧
        (Agrees v o.scope m ↔ ∀ e, errorOf m.2 = some e → misread m.1 e.kind = false) := by
  obtain ⟨vs, last, o', hvs, rfl, hlast, rfl⟩ := chain_ends h
  have hcalls : calls (vs.flatMap Visit.asked ++ last) = vs.flatMap fun v => calls v.asked := by
    have hquiet : calls last = [] := by cases hlast <;> rfl
    rw [calls_append, hquiet, List.append_nil, calls_flatMap]
  refine ⟨vs, hvs, List.prefix_append _ _, hcalls, fun v hv => ?_⟩
  obtain ⟨m, ht⟩ := chain_treats (chain_visits hvs) hv
  cases hlast with
  | idle hnone => cases hnone.symm.trans ht.last
  | set call hcall now =>
    cases hcall.symm.trans ht.last
    exact ⟨m, ht.made, agrees_iff (ht.synced ..) (conditionOf_set_same ..)⟩

/-- A claim that holds its Lease, with the renewTime that was relayed last. -/
def leased (observed : Option MicroTime) : MicroVMClaim where
  namespace_ := "ns"
  name := "c1"
  uid := "u1"
  resourceVersion := 3
  generation := 1
  deletionTimestamp := none
  finalizers := [releaseFinalizer]
  spec := ⟨"p1", some 5, "sa"⟩
  status :=
    { phase := .bound, leaseID := "l1", microVM := some ⟨"v1"⟩, observedRenewTime := observed }

/-- The reconcile of a claim by a chain of the default configuration, where every call fails. -/
def failed (c : MicroVMClaim) (e : BatteryError) : Trace × Outcome Scope :=
  (({} : MicroVMClaimReconciler).chain.run (Scope.new c)).answeredBy (failing e)

/-- The calls, without the answers of those that succeeded. -/
def failures (asked : Trace) : List (Call × Option BatteryError) :=
  (calls asked).map fun m => (m.1, errorOf m.2)

theorem synced_agrees_lost_heartbeat :
    failures (failed (leased none) (errUnavailable "connection refused")).1 =
        [(.heartbeat "l1", some (errUnavailable "connection refused"))] ∧
      ∃ vs, Visits ({} : MicroVMClaimReconciler).chain.steps (Scope.new (leased none)) vs ∧
        ∀ v, lastCaller vs = some v → ∃ m, calls v.asked = [m] ∧
          Agrees v (failed (leased none) (errUnavailable "connection refused")).2.scope m := by
  have hcalls : failures (failed (leased none) (errUnavailable "connection refused")).1 =
      [(.heartbeat "l1", some (errUnavailable "connection refused"))] := by decide +kernel
  refine ⟨hcalls, ?_⟩
  obtain ⟨vs, hvs, -, hasked, hagree⟩ := synced_agrees {} (leased none) _ _
    (Prog.ends_answeredBy (failing (errUnavailable "connection refused")) _)
  refine ⟨vs, hvs, fun v hv => ?_⟩
  obtain ⟨m, hm, hiff⟩ := hagree v hv
  have hin : m ∈ calls (failed (leased none) (errUnavailable "connection refused")).1 :=
    hasked ▸ List.mem_flatMap.mpr ⟨v, mem_of_lastCaller hv, hm ▸ List.mem_singleton_self m⟩
  have hfail : (m.1, errorOf m.2) ∈ failures _ := List.mem_map.mpr ⟨m, hin, rfl⟩
  rw [hcalls, List.mem_singleton, Prod.mk.injEq] at hfail
  refine ⟨m, hm, hiff.mpr fun e he => ?_⟩
  rw [hfail.1]
  cases he.symm.trans hfail.2
  rfl

/-- What a client makes of a ListLeases whose answer is larger than it takes. -/
def answerTooLarge : BatteryError :=
  mapErr none false .resourceExhausted
    "grpc: received message larger than max (5242880 vs. 4194304)"

/-- **Synced is true although the step returned the error**: `CheckExpiry` gives the error of its
    ListLeases to the work queue, and `Synced` takes RESOURCE_EXHAUSTED for an answer of battery
    whatever the method. -/
theorem synced_true_for_returned_error :
    ∃ vs v, Visits ({} : MicroVMClaimReconciler).chain.steps (Scope.new (leased (some 5))) vs ∧
      lastCaller vs = some v ∧
      v.outcome.err = some ("listing the Leases of Pool ns/p1: " ++ answerTooLarge.text) ∧
      ∃ asked o, (({} : MicroVMClaimReconciler).chain.run
          (Scope.new (leased (some 5)))).Ends asked o ∧
        failures asked = failures (vs.flatMap Visit.asked) ∧
        failures asked = [(.listLeases (some ⟨"p1", "ns"⟩), some answerTooLarge)] ∧
        conditionOf o.scope .synced = some (.true, reasonSynced) := by
  have hv : (lastCaller (visitsBy (failing answerTooLarge) ({} : MicroVMClaimReconciler).chain.steps
      (Scope.new (leased (some 5))))).map (fun v => v.outcome.err) =
        some (some ("listing the Leases of Pool ns/p1: " ++ answerTooLarge.text)) := by
    decide +kernel
  obtain ⟨v, hlast, herr⟩ := Option.map_eq_some_iff.mp hv
  refine ⟨_, v, visits_visitsBy (failing answerTooLarge) _ _, hlast, herr, _, _,
    Prog.ends_answeredBy (failing answerTooLarge) _, ?_, ?_, ?_⟩
  · decide +kernel
  · decide +kernel
  · decide +kernel

end BatteryOperator.Course
