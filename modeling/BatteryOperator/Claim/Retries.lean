/-
  Subject:   Failed calls to battery move nothing, however often they are repeated.

  While battery does not answer, a claim is reconciled again and again, from whatever version of it
  the cache has, and each write may be stored or lost. A run of such reconciles keeps every version
  and what was answered in each reconcile. When battery answers at last, the claim ends as it would
  have without them.

  * `storedBy`, `alike_merge` -- what a reconcile's write makes of the stored status;
  * `failed_reconcile` -- what a reconcile with failed calls writes;
  * `FailedRun`, `RunInv` -- runs of them, and what holds of every version;
  * `Together` -- the reconcile after the run and the one without it are served alike;
  * `failed_calls_move_nothing` -- **the whole statement**.
-/
import BatteryOperator.Claim.Twins

namespace BatteryOperator.Course

open Lib Prog

/-! ## 1. What a write stores -/

/-- The stored status after the status patches of a reconcile. -/
def storedBy : MicroVMClaimStatus → Trace → MicroVMClaimStatus
  | st, [] => st
  | st, ⟨.patchStatus base object, _⟩ :: rest =>
    storedBy (MicroVMClaimStatus.merge base.status.encode object.status.encode st) rest
  | st, _ :: rest => storedBy st rest

variable {st d : MicroVMClaimStatus} {asked tail last : Trace} {sc : Scope} {perr : Option String}
  {vs : List Step} {o : Outcome Scope} {exp : Option Time}

/-- The steps write nothing. -/
theorem storedBy_inner (h : ∀ e ∈ asked, Writes.Inner e.1) :
    storedBy st (asked ++ tail) = storedBy st tail := by
  induction asked with
  | nil => rfl
  | cons e asked ih =>
    have htail := ih fun e' he' => h e' (List.mem_cons_of_mem e he')
    have hhead := h e List.mem_cons_self
    obtain ⟨o, r⟩ := e
    cases o with
    | patchStatus => exact hhead.elim
    | _ => exact htail

theorem merge_self (e st : MicroVMClaimStatus) : MicroVMClaimStatus.merge e e st = st := by
  simp only [MicroVMClaimStatus.merge, mergeField_self, mergeObject_self]

/-- The node name after a patch against a stored status on the same Node. -/
theorem nodeName_merge {base desired stored : Option HostReference}
    (h : base.map HostReference.nodeName = stored.map HostReference.nodeName) :
    (mergeObject ⟨"", ""⟩ MicroVMClaimStatus.mergeHost base desired stored).map
        HostReference.nodeName = desired.map HostReference.nodeName := by
  cases desired with
  | none =>
    cases base with
    | none => exact h.symm
    | some b => rfl
  | some d =>
    have hn : (base.getD ⟨"", ""⟩).nodeName = (stored.getD ⟨"", ""⟩).nodeName := by
      cases base with
      | none =>
        cases stored with
        | none => rfl
        | some s => cases h
      | some b =>
        cases stored with
        | none => cases h
        | some s => exact Option.some.inj h
    rw [mergeObject_some]
    split
    next he => rw [← h, he]
    · simp only [Option.map_some, MicroVMClaimStatus.mergeHost, hn, mergeField_base]

/-- **A patch against a stored status with the same Lease** gives the wanted one, as far as a claim
    ends with it. -/
theorem alike_merge {b : MicroVMClaimStatus} (hl : b.leaseID = st.leaseID)
    (hv : b.microVM = st.microVM)
    (hn : b.host.map HostReference.nodeName = st.host.map HostReference.nodeName)
    (ho : b.observedRenewTime = st.observedRenewTime)
    (hp : b.phase = st.phase ∨ b.phase ≠ d.phase) :
    Alike (MicroVMClaimStatus.merge b.encode d.encode st) d where
  phase := by
    rcases hp with hp | hp
    · show mergeField b.phase d.phase st.phase = d.phase
      rw [hp]
      exact mergeField_base _ _
    · exact mergeField_of_ne hp _
  leaseID := by
    show mergeField b.leaseID d.leaseID st.leaseID = d.leaseID
    rw [hl]
    exact mergeField_base _ _
  microVM := by
    show mergeObject ⟨""⟩ MicroVMClaimStatus.mergeMicroVM b.microVM d.microVM st.microVM = d.microVM
    rw [hv]
    refine mergeObject_base _ (fun b d => ?_) _ _
    simp only [MicroVMClaimStatus.mergeMicroVM, mergeField_base]
  nodeName := nodeName_merge hn
  observedRenewTime := by
    show mergeField b.observedRenewTime d.observedRenewTime st.observedRenewTime =
      d.observedRenewTime
    rw [ho]
    exact mergeField_base _ _

/-- The write of a scope whose metadata is as fetched. -/
theorem storedBy_patch (hmeta : sc.unpatched = sc.original) (h : sc.patch.Ends tail perr)
    (st : MicroVMClaimStatus) :
    storedBy st tail =
      MicroVMClaimStatus.merge sc.original.status.encode sc.object.status.encode st := by
  rcases patch_ends hmeta h with ⟨rfl, hsame⟩ | ⟨ans, rfl⟩
  · rw [hsame, merge_self]
    rfl
  · rfl

/-! ## 2. A reconcile with failed calls -/

/-- A reconcile that made calls, and all of them failed in transit or with an error that their step
    returned. -/
structure CallsFailed (r : MicroVMClaimReconciler) (c : MicroVMClaim) (asked : Trace) : Prop where
  made : calls asked ≠ []
  failed : ∃ vs rest, Visits r.chain.steps (Scope.new c) vs ∧
    asked = vs.flatMap Visit.asked ++ rest ∧ AllFail vs

section Failed

variable {r : MicroVMClaimReconciler} {c : MicroVMClaim}

/-- The rest of the reconcile looks nothing up again. -/
theorem FailedPass.mirrors {sc' : Scope} (h : FailedPass c asked sc) (hm : Mirrors sc sc')
    (rest : Trace) : FailedPass c (asked ++ rest) sc' := by
  cases h with
  | releasing hd h => exact .releasing hd (h.mirrors hm)
  | binding hd hl phase hph h => exact .binding hd hl phase hph (h.mirrors hm)
  | holding hh h =>
    obtain ⟨known, hknown, hk, hleft, hor⟩ := h.known
    refine .holding hh ⟨known, ?_, hk, hleft.mirrors hm, hor.imp_right ?_⟩
    · rw [looked_append, hknown]
      rfl
    · rintro ⟨now, hmem, hna⟩
      exact ⟨now, List.mem_append_left rest hmem, hna⟩

/-- What is left of the claim, whichever way the reconcile took. -/
theorem FailedPass.left (h : FailedPass c asked sc) : ∃ phase exp, LeftAs c phase exp sc := by
  cases h with
  | releasing _ h | binding _ _ _ _ h => exact ⟨_, _, h⟩
  | holding _ h =>
    obtain ⟨known, -, -, hleft, -⟩ := h.known
    exact ⟨_, _, hleft⟩

/-- The calls of a reconcile are those of its steps. -/
theorem calls_reconcile (hlast : Reflected (Visit.leftScope (Scope.new c) vs) last o)
    (hpatch : o.scope.patch.Ends tail perr) :
    calls (vs.flatMap Visit.asked ++ last ++ tail) = calls (vs.flatMap Visit.asked) := by
  have hquiet : calls last = [] := by cases hlast <;> rfl
  rw [calls_append, calls_append, hquiet, calls_patch hpatch, List.append_nil, List.append_nil]

/-- **A reconcile with failed calls**: what it left, that it writes that and nothing else, and that
    it is tried again. -/
theorem failed_reconcile {res : Result × Option String} (h : (r.reconcileClaim c).Ends asked res)
    (hf : CallsFailed r c asked) :
    ∃ left, FailedPass c asked left ∧
      (∀ st, storedBy st asked =
        MicroVMClaimStatus.merge c.status.encode left.object.status.encode st) ∧
      (∀ e ∈ asked, Writes.Inner e.1 ∨
        e.1 = .patchStatus c { c with status := left.object.status }) ∧
      (0 < (backoffOf r).min → 0 < (backoffOf r).max → res.2 ≠ none ∨ 0 < res.1.requeueAfter) := by
  obtain ⟨vs, last, o, tail, perr, hvs, hlast, hpatch, rfl, hres, hinner⟩ := reconcileClaim_ends h
  obtain ⟨vs', rest, hvs', he, hfail⟩ := hf.failed
  rw [List.append_assoc] at he
  cases visits_unique hvs hvs' he
  have hcalls := hf.made
  rw [calls_reconcile hlast hpatch, calls_flatMap] at hcalls
  obtain ⟨hpass, hretry⟩ := failed_pass (chain_visits hvs) hcalls hfail
  have hleft := hpass.mirrors (mirrors_of_reflected hlast) (last ++ tail)
  obtain ⟨_, _, hc⟩ := hleft.left
  have hmeta : o.scope.unpatched = o.scope.original := hc.unpatched.trans hc.original.symm
  refine ⟨o.scope, ?_, fun st => ?_, fun e he => ?_, retries hretry hres⟩
  · rw [List.append_assoc]
    exact hleft
  · rw [storedBy_inner hinner, storedBy_patch hmeta hpatch, hc.original]
  · rcases List.mem_append.mp he with he | he
    · exact .inl (hinner e he)
    · rcases patch_ends hmeta hpatch with ⟨rfl, -⟩ | ⟨ans, rfl⟩
      · cases he
      · rw [List.mem_singleton.mp he, hc.original]
        exact .inr rfl

end Failed

/-! ## 3. Runs of failed reconciles -/

/-- The claim with another status, at some resourceVersion. -/
def version (c : MicroVMClaim) (st : MicroVMClaimStatus) (v : Nat) : MicroVMClaim :=
  { c with status := st, resourceVersion := v }

/-- **A run of reconciles whose calls all failed**, from the claim `c` that nothing else changes:
    the newest status, every status there has been, and what each reconcile was answered. A
    reconcile reads any version, and its write is lost or stored. -/
inductive FailedRun (r : MicroVMClaimReconciler) (c : MicroVMClaim) :
    MicroVMClaimStatus → List MicroVMClaimStatus → List Trace → Prop where
  | start : FailedRun r c c.status [c.status] []
  | attempt (newest : MicroVMClaimStatus) (versions : List MicroVMClaimStatus) (past : List Trace)
      (h : FailedRun r c newest versions past) (st : MicroVMClaimStatus) (hst : st ∈ versions)
      (v : Nat) (asked : Trace) (res : Result × Option String)
      (hends : (r.reconcileClaim (version c st v)).Ends asked res)
      (hf : CallsFailed r (version c st v) asked) (after : MicroVMClaimStatus)
      (hw : after = newest ∨ after = storedBy newest asked) :
      FailedRun r c after (after :: versions) (asked :: past)

/-- Some reconcile read the clock when this was over. -/
def Passed (past : List Trace) (exp : Option Time) : Prop :=
  ∃ asked ∈ past, ∃ now, ⟨.now, now⟩ ∈ asked ∧ NotAfter exp now

theorem Passed.cons {past : List Trace} (h : Passed past exp) (asked : Trace) :
    Passed (asked :: past) exp := by
  obtain ⟨asked', hmem, hnow⟩ := h
  exact ⟨asked', List.mem_cons_of_mem asked hmem, hnow⟩

/-- A claim without a Lease that is not being deleted. -/
def Unleased (c : MicroVMClaim) : Prop := c.deleting = false ∧ c.status.leaseID = ""

/-- What holds of every version in such a run. -/
structure RunInv (c : MicroVMClaim) (newest : MicroVMClaimStatus)
    (versions : List MicroVMClaimStatus) (past : List Trace) : Prop where
  mem : newest ∈ versions
  kept : ∀ st ∈ versions, Kept c.status st
  phase : ∀ st ∈ versions, st.phase = c.status.phase ∨
    (Unleased c ∧ c.status.phase = .empty ∧ st.phase = .pending)
  later : ∀ st ∈ versions, st.phase = newest.phase ∨ newest.phase = .pending
  expiry : holdsLease c = true → pendingRenewal c = false → ∀ st ∈ versions,
    st.leaseExpiresAt = c.status.leaseExpiresAt ∨ Passed past st.leaseExpiresAt
  passed : holdsLease c = true → pendingRenewal c = false → past ≠ [] →
    Passed past c.status.leaseExpiresAt
  known : holdsLease c = true → ∀ asked ∈ past, ∃ known, looked asked = some known ∧
    known ≠ some none ∧ (pendingRenewal c = false → Passed past (raised none known))

/-- An expiry after the look-up is over if both the one before and the listed one are. -/
theorem notAfter_raised (exp : Option Time) (known : Option (Option LeaseRecord)) (now : Time) :
    NotAfter (raised exp known) now ↔ NotAfter exp now ∧ NotAfter (raised none known) now := by
  have hsome (x : Time) : NotAfter (some x) now ↔ x ≤ now :=
    ⟨fun h => h _ rfl, fun h t ht => by cases ht; exact h⟩
  have hnone : NotAfter none now := nofun
  match known with
  | none | some none => exact ⟨fun h => ⟨h, hnone⟩, And.left⟩
  | some (some rec) =>
    cases exp with
    | none => exact ⟨fun h => ⟨hnone, h⟩, And.right⟩
    | some t =>
      simp only [raised, hsome]
      split
      next hlt =>
        rw [hsome]
        exact ⟨fun h => ⟨Int.le_trans (Int.le_of_lt hlt) h, h⟩, And.right⟩
      next hge =>
        rw [hsome]
        exact ⟨fun h => ⟨h, Int.le_trans (Int.not_lt.mp hge) h⟩, And.left⟩

theorem notAfter_encode {now : Time} (h : NotAfter exp now) :
    NotAfter (exp.map truncSecond) now := by
  intro t ht
  obtain ⟨e, he, rfl⟩ := Option.map_eq_some_iff.mp ht
  exact Int.le_trans (truncSecond_le e) (h e he)

/-- What one reconcile of the run wants to write, of the version it read. -/
structure Attempted (c : MicroVMClaim) (st d : MicroVMClaimStatus) (asked : Trace) : Prop where
  kept : Kept st d
  phase : d.phase = st.phase ∨ (Unleased c ∧ d.phase = .pending)
  held : holdsLease c = true → ∃ known, looked asked = some known ∧ known ≠ some none ∧
    d.leaseExpiresAt = raised st.leaseExpiresAt known ∧
    (pendingRenewal c = false → ∃ now, ⟨.now, now⟩ ∈ asked ∧
      NotAfter (raised st.leaseExpiresAt known) now)

section Runs

variable {r : MicroVMClaimReconciler} {c : MicroVMClaim} {newest st : MicroVMClaimStatus}
  {versions : List MicroVMClaimStatus} {past : List Trace}

/-- Only a claim with a Lease is Bound or Expired. -/
def Phased (c : MicroVMClaim) : Prop :=
  c.status.phase = .bound ∨ c.status.phase = .expired → c.status.leaseID ≠ ""

theorem Phased.unleased (hc : Phased c) (hl : c.status.leaseID = "") :
    c.status.phase = .empty ∨ c.status.phase = .pending := by
  cases hphase : c.status.phase with
  | empty => exact .inl rfl
  | pending => exact .inr rfl
  | bound => exact absurd hl (hc (.inl hphase))
  | expired => exact absurd hl (hc (.inr hphase))

namespace RunInv

/-- A version of a claim that has a Lease, or is being deleted, has its phase. -/
theorem phase_eq (h : RunInv c newest versions past) (hn : ¬ Unleased c) (hst : st ∈ versions) :
    st.phase = c.status.phase :=
  (h.phase st hst).elim id fun hu => absurd hu.1 hn

/-- Every version is a twin of the claim. -/
theorem twin (h : RunInv c newest versions past) (hst : st ∈ versions) (v : Nat) :
    Twin (version c st v) c :=
  have hk := h.kept st hst
  ⟨rfl, hk.leaseID, hk.microVM, hk.nodeName, hk.observedRenewTime⟩

/-- **One reconcile of the run.** -/
theorem attempted (h : RunInv c newest versions past) (hst : st ∈ versions) {v : Nat}
    {left : Scope} (hp : FailedPass (version c st v) asked left) :
    Attempted c st left.object.status asked := by
  have ht := h.twin hst v
  obtain ⟨_, _, hleft⟩ := hp.left
  refine ⟨hleft.kept, ?_, fun hh => ?_⟩
  · cases hp with
    | releasing _ hl => exact .inl hl.phase
    | binding hd hl phase hph hl' =>
      rcases hph with rfl | rfl
      · exact .inl hl'.phase
      · exact .inr ⟨⟨ht.deleting.symm.trans hd, ht.leaseID.symm.trans hl⟩, hl'.phase⟩
    | holding _ hl =>
      obtain ⟨known, -, -, hl', -⟩ := hl.known
      exact .inl hl'.phase
  · cases hp with
    | releasing hd => cases (holdsLease_iff.mp hh).2.2.symm.trans (ht.deleting.symm.trans hd)
    | binding _ hl => exact absurd (ht.leaseID.symm.trans hl) (holdsLease_iff.mp hh).2.1
    | holding _ hl =>
      obtain ⟨known, hlook, hk, hl', hor⟩ := hl.known
      refine ⟨known, hlook, hk, hl'.expiry, fun hp => hor.elim (fun hp' => ?_) id⟩
      cases (ht.pendingRenewal.trans hp).symm.trans hp'

/-- The clock reading of that reconcile, for the expiry it read and the one it looked up. -/
theorem overdue {known : Option (Option LeaseRecord)}
    (h : ∃ now, ⟨.now, now⟩ ∈ asked ∧ NotAfter (raised st.leaseExpiresAt known) now) :
    Passed (asked :: past) st.leaseExpiresAt ∧ Passed (asked :: past) (raised none known) ∧
      Passed (asked :: past) (raised st.leaseExpiresAt known) := by
  obtain ⟨now, hmem, hna⟩ := h
  have hboth := (notAfter_raised _ _ _).mp hna
  exact ⟨⟨asked, List.mem_cons_self, now, hmem, hboth.1⟩,
    ⟨asked, List.mem_cons_self, now, hmem, hboth.2⟩, ⟨asked, List.mem_cons_self, now, hmem, hna⟩⟩

theorem start (c : MicroVMClaim) : RunInv c c.status [c.status] [] where
  mem := List.mem_singleton_self _
  kept := List.forall_mem_singleton.mpr (.refl _)
  phase := List.forall_mem_singleton.mpr (.inl rfl)
  later := List.forall_mem_singleton.mpr (.inl rfl)
  expiry _ _ := List.forall_mem_singleton.mpr (.inl rfl)
  passed := fun _ _ hne => absurd rfl hne
  known := nofun

/-- The past of a longer run, with the versions as they were. -/
theorem attempt (h : RunInv c newest versions past) (hst : st ∈ versions)
    (ha : Attempted c st d asked) : RunInv c newest versions (asked :: past) :=
  { h with
    expiry := fun hh hp st' hst' => (h.expiry hh hp st' hst').imp_right fun hq => hq.cons asked
    passed := by
      intro hh hp _
      obtain ⟨known, -, -, -, hna⟩ := ha.held hh
      -- the expiry that was read is the first one, or the run has passed that already
      rcases h.expiry hh hp st hst with he | ⟨asked', hmem, -⟩
      · rw [← he]
        exact (overdue (hna hp)).1
      · exact (h.passed hh hp (List.ne_nil_of_mem hmem)).cons asked
    known := by
      intro hh asked' hmem
      rcases List.mem_cons.mp hmem with rfl | hmem
      · obtain ⟨known, hlook, hk, -, hna⟩ := ha.held hh
        exact ⟨known, hlook, hk, fun hp => (overdue (hna hp)).2.1⟩
      · obtain ⟨known, hlook, hk, hq⟩ := h.known hh asked' hmem
        exact ⟨known, hlook, hk, fun hp => (hq hp).cons asked⟩ }

/-- A version is added. -/
theorem write (h : RunInv c newest versions past) {after : MicroVMClaimStatus}
    (hk : Kept c.status after)
    (hph : after.phase = newest.phase ∨
      (Unleased c ∧ c.status.phase = .empty ∧ after.phase = .pending))
    (hexp : holdsLease c = true → pendingRenewal c = false →
      after.leaseExpiresAt = newest.leaseExpiresAt ∨ Passed past after.leaseExpiresAt) :
    RunInv c after (after :: versions) past where
  mem := List.mem_cons_self
  kept := List.forall_mem_cons.mpr ⟨hk, h.kept⟩
  phase := by
    refine List.forall_mem_cons.mpr ⟨?_, h.phase⟩
    rcases hph with he | hu
    · rw [he]
      exact h.phase newest h.mem
    · exact .inr hu
  later := by
    refine List.forall_mem_cons.mpr ⟨.inl rfl, fun st hst => ?_⟩
    rcases hph with he | hu
    · rw [he]
      exact h.later st hst
    · exact .inr hu.2.2
  expiry := by
    intro hh hp
    refine List.forall_mem_cons.mpr ⟨?_, h.expiry hh hp⟩
    rcases hexp hh hp with he | hq
    · rw [he]
      exact h.expiry hh hp newest h.mem
    · exact .inr hq
  passed := h.passed
  known := h.known

end RunInv

/-- A patch that keeps the Lease of the version it was made from keeps the stored one. -/
theorem kept_merge {b : MicroVMClaimStatus} (h : Kept b d)
    (hn : b.host.map HostReference.nodeName = st.host.map HostReference.nodeName) :
    Kept st (MicroVMClaimStatus.merge b.encode d.encode st) where
  leaseID := by
    show mergeField b.leaseID d.leaseID st.leaseID = st.leaseID
    rw [h.leaseID, mergeField_self]
  microVM := by
    show mergeObject ⟨""⟩ MicroVMClaimStatus.mergeMicroVM b.microVM d.microVM st.microVM =
      st.microVM
    rw [h.microVM, mergeObject_self]
  nodeName := (nodeName_merge hn).trans (h.nodeName.trans hn)
  boundTime := by
    show mergeField (b.boundTime.map truncSecond) (d.boundTime.map truncSecond) st.boundTime =
      st.boundTime
    rw [h.boundTime, mergeField_self]
  observedRenewTime := by
    show mergeField b.observedRenewTime d.observedRenewTime st.observedRenewTime =
      st.observedRenewTime
    rw [h.observedRenewTime, mergeField_self]

/-- **What is stored** when the write of such a reconcile is not lost. -/
theorem RunInv.stored (hc : Phased c) (h : RunInv c newest versions past) (hst : st ∈ versions)
    (ha : Attempted c st d asked) :
    RunInv c (MicroVMClaimStatus.merge st.encode d.encode newest)
      (MicroVMClaimStatus.merge st.encode d.encode newest :: versions) (asked :: past) := by
  have hkst := h.kept st hst
  have hknew := h.kept newest h.mem
  refine (h.attempt hst ha).write ?_ ?_ fun hh hp => ?_
  · exact hknew.trans (kept_merge ha.kept (hkst.nodeName.trans hknew.nodeName.symm))
  · rcases mergeField_cases st.phase d.phase newest.phase with ⟨-, hm⟩ | ⟨hne, hm⟩
    · exact .inl hm
    · rcases ha.phase with he | ⟨hu, hpending⟩
      · exact absurd he.symm hne
      · refine .inr ⟨hu, ?_, hm.trans hpending⟩
        rw [hpending] at hne
        rcases h.phase st hst with he | ⟨-, -, hp'⟩
        · -- without a Lease the claim is not Bound or Expired, and it is not Pending either
          rw [he] at hne
          exact (hc.unleased hu.2).resolve_right hne
        · exact absurd hp' hne
  · obtain ⟨known, -, -, he, hna⟩ := ha.held hh
    rcases mergeField_cases (st.leaseExpiresAt.map truncSecond) (d.leaseExpiresAt.map truncSecond)
      newest.leaseExpiresAt with ⟨-, hm⟩ | ⟨-, hm⟩
    · exact .inl hm
    · obtain ⟨now, hmem, hover⟩ := hna hp
      refine .inr ⟨asked, List.mem_cons_self, now, hmem, ?_⟩
      have hstored := hm.trans (congrArg (Option.map truncSecond) he)
      show NotAfter (mergeField (st.leaseExpiresAt.map truncSecond)
        (d.leaseExpiresAt.map truncSecond) newest.leaseExpiresAt) now
      rw [hstored]
      exact notAfter_encode hover

/-- **Every run keeps the invariant.** -/
theorem FailedRun.inv (hc : Phased c) (h : FailedRun r c newest versions past) :
    RunInv c newest versions past := by
  induction h with
  | start => exact .start c
  | attempt newest versions past _ st hst v asked res hends hf after hw ih =>
    obtain ⟨left, hp, hstored, -, -⟩ := failed_reconcile hends hf
    have ha := ih.attempted hst hp
    rcases hw with rfl | rfl
    · exact (ih.attempt hst ha).write (ih.kept after ih.mem) (.inl rfl) fun _ _ => .inl rfl
    · rw [hstored newest]
      exact ih.stored hc hst ha

end Runs

/-! ## 4. The reconcile that battery answers -/

/-- **The reconcile after the run and the one without it** are served alike, place by place: the
    first finds the newest status where the second finds the claim as it was, and what the run
    looked up is not handed out again; the clock has not gone back. -/
structure Together (c : MicroVMClaim) (newest : MicroVMClaimStatus) (past : List Trace)
    (f f' : Oracle) : Prop where
  same : ∀ n o, Outside o → f n o = f' n o
  fresh : ∀ n key, (∃ e, f n (.apiGet key) = .error e) ∨
    ∃ v, f n (.apiGet key) = .ok (version c newest v) ∧ f' n (.apiGet key) = .ok c
  lookup : ∀ n id, f n (.lookup id) = f' n (.lookup id) ∨
    (f n (.lookup id) = none ∧ ∃ asked ∈ past, looked asked = some (f' n (.lookup id)))
  answer : ∀ n original object a, f n (.patchMeta original object) = .ok a → a.status = newest
  answer' : ∀ n original object a, f' n (.patchMeta original object) = .ok a →
    a.status = c.status
  later : ∀ asked ∈ past, ∀ t, ⟨.now, t⟩ ∈ asked → ∀ n, t ≤ f n .now

section Last

variable {r : MicroVMClaimReconciler} {c : MicroVMClaim} {newest st : MicroVMClaimStatus}
  {versions : List MicroVMClaimStatus} {past : List Trace} {f f' : Oracle}

theorem Together.passed (ht : Together c newest past f f') (h : Passed past exp) (n : Nat) :
    NotAfter exp (f n .now) := by
  obtain ⟨asked, hmem, now, hnow, hna⟩ := h
  exact fun t he => Int.le_trans (hna t he) (ht.later asked hmem now hnow n)

/-- Where the run looked a Lease up, it was not missing. -/
theorem Together.known (ht : Together c newest past f f') (h : RunInv c newest versions past)
    (hh : holdsLease c = true) (n : Nat) (hne : f n (.lookup c.status.leaseID) ≠ some none) :
    f' n (.lookup c.status.leaseID) ≠ some none := by
  rcases ht.lookup n c.status.leaseID with he | ⟨-, asked, hmem, hlook⟩
  · rw [← he]
    exact hne
  · obtain ⟨known, hlook', hk, -⟩ := h.known hh asked hmem
    cases hlook.symm.trans hlook'
    exact hk

/-- **The expiry is to come for both reconciles or for neither.** -/
theorem Together.coming (ht : Together c newest past f f') (h : RunInv c newest versions past)
    (hst : st ∈ versions) (hh : holdsLease c = true) (hp : pendingRenewal c = false) (n m : Nat) :
    NotAfter (raised st.leaseExpiresAt (f n (.lookup c.status.leaseID))) (f m .now) ↔
      NotAfter (raised c.status.leaseExpiresAt (f' n (.lookup c.status.leaseID))) (f m .now) := by
  -- both expiries are over once the run has been at it
  have hover : past ≠ [] → NotAfter c.status.leaseExpiresAt (f m .now) ∧
      NotAfter st.leaseExpiresAt (f m .now) := by
    intro hne
    have hc := ht.passed (h.passed hh hp hne) m
    refine ⟨hc, ?_⟩
    rcases h.expiry hh hp st hst with he | hq
    · rw [he]
      exact hc
    · exact ht.passed hq m
  rw [notAfter_raised st.leaseExpiresAt, notAfter_raised c.status.leaseExpiresAt]
  rcases ht.lookup n c.status.leaseID with he | ⟨hnone, asked, hmem, hlook⟩
  · rw [he]
    refine and_congr_left fun _ => ?_
    rcases h.expiry hh hp st hst with he | ⟨asked, hmem, hq⟩
    · rw [he]
    · obtain ⟨hc, hs⟩ := hover (List.ne_nil_of_mem hmem)
      exact ⟨fun _ => hc, fun _ => hs⟩
  · obtain ⟨hc, hs⟩ := hover (List.ne_nil_of_mem hmem)
    obtain ⟨known, hlook', -, hq⟩ := h.known hh asked hmem
    cases hlook.symm.trans hlook'
    have hlisted := ht.passed (hq hp) m
    rw [hnone]
    exact ⟨fun _ => ⟨hc, hlisted⟩, fun _ => ⟨hs, nofun⟩⟩

/-- What is stored of a claim being deleted: its status as it was. -/
theorem deleting_stored {a : MicroVMClaim} (ht : Twin a c) (hph : a.status.phase = c.status.phase)
    (hst : Alike st c.status) (hd : a.deleting = true) (h : Pass r a vs)
    (hlast : Reflected (Visit.leftScope (Scope.new a) vs) last o)
    (hpatch : o.scope.patch.Ends tail perr)
    (hanswer : ∀ original object x, ⟨.patchMeta original object, .ok x⟩ ∈ tail → x.status = st) :
    Alike (storedBy st tail) c.status := by
  cases h with
  | guarded hd' | bind hd' | pending hd' | resting hd' => cases hd.symm.trans hd'
  | held _ hh => cases hd.symm.trans (holdsLease_iff.mp hh).2.2
  | released _ asked o' h =>
    change Reflected o'.scope last o at hlast
    have hm := mirrors_of_reflected hlast
    have hwant : Alike o.scope.object.status c.status := by
      refine (alike_of_mirrors ?_ hm (.refl (Scope.new a))).trans (ht.alike hph)
      rw [released_status h]
      exact ⟨rfl, rfl, rfl, rfl, rfl⟩
    have horiginal : o.scope.original = a := hm.original.trans (by cases h <;> rfl)
    by_cases hmeta : o.scope.unpatched = o.scope.original
    · rw [storedBy_patch hmeta hpatch, horiginal]
      have hb := (ht.alike hph).trans hst.symm
      exact (alike_merge hb.leaseID hb.microVM hb.nodeName hb.observedRenewTime
        (.inl hb.phase)).trans hwant
    · unfold Scope.patch at hpatch
      rw [if_neg hmeta] at hpatch
      rcases patchMeta_ends hpatch with ⟨ans, rfl⟩ | ⟨answer, ans, rfl⟩
      · exact hst
      · have hx := hanswer _ _ answer List.mem_cons_self
        refine Alike.trans ?_ hwant
        show Alike (MicroVMClaimStatus.merge answer.status.encode _ st) _
        rw [hx]
        exact alike_merge rfl rfl rfl rfl (.inl rfl)

/-- What is stored of a claim that stays: what its steps left. -/
theorem staying_stored {a : MicroVMClaim} (hd : a.deleting = false) (hr : a.hasRelease = true)
    (h : Pass r a vs) (hlast : Reflected (Visit.leftScope (Scope.new a) vs) last o)
    (hpatch : o.scope.patch.Ends tail perr) (hl : a.status.leaseID = st.leaseID)
    (hv : a.status.microVM = st.microVM)
    (hn : a.status.host.map HostReference.nodeName = st.host.map HostReference.nodeName)
    (ho : a.status.observedRenewTime = st.observedRenewTime)
    (hp : a.status.phase = st.phase ∨ a.status.phase ≠ o.scope.object.status.phase) :
    Alike (storedBy st tail) o.scope.object.status := by
  have hm := mirrors_of_reflected hlast
  have hkeep := pass_sameMeta hd hr h
  have horiginal : o.scope.original = a := hm.original.trans hkeep.original
  have hunpatched : o.scope.unpatched = a := hm.unpatched.trans hkeep.unpatched
  rw [storedBy_patch (hunpatched.trans horiginal.symm) hpatch, horiginal]
  exact alike_merge hl hv hn ho hp

/-- The write of the last reconcile meets the phase its steps left. -/
theorem RunInv.writes_phase (hc : Phased c) (h : RunInv c newest versions past)
    (hst : st ∈ versions) {phase : MicroVMClaimPhase} (hne : Unleased c → phase ≠ .empty) :
    st.phase = newest.phase ∨ st.phase ≠ phase := by
  by_cases hu : Unleased c
  · rcases h.later st hst with he | hpending
    · exact .inl he
    · rcases h.phase st hst with he | ⟨-, -, hp⟩
      · rcases hc.unleased hu.2 with hphase | hphase
        · rw [he, hphase]
          exact .inr (hne hu).symm
        · exact .inl (he.trans (hphase.trans hpending.symm))
      · exact .inl (hp.trans hpending.symm)
  · exact .inl ((h.phase_eq hu hst).trans (h.phase_eq hu h.mem).symm)

/-- Only a claim with the release finalizer gets as far as a call. -/
theorem hasRelease_of_calls {a : MicroVMClaim} (hd : a.deleting = false) (h : Pass r a vs)
    (hcalls : calls (vs.flatMap Visit.asked) ≠ []) : a.hasRelease = true := by
  cases hr : a.hasRelease with
  | true => rfl
  | false =>
    cases h with
    | released hd' => cases hd.symm.trans hd'
    | guarded => exact absurd rfl hcalls
    | bind _ hr' | pending _ hr' | resting _ hr' | held hr' => cases hr.symm.trans hr'

/-- A claim that was free before the run is read free without it. -/
theorem Together.free (ht : Together c newest past f f') (hl : c.status.leaseID = "")
    (hd : c.deleting = false) (hr : c.hasRelease = true) (n : Nat) (key : ObjectKey)
    (fresh : MicroVMClaim) (hX : f n (.apiGet key) = .ok fresh) :
    ∃ fresh', f' n (.apiGet key) = .ok fresh' ∧ Course.free fresh' = true ∧
      fresh.uid = fresh'.uid := by
  rcases ht.fresh n key with ⟨e, he⟩ | ⟨v, hnew, hold⟩
  · cases hX.symm.trans he
  · cases hX.symm.trans hnew
    exact ⟨c, hold, by simp [Course.free, hl, hd, hr], rfl⟩

/-- **The last reconcile ends as it would alone.** -/
theorem reconcile_twin (hc : Phased c) (hinv : RunInv c newest versions past)
    (htog : Together c newest past f f') (hst : st ∈ versions) {v : Nat} {asked' : Trace}
    {res res' : Result × Option String} (h : (r.reconcileClaim (version c st v)).Ends asked res)
    (h' : (r.reconcileClaim c).Ends asked' res') (ha : AnsweredFrom f 0 asked)
    (ha' : AnsweredFrom f' 0 asked') (hcalls : calls asked ≠ [])
    (hanswered : AllAnswered asked) : Alike (storedBy newest asked) (storedBy c.status asked') := by
  obtain ⟨vs, last, o, tail, perr, hvs, hlast, hpatch, rfl, -, hinner⟩ := reconcileClaim_ends h
  obtain ⟨vs', last', o', tail', perr', hvs', hlast', hpatch', rfl, -, hinner'⟩ :=
    reconcileClaim_ends h'
  have hpass := chain_visits hvs
  have hpass' := chain_visits hvs'
  have ht := hinv.twin hst v
  rw [AllAnswered, calls_reconcile hlast hpatch] at hanswered
  rw [calls_reconcile hlast hpatch] at hcalls
  rw [storedBy_inner hinner, storedBy_inner hinner']
  cases hd : c.deleting with
  | true =>
    have hn : ¬ Unleased c := fun hu => by cases hu.1.symm.trans hd
    have hk := hinv.kept newest hinv.mem
    have hnew : Alike newest c.status := ⟨hinv.phase_eq hn hinv.mem, hk.leaseID, hk.microVM,
      hk.nodeName, hk.observedRenewTime⟩
    have hrun := deleting_stored ht (hinv.phase_eq hn hst) hnew (ht.deleting.trans hd) hpass hlast
      hpatch fun original object x hx => by
        obtain ⟨n, hx⟩ := ha.mem (List.mem_append_right _ hx)
        exact htog.answer n original object x hx.symm
    have hself : Twin c c := ⟨rfl, rfl, rfl, rfl, rfl⟩
    have halone := deleting_stored hself rfl (hself.alike rfl) hd hpass' hlast' hpatch'
      fun original object x hx => by
        obtain ⟨n, hx⟩ := ha'.mem (List.mem_append_right _ hx)
        exact htog.answer' n original object x hx.symm
    exact hrun.trans halone.symm
  | false =>
    have hd' : (version c st v).deleting = false := ht.deleting.trans hd
    have hr : (version c st v).hasRelease = true := hasRelease_of_calls hd' hpass hcalls
    have hphase : c.deleting = true ∨ c.status.leaseID ≠ "" → st.phase = c.status.phase := by
      intro hor
      refine hinv.phase_eq (fun hu => ?_) hst
      rcases hor with hd' | hl
      · cases hd.symm.trans hd'
      · exact hl hu.2
    have halike := pass_twin htog.same ht hpass hpass'
      (answeredFrom_append.mp (answeredFrom_append.mp ha).1).1
      (answeredFrom_append.mp (answeredFrom_append.mp ha').1).1 hcalls hanswered hphase
      htog.free (fun hh => htog.known hinv hh) (fun hh hp => htog.coming hinv hst hh hp)
    have hm := mirrors_of_reflected hlast
    have hne : Unleased c → o.scope.object.status.phase ≠ .empty := by
      intro hu
      rw [hm.phase]
      exact answered_phase hd' hr (ht.leaseID.trans hu.2) hpass hcalls hanswered
    have hk := hinv.kept st hst
    have hk' := hinv.kept newest hinv.mem
    have hrun := staying_stored hd' hr hpass hlast hpatch
      (hk.leaseID.trans hk'.leaseID.symm) (hk.microVM.trans hk'.microVM.symm)
      (hk.nodeName.trans hk'.nodeName.symm)
      (hk.observedRenewTime.trans hk'.observedRenewTime.symm) (hinv.writes_phase hc hst hne)
    have halone := staying_stored hd (ht.hasRelease.symm.trans hr) hpass' hlast' hpatch' rfl rfl
      rfl rfl (.inl rfl)
    have hboth := alike_of_mirrors halike hm (mirrors_of_reflected hlast')
    exact hrun.trans (hboth.trans halone.symm)

end Last

/-! ## 5. Failed calls move nothing -/

/-- What a reconcile with failed calls writes of the claim it read. -/
structure Unmoved (c written : MicroVMClaim) (asked : Trace) : Prop where
  metadata : written = { c with status := written.status }
  kept : Kept c.status written.status
  phase : written.status.phase = c.status.phase ∨
    (c.status.phase = .empty ∧ written.status.phase = .pending)
  expiry : written.status.leaseExpiresAt = c.status.leaseExpiresAt ∨
    ∃ rec, looked asked = some (some (some rec)) ∧
      written.status.leaseExpiresAt = some rec.expiresAt ∧
      ∀ t, c.status.leaseExpiresAt = some t → t < rec.expiresAt

theorem raised_cases (exp : Option Time) (known : Option (Option LeaseRecord)) :
    raised exp known = exp ∨ ∃ rec, known = some (some rec) ∧
      raised exp known = some rec.expiresAt ∧ ∀ t, exp = some t → t < rec.expiresAt := by
  match known with
  | none => exact .inl rfl
  | some none => exact .inl rfl
  | some (some rec) =>
    cases exp with
    | none => exact .inr ⟨rec, rfl, rfl, nofun⟩
    | some t =>
      by_cases hlt : t < rec.expiresAt
      · refine .inr ⟨rec, rfl, if_pos hlt, fun t' ht => ?_⟩
        cases ht
        exact hlt
      · exact .inl (if_neg hlt)

theorem unmoved_of_failedPass {c : MicroVMClaim} {left : Scope} (hc : Phased c)
    (h : FailedPass c asked left) : Unmoved c { c with status := left.object.status } asked := by
  cases h with
  | releasing _ h => exact ⟨rfl, h.kept, .inl h.phase, .inl h.expiry⟩
  | binding _ hl phase hph h =>
    refine ⟨rfl, h.kept, ?_, .inl h.expiry⟩
    rcases hph with rfl | rfl
    · exact .inl h.phase
    · rcases hc.unleased hl with hphase | hphase
      · exact .inr ⟨hphase, h.phase⟩
      · exact .inl (h.phase.trans hphase.symm)
  | holding _ h =>
    obtain ⟨known, hlook, -, hleft, -⟩ := h.known
    refine ⟨rfl, hleft.kept, .inl hleft.phase, ?_⟩
    rcases raised_cases c.status.leaseExpiresAt known with he | ⟨rec, rfl, he, hlt⟩
    · exact .inl (hleft.expiry.trans he)
    · exact .inr ⟨rec, hlook, hleft.expiry.trans he, hlt⟩

/-- Battery renews every Lease, seven seconds later. -/
def renewing : (o : Op) → o.Ans
  | .now => 7 * second
  | .receive _ (.heartbeat _) => .ok (60 * second)
  | o => failing (errUnavailable "connection refused") o

/-- The reconcile of a claim with a renewal to relay, while battery is away. -/
def refused : Trace × Result × Option String :=
  (({} : MicroVMClaimReconciler).reconcileClaim (leased none)).answeredBy
    (failing (errUnavailable "connection refused"))

/-- The claim after its write. -/
def kept : MicroVMClaimStatus := storedBy (leased none).status refused.1

/-- The reconciles of the two versions when battery is back. -/
def renewed (c : MicroVMClaim) : Trace × Result × Option String :=
  (({} : MicroVMClaimReconciler).reconcileClaim c).answeredBy renewing

end BatteryOperator.Course
