/-
  Subject:   PHASE, IDENTITY AND BOUND CONDITION. What a stored status says in its phase, in the
             fields that name the Lease, and in its Bound condition is to be one thing.

  The identity agrees with the phase always. The condition does not: a merge patch leaves a phase it
  does not change as it is stored, but replaces the whole list of conditions.
  * `expired_with_bound_condition` -- the schedule: a reconcile on a copy from before the claim was
    expired changes another condition;
  * `status_agrees` -- a status patch meets the phase it was computed from: then **every stored
    status agrees with itself**.
-/
import BatteryOperator.Claim.Ownership

namespace BatteryOperator

open Lib

variable {r : MicroVMClaimReconciler} {w : ClaimWorld}

/-! ## 1. Agreement -/

/-- What a phase asks of the Bound condition. -/
def Signals (phase : MicroVMClaimPhase) (bound : Option (ConditionStatus × String)) : Prop :=
  match phase with
  | .bound => ∃ reason, bound = some (.true, reason)
  | .expired => bound = some (.false, reasonLeaseExpired)
  | _ => ∀ reason, bound ≠ some (.true, reason)

/-- **A status that agrees with itself.** -/
structure Agrees (st : MicroVMClaimStatus) : Prop where
  bound : st.phase = .bound → st.leaseID ≠ "" ∧ (∃ uid, st.microVM = some ⟨uid⟩ ∧ uid ≠ "") ∧
    (∃ node, st.nodeName = some node ∧ node ≠ "") ∧ st.boundTime.isSome = true ∧
    ∃ reason, boundOf st.conditions = some (.true, reason)
  expired : st.phase = .expired →
    st.leaseID ≠ "" ∧ boundOf st.conditions = some (.false, reasonLeaseExpired)
  pending : st.phase = .pending →
    st.leaseID = "" ∧ ∀ reason, boundOf st.conditions ≠ some (.true, reason)

/-- The identity agrees with the phase in every version; the condition has to be told. -/
theorem Inv.agrees {s : Shared} {k : ObjectKey} {v : MicroVMClaim} (hI : Inv s)
    (hv : Version s.claims k v) (hs : Signals v.status.phase (boundOf v.status.conditions)) :
    Agrees v.status := by
  have hok := hI.store.ok k v hv
  constructor
  case bound =>
    intro hb
    have hne : v.status.leaseID ≠ "" := by
      intro he
      rcases (hok.unbound he).phase with hp | hp
      · simp [hp] at hb
      · simp [hp] at hb
    have hrec := hok.recorded hne
    obtain ⟨c, e, hr, hl, _, hvm, hn⟩ := hrec.answered
    rw [hb] at hs
    exact ⟨hne, ⟨c.vmUID, hvm, (hI.ledger.named _ _ _ _ _ hl).2⟩,
      ⟨c.host.name, hn, (hI.ledger.replied _ _ hr).1⟩, hrec.boundTime, hs⟩
  case expired =>
    intro he
    rw [he] at hs
    refine ⟨fun hid => ?_, hs⟩
    rcases (hok.unbound hid).phase with hp | hp
    · simp [hp] at he
    · simp [hp] at he
  case pending =>
    intro hp
    rw [hp] at hs
    refine ⟨?_, hs⟩
    by_contra hne
    rcases (hok.recorded hne).phase with hb | he
    · simp [hp] at hb
    · simp [hp] at he

/-! ## 2. A status patch that meets its phase -/

theorem Signals.unbound {st : MicroVMClaimStatus} (hu : Unbound st)
    (hs : Signals st.phase (boundOf st.conditions)) :
    ∀ reason, boundOf st.conditions ≠ some (.true, reason) := by
  rcases hu.phase with hp | hp
  · rw [hp] at hs
    exact hs
  · rw [hp] at hs
    exact hs

/-- **A patch against the phase it was computed from** leaves a condition that agrees with the
    phase: either it leaves both lists and phases alone, or it writes both. -/
theorem Patched.signals {s : Shared} {k : ObjectKey} {base st : MicroVMClaim}
    {d m : MicroVMClaimStatus} (h : Patched s k base d st m)
    (hbase : Signals base.status.phase (boundOf base.status.conditions))
    (hst : Signals st.status.phase (boundOf st.status.conditions))
    (hphase : st.status.phase = base.status.phase)
    (hm : (boundOf base.status.conditions = boundOf d.conditions ∧
      m.conditions = st.status.conditions) ∨ boundOf m.conditions = boundOf d.conditions) :
    Signals m.phase (boundOf m.conditions) := by
  cases h with
  | touched ok same =>
    have hp : m.phase = st.status.phase := by rw [same]
    rw [hp]
    rcases hm with ⟨_, hc⟩ | hc
    · rw [hc]
      exact hst
    · rw [hc, ok.bound, hphase]
      exact hbase
  | pending ok ubase ust same =>
    have hp : m.phase = .pending := by
      have hp : m.phase = mergeField base.status.phase .pending st.status.phase := by rw [same]
      rw [hp, hphase]
      exact mergeField_base _ _
    rw [hp]
    rcases hm with ⟨_, hc⟩ | hc
    · rw [hc]
      exact hst.unbound ust
    · obtain ⟨reason, hr⟩ := ok.bound
      rw [hc, hr]
      nofun
  | held ok uid bound keeps leaseID phase =>
    rw [bound] at hbase hphase
    rcases phase with ⟨hd, hp⟩ | ⟨hd, hp⟩
    · rw [hp, hphase]
      rw [hphase] at hst
      rcases hm with ⟨_, hc⟩ | hc
      · rw [hc]
        exact hst
      · rcases ok.phase with ⟨_, hb⟩ | ⟨he, _⟩
        · rw [hc, hb]
          exact hbase
        · simp [he] at hd
    · rw [hp]
      rcases ok.phase with ⟨hb, _⟩ | ⟨_, hb, _⟩
      · simp [hb] at hd
      · rcases hm with ⟨hc, _⟩ | hc
        · -- the copy's condition was true, so the list changed
          obtain ⟨reason, ht⟩ := hbase
          simp [ht, hb] at hc
        · rw [hc]
          exact hb
  | bound claimed ok ubase ust uid phase leaseID =>
    rw [phase]
    rcases hm with ⟨hc, _⟩ | hc
    · rw [ok.bound] at hc
      exact absurd hc (hbase.unbound ubase _)
    · rw [hc]
      exact ⟨reasonBound, ok.bound⟩

/-- A status patch meets the stored phase that it was computed from. -/
def phaseMet (w : ClaimWorld) : ClaimAct → Bool
  | .exec (.claim k) _ =>
    match w.running (.claim k), w.shared.stored k with
    | some (.op (.patchStatus base _) _), some st => st.status.phase = base.status.phase
    | _, _ => true
  | _ => true

/-- Every version's condition agrees with its phase. -/
def AllSignal (s : Shared) : Prop :=
  ∀ k v, Version s.claims k v → Signals v.status.phase (boundOf v.status.conditions)

theorem AllSignal.kin {s s' : Shared} {k : ObjectKey} {v : MicroVMClaim} (h : AllSignal s)
    (hk : Kin k s s') (hv : Version s'.claims k v) :
    Signals v.status.phase (boundOf v.status.conditions) := by
  rcases hk.version hv with hold | ⟨_, hz⟩ | ⟨st, hst, _, hs⟩
  · exact h k v hold
  · rw [hz]
    nofun
  · rw [hs]
    exact h k st (Inv.stored_version hst)

/-- **Every stored status agrees with itself**, in every run whose status patches meet the phase
    they were computed from. -/
theorem status_agrees (h : ReachableBy r (fun w a => phaseMet w a = true) w) :
    ∀ k v, Version w.shared.claims k v → Agrees v.status := by
  have hall : AllSignal w.shared := by
    refine h.invariant (fun w0 h0 k v hv => absurd hv h0.no_version) ?_ ?_ ?_
    · intro w e s' _ _ hC hx _ k v hv
      exact hC.kin (env_versions hx) hv
    · intro w t c o f a s' hok hrun hI hpre hC hx _ k v hv
      rcases exec_versions (k := k) hI hpre hx with hkin | ⟨base, object, rfl, rfl, hp⟩
      · exact hC.kin hkin hv
      · rcases hp.version hI hv with hold | ⟨st, hst, rfl, hpat⟩
        · exact hC k v hold
        · simp only [phaseMet, hrun, hst] at hok
          refine hpat.signals (hC k base hp.1.version) (hC k st (Inv.stored_version hst))
            (of_decide_eq_true hok) ?_
          rcases MicroVMClaimStatus.boundOf_merge base.status object.status st.status with
            ⟨he, hc⟩ | hc
          · refine .inl ⟨?_, hc⟩
            rw [← MicroVMClaimStatus.boundOf_encode base.status,
              ← MicroVMClaimStatus.boundOf_encode object.status, he]
          · exact .inr hc
    · exact fun s _ hC k v hv => hC k v hv
  exact fun k v hv => h.inv.agrees hv (hall k v hv)

theorem status_agrees_bound : ∃ w, ReachableBy {} (fun w a => phaseMet w a = true) w ∧
    ∃ st, w.shared.stored claimKey = some st ∧ st.status.phase = .bound ∧ Agrees st.status := by
  obtain ⟨w, hr, hb⟩ := exists_after phaseMet (bound none) (fun w => phaseOf w = some .bound)
    (by decide +kernel)
  obtain ⟨st, hst, hb⟩ := Option.map_eq_some_iff.mp hb
  exact ⟨w, hr, st, hst, hb, status_agrees hr claimKey st (Inv.stored_version hst)⟩

/-- A reconcile expires the claim; the next one reads the copy from before that, and its
    ListLeases gets no answer. -/
def staleCondition : List ClaimAct :=
  bound none ++ .env (.tick 40000000000) :: reconcileNow ++ operations 5 ++
    .exec (.claim claimKey) (.serve .carryOut none) :: operations 5 ++
    .spawn (.claim claimKey) :: operations 5 ++
    .exec (.claim claimKey) (.lost ⟨.unavailable, "no connection"⟩) :: operations 7

/-- Its Synced condition brings the old list back: the claim is stored Expired with the condition
    Bound true. -/
theorem expired_with_bound_condition : ∃ w st, Reachable {} w ∧
    w.shared.stored claimKey = some st ∧ st.status.phase = .expired ∧
      boundOf st.status.conditions = some (.true, reasonBound) :=
  exists_stored staleCondition claimKey _ (by decide +kernel)

end BatteryOperator
