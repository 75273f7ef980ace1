/-
  Subject:   What the chain of the Claim Controller may do to its scope, however its operations are
             answered.

  A step asks for no patch and leaves the claim as fetched. Only a step that stops the chain changes
  the finalizers of the working copy, and only by the release finalizer.

  * `release_footprint`, ..., `hostReady_stays` -- what each step may leave, however it ends;
  * `chain_within` -- **the chain's footprint**.
-/
import BatteryOperator.Claim.Course

namespace BatteryOperator.Writes

open Lib Finalizing Course

/-! ## 1. The footprint of a step -/

/-- The operations of the steps: none reads the claim from the cache, and none patches it. -/
def Inner : Op → Prop
  | .cacheGet _ => False
  | .patchMeta _ _ => False
  | .patchStatus _ _ => False
  | _ => True

/-- The release finalizer and the scope of a claim. -/
def releasing : Finalizing Scope MicroVMClaim where
  own := releaseFinalizer
  original := Scope.original
  finalizers sc := sc.object.finalizers

abbrev Footprint (sc : Scope) (o : Outcome Scope) : Prop := releasing.Footprint sc o

/-- The metadata of the working copy, and the claim as fetched, are as they were. -/
structure SameMeta (sc sc' : Scope) : Prop where
  original : sc'.original = sc.original
  unpatched : sc'.unpatched = sc.unpatched

theorem SameMeta.trans {a b c : Scope} (h : SameMeta a b) (h' : SameMeta b c) : SameMeta a c :=
  ⟨h'.original.trans h.original, h'.unpatched.trans h.unpatched⟩

theorem SameMeta.steady {sc sc' : Scope} (h : SameMeta sc sc') : releasing.Steady sc sc' := by
  refine ⟨h.original, ?_⟩
  show sc'.unpatched.finalizers = sc.unpatched.finalizers
  rw [h.unpatched]

/-! ## 2. The steps -/

variable {sc : Scope} {asked : Trace} {o : Outcome Scope}

/-- The release finalizer goes. -/
theorem removed_footprint {sc sc' : Scope} {err : Option String} (h : SameMeta sc sc') :
    Footprint sc ⟨sc'.removeFinalizer, { stop := true }, err⟩ := by
  refine ⟨h.original, .inr ⟨rfl, .inr (.inr ?_)⟩⟩
  rw [← h.steady.finalizers]
  rfl

theorem release_footprint {r : Release} (h : Released r sc asked o) :
    (∀ e ∈ asked, Inner e.1) ∧ Footprint sc o := by
  cases h with
  | idle | done => exact ⟨by simp, rfl, .inl rfl⟩
  | unleased => exact ⟨by simp, removed_footprint ⟨rfl, rfl⟩⟩
  | released => exact ⟨by simp [exchange, Inner], removed_footprint ⟨rfl, rfl⟩⟩
  | transit | failed => exact ⟨by simp [exchange, Inner], rfl, .inl rfl⟩

theorem ensureFinalizer_footprint (h : Ensured sc asked o) :
    (∀ e ∈ asked, Inner e.1) ∧ Footprint sc o := by
  cases h with
  | deleted | there => exact ⟨by simp, rfl, .inl rfl⟩
  | added hd hr =>
    have hadd : sc.object.addFinalizer releaseFinalizer =
        { sc.object with finalizers := sc.object.finalizers ++ [releaseFinalizer] } :=
      if_neg (Bool.eq_false_iff.mp hr)
    refine ⟨by simp, rfl, .inr ⟨rfl, .inr (.inl ?_)⟩⟩
    show (sc.object.addFinalizer releaseFinalizer).finalizers = _
    rw [hadd]
    rfl

/-- The other steps leave the claim's metadata alone. -/
def Stays (sc : Scope) (asked : Trace) (o : Outcome Scope) : Prop :=
  (∀ e ∈ asked, Inner e.1) ∧ SameMeta sc o.scope

theorem within_of_stays {sub : Code (Outcome Scope)}
    (h : ∀ asked o, sub.Ends asked o → Stays sc asked o) : sub.Within Inner (Footprint sc) :=
  Prog.within_of_ends (failing (errUnavailable "")) fun asked o he =>
    ⟨(h asked o he).1, (h asked o he).2.steady.footprint⟩

theorem bind_stays {b : Bind} (h : Bound b sc asked o) : Stays sc asked o := by
  cases h with
  | idle => exact ⟨by simp, rfl, rfl⟩
  | unread | gone | taken | poolUnread | poolDeleting | full =>
    exact ⟨by simp [Inner], rfl, rfl⟩
  | claim _ fresh _ pool _ asked slotted hs o hc =>
    have hclaim : Stays sc asked o := by
      cases hc <;> exact ⟨by simp [exchange, Inner], rfl, rfl⟩
    refine ⟨?_, hclaim.2⟩
    generalize b.slots = slots at hs
    cases hs with
    | unbounded => simpa [Inner] using hclaim.1
    | taken => simpa [Inner, or_imp, forall_and] using hclaim.1

theorem pending_stays {p : Pending} (h : Pended p sc asked o) : Stays sc asked o := by
  cases h with
  | idle => exact ⟨by simp, rfl, rfl⟩
  | pending => exact ⟨by simp [Inner], rfl, rfl⟩

theorem expireDeleted_stays (h : Deleted sc asked o) : Stays sc asked o := by
  cases h with
  | idle => exact ⟨by simp, rfl, rfl⟩
  | there | gone => exact ⟨by simp [expiring, Inner], rfl, rfl⟩

theorem recover_stays (h : Recovered sc asked o) : Stays sc asked o := by
  cases h with
  | idle => exact ⟨by simp, rfl, rfl⟩
  | unknown | missing | listed => exact ⟨by simp [expiring, Inner], rfl, rfl⟩

theorem renew_stays {r : Renew} (h : Renewed r sc asked o) : Stays sc asked o := by
  cases h with
  | idle => exact ⟨by simp, rfl, rfl⟩
  | gone | transit | failed | renewed =>
    exact ⟨by simp [exchange, expiring, Inner], rfl, rfl⟩

theorem checkExpiry_stays {c : CheckExpiry} (h : Checked c sc asked o) : Stays sc asked o := by
  cases h with
  | idle => exact ⟨by simp, rfl, rfl⟩
  | coming | transit | failed => exact ⟨by simp [exchange, Inner], rfl, rfl⟩
  | answered _ _ _ _ _ asked o hs =>
    cases hs <;> exact ⟨by simp [exchange, expiring, Inner], rfl, rfl⟩

theorem agentAddress_stays (h : Addressed sc asked o) : Stays sc asked o := by
  cases h with
  | idle => exact ⟨by simp, rfl, rfl⟩
  | unread | read => exact ⟨by simp [Inner], rfl, rfl⟩

theorem hostReady_stays (h : Reported sc asked o) : Stays sc asked o := by
  cases h with
  | idle => exact ⟨by simp, rfl, rfl⟩
  | unread | read => exact ⟨by simp [Inner], rfl, rfl⟩

/-! ## 3. The chain -/

/-- **The chain's footprint.** -/
theorem chain_within (r : MicroVMClaimReconciler) (c : MicroVMClaim) :
    (r.chain.run (Scope.new c)).Within Inner fun o => releasing.Changed (Scope.new c) o.scope := by
  refine Finalizing.within_chain _ (fun sub hsub sc => ?_) (fun sub hsub sc => ?_) _
  · simp only [MicroVMClaimReconciler.chain, List.mem_cons, List.not_mem_nil, or_false] at hsub
    rcases hsub with rfl | rfl | rfl | rfl | rfl | rfl | rfl | rfl | rfl | rfl
    · exact Prog.within_of_ends (failing (errUnavailable "")) fun _ _ h =>
        release_footprint (release_ends h)
    · exact Prog.within_of_ends (failing (errUnavailable "")) fun _ _ h =>
        ensureFinalizer_footprint (ensureFinalizer_ends h)
    · exact within_of_stays fun _ _ h => bind_stays (bind_ends h)
    · exact within_of_stays fun _ _ h => pending_stays (pending_ends h)
    · exact within_of_stays fun _ _ h => expireDeleted_stays (expireDeleted_ends h)
    · exact within_of_stays fun _ _ h => recover_stays (recover_ends h)
    · exact within_of_stays fun _ _ h => renew_stays (renew_ends h)
    · exact within_of_stays fun _ _ h => checkExpiry_stays (checkExpiry_ends h)
    · exact within_of_stays fun _ _ h => agentAddress_stays (agentAddress_ends h)
    · exact within_of_stays fun _ _ h => hostReady_stays (hostReady_ends h)
  · simp only [MicroVMClaimReconciler.chain, List.mem_singleton] at hsub
    subst hsub
    refine Prog.within_of_ends (failing (errUnavailable "")) fun asked o h => ?_
    cases synced_ends h with
    | idle => exact ⟨by simp, .refl sc⟩
    | set => exact ⟨by simp [Inner], rfl, rfl⟩

end BatteryOperator.Writes
