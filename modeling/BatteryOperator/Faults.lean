/-
  Subject:   Calls of the API server that fail.

  A call ends as the API server answers it, or it fails with an error that says nothing about it:
  before it took effect, or after. A failure is told apart from the answers NotFound,
  AlreadyExists, Conflict and Invalid, which the API server gives without taking any effect.

  * `ApiFault.read`, `ApiFault.write` -- a read and a write under a fault;
  * `write_state`, `write_answered`, `write_applied` -- **what the answer of a write says of the
    state it leaves**.
-/
import BatteryOperator.Claim.Scope

namespace BatteryOperator

/-- `apierrors.IsAlreadyExists`. -/
def ApiError.isAlreadyExists (e : ApiError) : Bool := e.kind = .alreadyExists

theorem ApiError.kind_of_isNotFound {e : ApiError} (h : e.isNotFound = true) :
    e.kind ≠ .other := by
  intro he
  simp [ApiError.isNotFound, he] at h

theorem ApiError.kind_of_isAlreadyExists {e : ApiError} (h : e.isAlreadyExists = true) :
    e.kind ≠ .other := by
  intro he
  simp [ApiError.isAlreadyExists, he] at h

/-- How a call ends: answered, or failed after or before it was applied. -/
inductive ApiFault where
  | none
  | failed (applied : Bool) (text : String)
  deriving DecidableEq

namespace ApiFault

variable {α σ : Type}

/-- A read: what there is, or a failure that says nothing about it. -/
def read (value : Except ApiError α) : ApiFault → Except ApiError α
  | .none => value
  | .failed _ text => .error ⟨.other, text⟩

/-- A write: what it does, or a failure after or before it was applied. -/
def write (written : Except ApiError α × σ) (s : σ) : ApiFault → Except ApiError α × σ
  | .none => written
  | .failed true text => (.error ⟨.other, text⟩, written.2)
  | .failed false text => (.error ⟨.other, text⟩, s)

variable {f : ApiFault} {written : Except ApiError α × σ} {s s' : σ} {r : Except ApiError α}

theorem read_ok {value : Except ApiError α} {a : α} (h : f.read value = .ok a) : value = .ok a := by
  cases f with
  | none => exact h
  | failed applied text => cases h

section Write

variable (h : f.write written s = (r, s'))
include h

/-- **A write was applied or it was not**, and one that succeeded was. -/
theorem write_cases :
    (r = written.1 ∧ s' = written.2) ∨
      (∃ text, r = .error ⟨.other, text⟩ ∧ (s' = written.2 ∨ s' = s)) := by
  cases f with
  | none =>
    obtain ⟨r', t⟩ := written
    cases h
    exact .inl ⟨rfl, rfl⟩
  | failed applied text =>
    cases applied with
    | true =>
      cases h
      exact .inr ⟨text, rfl, .inl rfl⟩
    | false =>
      cases h
      exact .inr ⟨text, rfl, .inr rfl⟩

theorem write_state : s' = written.2 ∨ s' = s := by
  rcases write_cases h with ⟨_, hs⟩ | ⟨_, _, hs⟩
  · exact .inl hs
  · exact hs

/-- **A write that succeeded, or ended with one of the API server's own answers, was applied** as
    far as that answer says. -/
theorem write_answered (hr : ∀ e, r = .error e → e.kind ≠ .other) :
    r = written.1 ∧ s' = written.2 := by
  rcases write_cases h with hw | ⟨text, he, _⟩
  · exact hw
  · exact absurd rfl (hr _ he)

/-- **A write was applied, and a success is its own, or it was not, and it failed.** -/
theorem write_applied :
    (s' = written.2 ∧ ∀ v, r = .ok v → written.1 = .ok v) ∨ (s' = s ∧ ∀ v, r ≠ .ok v) := by
  rcases write_cases h with ⟨hr, hs⟩ | ⟨text, hr, hs⟩
  · exact .inl ⟨hs, fun v hv => hr.symm.trans hv⟩
  · have hne : ∀ v, r ≠ .ok v := fun v hv => by
      simp [hr] at hv
    rcases hs with hs | hs
    · exact .inl ⟨hs, fun v hv => absurd hv (hne v)⟩
    · exact .inr ⟨hs, hne⟩

end Write

/-- A write that the API server refuses. -/
theorem write_refused {e : ApiError} (h : f.write (.error e, s) s = (r, s')) :
    s' = s ∧ ∀ v, r ≠ .ok v := by
  rcases write_applied h with ⟨hs, hr⟩ | hs
  · exact ⟨hs, fun v hv => nomatch hr v hv⟩
  · exact hs

end ApiFault

end BatteryOperator
