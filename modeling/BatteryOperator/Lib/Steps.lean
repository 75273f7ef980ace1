/-
  Subject:   SYSTEMS GIVEN BY A STEP FUNCTION. Nothing here names a particular system.

  A step takes a state and an action to the next state, where the action is enabled.

  * `Run step ok s₀ s` -- `s` is reached from `s₀` by steps that all meet a condition;
  * `Run.keeps` -- what every step keeps, a run keeps;
  * `replay`, `exists_run` -- steps that can be computed are a run.
-/
import Mathlib.Data.Option.Basic

namespace BatteryOperator.Lib.Steps

variable {σ α : Type}

/-- The states that runs from `s₀` lead to, if every step meets the condition. -/
inductive Run (step : σ → α → Option σ) (ok : σ → α → Bool) (s₀ : σ) : σ → Prop where
  | refl : Run step ok s₀ s₀
  | next {s s' : σ} (a : α) : Run step ok s₀ s → ok s a → step s a = some s' → Run step ok s₀ s'

variable {step : σ → α → Option σ} {ok : σ → α → Bool} {s₀ s s' : σ}

/-- What every step keeps, a run keeps. -/
theorem Run.keeps {I : σ → Prop} (h : Run step ok s₀ s) (h0 : I s₀)
    (hstep : ∀ s a s', I s → ok s a → step s a = some s' → I s') : I s := by
  induction h with
  | refl => exact h0
  | next a _ hok h ih => exact hstep _ a _ ih hok h

/-- The steps of a list, as long as they meet the condition. -/
def replay (step : σ → α → Option σ) (ok : σ → α → Bool) : σ → List α → Option σ
  | s, [] => some s
  | s, a :: acts => if ok s a then (step s a).bind fun s => replay step ok s acts else none

theorem run_replay {acts : List α} (h : Run step ok s₀ s)
    (hr : replay step ok s acts = some s') : Run step ok s₀ s' := by
  induction acts generalizing s with
  | nil =>
    obtain rfl : s = s' := Option.some.inj hr
    exact h
  | cons a acts ih =>
    obtain ⟨hok, hr⟩ := Option.ite_none_right_eq_some.mp hr
    obtain ⟨s₁, hs, hr⟩ := Option.bind_eq_some_iff.mp hr
    exact ih (h.next a hok hs) hr

/-- A list of steps that can be taken is a run. -/
theorem exists_run (step : σ → α → Option σ) (ok : σ → α → Bool) (s : σ) (acts : List α)
    (P : σ → Bool) (hP : (replay step ok s acts).any P) : ∃ s', Run step ok s s' ∧ P s' := by
  cases hs : replay step ok s acts with
  | none => simp [hs] at hP
  | some s' => exact ⟨s', run_replay .refl hs, by simpa [hs] using hP⟩

end BatteryOperator.Lib.Steps
