/-
  Subject:   TRACES: what happened, newest first. Nothing here names a particular event.

  A trace only grows at its head, so an older trace is a suffix of a newer one. `Precedes` says
  that one event of a trace is older than another, and can be computed.

  * `Precedes.mono` -- the order is kept as the trace grows;
  * `precedes_cons_iff` -- what a new event adds;
  * `Precedes.of_append` -- events since do not change the order.
-/
import Mathlib.Data.List.Infix

namespace BatteryOperator.Lib

variable {ε : Type}

/-- Event `a` is older than event `b` in trace `h`. -/
def Precedes (a b : ε) (h : List ε) : Prop := ∃ new old, h = new ++ old ∧ b ∈ new ∧ a ∈ old

variable {a b : ε} {h : List ε}

theorem Precedes.mono {h' : List ε} (hp : Precedes a b h) (hle : h <:+ h') : Precedes a b h' := by
  obtain ⟨new, old, rfl, hb, ha⟩ := hp
  obtain ⟨more, rfl⟩ := hle
  exact ⟨more ++ new, old, (List.append_assoc more new old).symm, List.mem_append_right _ hb, ha⟩

theorem Precedes.older_mem (hp : Precedes a b h) : a ∈ h := by
  obtain ⟨new, old, rfl, _, ha⟩ := hp
  exact List.mem_append_right _ ha

theorem Precedes.newer_mem (hp : Precedes a b h) : b ∈ h := by
  obtain ⟨new, old, rfl, hb, _⟩ := hp
  exact List.mem_append_left _ hb

/-- A new event comes after every event there was. -/
theorem precedes_cons_self (ha : a ∈ h) : Precedes a b (b :: h) :=
  ⟨[b], h, rfl, List.mem_cons_self, ha⟩

/-- **What a new event adds**: it comes after the old ones, and the old ones keep their order. -/
theorem precedes_cons_iff {c : ε} : Precedes a b (c :: h) ↔ (b = c ∧ a ∈ h) ∨ Precedes a b h := by
  constructor
  · intro hprec
    obtain ⟨new, old, he, hb, ha⟩ := hprec
    cases new with
    | nil => exact absurd hb List.not_mem_nil
    | cons d new =>
      obtain ⟨rfl, rfl⟩ := List.cons.inj he
      rcases List.mem_cons.mp hb with rfl | hb
      · exact .inl ⟨rfl, List.mem_append_right _ ha⟩
      · exact .inr ⟨new, old, rfl, hb, ha⟩
  · intro hcase
    rcases hcase with ⟨rfl, ha⟩ | hp
    · exact precedes_cons_self ha
    · exact hp.mono (List.suffix_cons c h)

/-- The order of two events does not depend on events since, the newer one being none of them. -/
theorem Precedes.of_append {new : List ε} (hp : Precedes a b (new ++ h)) (hb : b ∉ new) :
    Precedes a b h := by
  induction new with
  | nil => exact hp
  | cons c new ih =>
    rcases precedes_cons_iff.mp hp with ⟨heq, _⟩ | hp
    · rw [heq] at hb
      exact absurd List.mem_cons_self hb
    · exact ih hp fun hm => hb (List.mem_cons_of_mem c hm)

theorem not_precedes_nil : ¬ Precedes a b [] := fun hp => List.not_mem_nil hp.older_mem

instance instDecidablePrecedes [DecidableEq ε] (a b : ε) : (h : List ε) → Decidable (Precedes a b h)
  | [] => .isFalse not_precedes_nil
  | _ :: h =>
    have := instDecidablePrecedes a b h
    decidable_of_iff _ precedes_cons_iff.symm

end BatteryOperator.Lib
