/-
  Subject:   MERGE PATCHES OF A DIFFERENCE. Nothing here names a particular object.

  A client that writes the difference of a base and a wanted value sends only what differs, and
  the server puts that into whatever it stores by then. On one field this is `mergeField`; on an
  optional object, field by field, `mergeObject`. A list is one field: a changed list replaces the
  stored one whole.

  * `mergeField_base` -- against an unchanged store the patch gives the wanted value;
  * `mergeField_cases` -- otherwise a field is the stored one or the wanted one.
-/
import Mathlib.Logic.Basic

namespace BatteryOperator.Lib

variable {α : Type} [DecidableEq α]

/-- One field of the stored object after a merge patch of the difference from `base` to
    `desired`. -/
def mergeField (base desired stored : α) : α := if base = desired then stored else desired

@[simp] theorem mergeField_self (a stored : α) : mergeField a a stored = stored := if_pos rfl

theorem mergeField_of_ne {base desired : α} (h : base ≠ desired) (stored : α) :
    mergeField base desired stored = desired := if_neg h

theorem mergeField_base (base desired : α) : mergeField base desired base = desired := by
  unfold mergeField
  split
  · assumption
  · rfl

theorem mergeField_cases (base desired stored : α) :
    (base = desired ∧ mergeField base desired stored = stored) ∨
      (base ≠ desired ∧ mergeField base desired stored = desired) := by
  by_cases h : base = desired
  · exact .inl ⟨h, if_pos h⟩
  · exact .inr ⟨h, if_neg h⟩

/-- An optional object after a merge patch: an object taken out is removed, a changed one is
    merged field by field (`m`) into what is stored, `empty` where nothing is. -/
def mergeObject (empty : α) (m : α → α → α → α) : Option α → Option α → Option α → Option α
  | none, none, stored => stored
  | some _, none, _ => none
  | base, some desired, stored =>
    if base = some desired then stored
    else some (m (base.getD empty) desired (stored.getD empty))

theorem mergeObject_some (empty : α) (m : α → α → α → α) (base : Option α) (desired : α)
    (stored : Option α) : mergeObject empty m base (some desired) stored =
      if base = some desired then stored
      else some (m (base.getD empty) desired (stored.getD empty)) := by
  cases base with
  | none | some => rfl

@[simp] theorem mergeObject_self (empty : α) (m : α → α → α → α) (a stored : Option α) :
    mergeObject empty m a a stored = stored := by
  cases a with
  | none => rfl
  | some a => exact if_pos rfl

/-- Against an unchanged store an object is the wanted one. -/
theorem mergeObject_base (empty : α) {m : α → α → α → α} (hm : ∀ b d, m b d b = d)
    (base desired : Option α) : mergeObject empty m base desired base = desired := by
  cases desired with
  | none =>
    cases base with
    | none | some => rfl
  | some d =>
    rw [mergeObject_some, hm]
    split
    · assumption
    · rfl

end BatteryOperator.Lib
