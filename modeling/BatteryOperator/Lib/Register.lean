/-
  Subject:   A REGISTER WITH A LAGGING READER. Nothing here names a particular store.

  A register keeps every value it ever held, newest first, and how many of the newest ones its
  reader has not seen yet. The reader's copy may be any number of values behind the register, but
  it never goes back: `sync` only moves it on, and a `push` leaves it where it is.

  * `window` -- the values from the newest down to the reader's copy: what the reader can still
    read. A push adds the new value to it, a sync only takes older values away;
  * `copy_mem_window`, `current_mem_window`, `window_subset` -- where the copy and the newest
    value stand;
  * `window_push`, `copy_push`, `window_sync_subset` -- how the operations move it;
  * `copy_oldest` -- against an order in which newer values are above older ones, the copy is the
    least value of the window.
-/
import Mathlib.Data.List.Basic
import Mathlib.Data.List.Infix

namespace BatteryOperator.Lib

/-- A register's values, newest first, and how far its reader is behind. -/
structure Register (α : Type) where
  current : α
  past : List α
  behind : Nat
  /-- The reader's copy is one of the values. -/
  behind_le : behind ≤ past.length

namespace Register

variable {α : Type}

/-- A register that holds `a`, which its reader has seen. -/
def init (a : α) : Register α := ⟨a, [], 0, Nat.le_refl 0⟩

/-- Every value the register held, newest first. -/
def versions (r : Register α) : List α := r.current :: r.past

/-- A write: the reader falls one further behind. -/
def push (r : Register α) (a : α) : Register α :=
  ⟨a, r.versions, r.behind + 1, Nat.succ_le_succ r.behind_le⟩

/-- The reader catches up until it is at most `n` values behind. -/
def sync (r : Register α) (n : Nat) : Register α :=
  ⟨r.current, r.past, min n r.behind, Nat.le_trans (Nat.min_le_right _ _) r.behind_le⟩

/-- The reader's copy. -/
def copy (r : Register α) : α :=
  r.versions.get ⟨r.behind, Nat.lt_succ_of_le r.behind_le⟩

/-- The values the reader can still read: its copy and everything newer. -/
def window (r : Register α) : List α := r.versions.take (r.behind + 1)

@[simp] theorem current_sync (r : Register α) (n : Nat) : (r.sync n).current = r.current := rfl

@[simp] theorem versions_sync (r : Register α) (n : Nat) : (r.sync n).versions = r.versions := rfl

@[simp] theorem current_push (r : Register α) (a : α) : (r.push a).current = a := rfl

theorem versions_push (r : Register α) (a : α) : (r.push a).versions = a :: r.versions := rfl

theorem mem_versions_push {r : Register α} {a x : α} :
    x ∈ (r.push a).versions ↔ x = a ∨ x ∈ r.versions := List.mem_cons

variable (r : Register α)

theorem current_mem : r.current ∈ r.versions := List.mem_cons_self

theorem window_subset : r.window ⊆ r.versions := List.take_subset _ _

theorem copy_mem_window : r.copy ∈ r.window := by
  unfold copy window
  refine List.mem_take_iff_getElem.mpr ⟨r.behind, ?_, rfl⟩
  have h : r.behind < r.versions.length := Nat.lt_succ_of_le r.behind_le
  omega

theorem current_mem_window : r.current ∈ r.window := by
  unfold window versions
  rw [List.take_succ_cons]
  exact List.mem_cons_self

/-- A write leaves the reader's copy. -/
@[simp] theorem copy_push (a : α) : (r.push a).copy = r.copy := rfl

/-- A write adds its value to what the reader can still read. -/
theorem window_push (a : α) : (r.push a).window = a :: r.window := by
  unfold window
  rw [versions_push]
  exact List.take_succ_cons

/-- Catching up only takes values away. -/
theorem window_sync_subset (n : Nat) : (r.sync n).window ⊆ r.window := by
  unfold window
  rw [versions_sync]
  refine List.take_subset_take_left _ ?_
  have h : min n r.behind ≤ r.behind := Nat.min_le_right _ _
  exact Nat.succ_le_succ h

/-- **The copy is the oldest value of the window**: every other one stands above it. -/
theorem copy_oldest {r : Register α} {P : α → α → Prop} (hP : r.versions.Pairwise P)
    {x : α} (hx : x ∈ r.window) : x = r.copy ∨ P x r.copy := by
  obtain ⟨i, hi, rfl⟩ := List.mem_take_iff_getElem.mp hx
  have hb : r.behind < r.versions.length := Nat.lt_succ_of_le r.behind_le
  by_cases he : i = r.behind
  · subst he
    exact .inl rfl
  · refine .inr ?_
    have hlt : i < r.behind := by omega
    exact List.pairwise_iff_getElem.mp hP i r.behind (by omega) hb hlt

end Register

end BatteryOperator.Lib
