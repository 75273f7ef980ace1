/-
  Subject:   ONE OBJECT OF A STORE THAT NUMBERS ITS VERSIONS. Nothing here names a particular
             program.

  The history of what a store held under one name, newest first; `none` where it held nothing.
  Each version of an object has a number, and no number is given out twice (`Numbered`). A writer
  that names the number it has read is refused unless that version is still the newest, so what it
  replaces is what it has read (`Numbered.current_eq`). A reader behind a cache may get any version
  there has been (`copy`).
-/
import Mathlib.Data.List.Basic

namespace BatteryOperator.Lib

/-- What a store held under one name, newest first. -/
abbrev Versions (α : Type) := List (Option α)

namespace Versions

variable {α : Type}

/-- What the store holds. -/
def current (vs : Versions α) : Option α := vs.head?.join

/-- The version so many writes back. -/
def copy (vs : Versions α) (behind : Nat) : Option α := vs[behind]?.join

@[simp] theorem current_nil : current ([] : Versions α) = none := rfl

@[simp] theorem current_cons (v : Option α) (vs : Versions α) : current (v :: vs) = v := by
  simp [current]

theorem mem_of_copy {vs : Versions α} {behind : Nat} {a : α} (h : copy vs behind = some a) :
    some a ∈ vs := by
  rw [copy, Option.join_eq_some_iff] at h
  exact List.mem_of_getElem? h

theorem mem_of_current {vs : Versions α} {a : α} (h : current vs = some a) : some a ∈ vs := by
  rw [current, Option.join_eq_some_iff] at h
  exact List.mem_of_mem_head? h

/-- The numbers of the versions: up to `bound`, each of one version only. -/
structure Numbered (num : α → Nat) (bound : Nat) (vs : Versions α) : Prop where
  le : ∀ a, some a ∈ vs → num a ≤ bound
  inj : ∀ a b, some a ∈ vs → some b ∈ vs → num a = num b → a = b

variable {num : α → Nat} {bound : Nat} {vs : Versions α}

theorem Numbered.nil : Numbered num bound ([] : Versions α) where
  le _ h := nomatch h
  inj _ _ h := nomatch h

variable (h : Numbered num bound vs)
include h

theorem Numbered.mono {bound' : Nat} (hb : bound ≤ bound') : Numbered num bound' vs where
  le a ha := Nat.le_trans (h.le a ha) hb
  inj := h.inj

/-- A new version, with a new number. -/
theorem Numbered.push {bound' : Nat} {a : α} (hlt : bound < num a) (hle : num a ≤ bound') :
    Numbered num bound' (some a :: vs) where
  le b hb := by
    rcases List.mem_cons.mp hb with he | hb
    · cases he
      exact hle
    · have := h.le b hb
      omega
  inj b c hb hc hn := by
    rcases List.mem_cons.mp hb with he | hb
    · cases he
      rcases List.mem_cons.mp hc with he | hc
      · cases he
        rfl
      · have := h.le c hc
        omega
    · rcases List.mem_cons.mp hc with he | hc
      · cases he
        have := h.le b hb
        omega
      · exact h.inj b c hb hc hn

/-- The object is removed. -/
theorem Numbered.remove : Numbered num bound (none :: vs) where
  le b hb := by
    rcases List.mem_cons.mp hb with he | hb
    · cases he
    · exact h.le b hb
  inj b c hb hc := by
    rcases List.mem_cons.mp hb with he | hb
    · cases he
    · rcases List.mem_cons.mp hc with he | hc
      · cases he
      · exact h.inj b c hb hc

/-- **A write that names the newest number replaces the version it has read.** -/
theorem Numbered.current_eq {a b : α} (ha : current vs = some a) (hb : some b ∈ vs)
    (hn : num a = num b) : a = b :=
  h.inj a b (mem_of_current ha) hb hn

end Versions

end BatteryOperator.Lib
