/-
  Subject:   The retry policy of `internal/clock`: a wait that doubles with every attempt.

  A `time.Duration` is a signed 64-bit count of nanoseconds here, as in the source, since the loop
  finds an overflow by the sign of what it doubled. The loop is a recursion on the number of
  attempts that are left. Shown: with a cap the wait is the doubled base cut off at the cap, for
  every number of attempts; without one it is the doubled base for as long as that fits, and
  zero from then on.
-/
import Mathlib.Algebra.Order.Ring.Int
import BatteryOperator.Time

namespace BatteryOperator.Clock

/-- `Exponential`: doubles `base` on every attempt up to `max`. A zero `max` means no cap. -/
structure Exponential where
  base : Int64
  max : Int64
  deriving DecidableEq

/-- The loop of `Exponential.Next` with `n` rounds left and the wait `d` so far. -/
def Exponential.doubling (e : Exponential) : Nat → Int64 → Int64
  | 0, d => if 0 < e.max ∧ e.max < d then e.max else d
  | n + 1, d =>
    if 0 < e.max ∧ e.max ≤ d * 2 then e.max
    -- The doubled wait does not fit and has wrapped round.
    else if d * 2 ≤ 0 then e.max
    else e.doubling n (d * 2)

/-- `Exponential.Next`. -/
def Exponential.next (e : Exponential) (attempt : Int64) : Int64 :=
  let attempt := if attempt < 0 then 0 else attempt
  e.doubling attempt.toInt.toNat e.base

/-! ## 1. What the loop computes -/

/-- The base doubled on every attempt, in unbounded integers. -/
def Exponential.doubled (e : Exponential) (attempt : Int64) : Int :=
  e.base.toInt * 2 ^ (Max.max attempt.toInt 0).toNat

/-- A positive wait that is doubled has wrapped round exactly when its sign says so. -/
theorem double_toInt {d : Int64} (h : 0 < d) :
    (d * 2).toInt = d.toInt * 2 ∧ d.toInt * 2 < 2 ^ 63 ∨
      (d * 2).toInt = d.toInt * 2 - 2 ^ 64 ∧ 2 ^ 63 ≤ d.toInt * 2 := by
  have hpos : 0 < d.toInt := Int64.lt_iff_toInt_lt.mp h
  have hlt : d.toInt < 2 ^ 63 := d.toInt_lt
  have hmul : (d * 2).toInt = (d.toInt * 2).bmod (2 ^ 64) := Int64.toInt_mul d 2
  rw [hmul, Int.bmod_def]
  omega

theorem le_doubling {d : Int} (h : 0 < d) (n : Nat) : d ≤ d * 2 ^ n := by
  have hpow : (1 : Int) ≤ 2 ^ n := one_le_pow₀ (by decide)
  exact le_mul_of_one_le_right (Int.le_of_lt h) hpow

/-- With a cap, the loop ends with the doubled wait or the cap, whichever is less. -/
theorem doubling_capped (e : Exponential) (hm : 0 < e.max) (n : Nat) :
    ∀ d : Int64, 0 < d → (e.doubling n d).toInt = min (d.toInt * 2 ^ n) e.max.toInt := by
  have hmax : e.max.toInt < 2 ^ 63 := e.max.toInt_lt
  induction n with
  | zero =>
    intro d hd
    have hlt : e.max < d ↔ e.max.toInt < d.toInt := Int64.lt_iff_toInt_lt
    simp only [Exponential.doubling, hm, true_and, hlt]
    split <;> omega
  | succ n ih =>
    intro d hd
    have hpos : 0 < d.toInt := Int64.lt_iff_toInt_lt.mp hd
    have hlt : d.toInt < 2 ^ 63 := d.toInt_lt
    have hge : d.toInt * 2 ≤ d.toInt * 2 * 2 ^ n := le_doubling (by omega) n
    have hle : e.max ≤ d * 2 ↔ e.max.toInt ≤ (d * 2).toInt := Int64.le_iff_toInt_le
    have hneg : d * 2 ≤ 0 ↔ (d * 2).toInt ≤ 0 := Int64.le_iff_toInt_le
    rw [Int.pow_succ', ← Int.mul_assoc]
    simp only [Exponential.doubling, hm, true_and, hle, hneg]
    rcases double_toInt hd with ⟨hfit, -⟩ | ⟨hwrap, hbig⟩
    · split
      · omega
      · have hnext : 0 < (d * 2).toInt := by omega
        rw [if_neg (by omega), ih (d * 2) (Int64.lt_iff_toInt_lt.mpr hnext), hfit]
    · rw [if_neg, if_pos (by omega)]
      · omega
      · have hmp : 0 < e.max.toInt := Int64.lt_iff_toInt_lt.mp hm
        omega

/-- Without a cap, the loop ends with the doubled wait if that fits, and with zero if it does
    not. -/
theorem doubling_uncapped (e : Exponential) (hm : e.max = 0) (n : Nat) :
    ∀ d : Int64, 0 < d →
      (e.doubling n d).toInt = if d.toInt * 2 ^ n < 2 ^ 63 then d.toInt * 2 ^ n else 0 := by
  induction n with
  | zero =>
    intro d hd
    have hlt : d.toInt < 2 ^ 63 := d.toInt_lt
    rw [Int.pow_zero, Int.mul_one, if_pos hlt]
    simp [Exponential.doubling, hm]
  | succ n ih =>
    intro d hd
    have hpos : 0 < d.toInt := Int64.lt_iff_toInt_lt.mp hd
    have hlt : d.toInt < 2 ^ 63 := d.toInt_lt
    have hge : d.toInt * 2 ≤ d.toInt * 2 * 2 ^ n := le_doubling (by omega) n
    have hneg : d * 2 ≤ 0 ↔ (d * 2).toInt ≤ 0 := Int64.le_iff_toInt_le
    rw [Int.pow_succ', ← Int.mul_assoc]
    simp only [Exponential.doubling, hm, Int64.lt_irrefl, false_and, if_false, hneg]
    rcases double_toInt hd with ⟨hfit, -⟩ | ⟨hwrap, hbig⟩
    · have hnext : 0 < (d * 2).toInt := by omega
      rw [if_neg (by omega), ih (d * 2) (Int64.lt_iff_toInt_lt.mpr hnext), hfit]
    · rw [if_pos (by omega), if_neg (by omega)]
      rfl

/-! ## 2. The wait before an attempt -/

/-- The wait before an attempt without overflow: the doubled base, up to the cap if there is one. -/
def Exponential.wait (e : Exponential) (attempt : Int64) : Int :=
  if e.max = 0 then e.doubled attempt else min (e.doubled attempt) e.max.toInt

theorem attempts_eq (attempt : Int64) :
    (if attempt < 0 then 0 else attempt).toInt.toNat = (max attempt.toInt 0).toNat := by
  have h : attempt < 0 ↔ attempt.toInt < 0 := Int64.lt_iff_toInt_lt
  by_cases h0 : attempt < 0
  · have hneg : attempt.toInt < 0 := h.mp h0
    rw [if_pos h0, Int.max_eq_right (Int.le_of_lt hneg)]
    rfl
  · have hpos : 0 ≤ attempt.toInt := Int.not_lt.mp (fun hlt => h0 (h.mpr hlt))
    rw [if_neg h0, Int.max_eq_left hpos]

/-- The attempts before `n` wait for no longer than `n` does. -/
theorem doubled_mono (e : Exponential) (hb : 0 < e.base) {m n : Int64} (h : m ≤ n) :
    e.doubled m ≤ e.doubled n := by
  have hpos : 0 < e.base.toInt := Int64.lt_iff_toInt_lt.mp hb
  have hle : m.toInt ≤ n.toInt := Int64.le_iff_toInt_le.mp h
  have hexp : (max m.toInt 0).toNat ≤ (max n.toInt 0).toNat := by omega
  have hpow : (2 : Int) ^ (max m.toInt 0).toNat ≤ 2 ^ (max n.toInt 0).toNat :=
    pow_le_pow_right₀ (by decide) hexp
  exact Int.mul_le_mul_of_nonneg_left hpow (Int.le_of_lt hpos)

theorem next_eq_doubling (e : Exponential) (n : Int64) :
    e.next n = e.doubling (max n.toInt 0).toNat e.base := by
  simp only [Exponential.next, attempts_eq]

theorem next_uncapped (e : Exponential) (hb : 0 < e.base) (hm : e.max = 0) (n : Int64) :
    (e.next n).toInt = if e.doubled n < 2 ^ 63 then e.doubled n else 0 := by
  rw [next_eq_doubling]
  exact doubling_uncapped e hm _ _ hb

theorem next_eq_wait (e : Exponential) (hb : 0 < e.base) (hm : 0 ≤ e.max) (n : Int64)
    (hfit : 0 < e.max ∨ e.doubled n < 2 ^ 63) : (e.next n).toInt = e.wait n := by
  unfold Exponential.wait
  by_cases h0 : e.max = 0
  · have hlt : e.doubled n < 2 ^ 63 := by
      rcases hfit with h | h
      · rw [h0] at h
        exact absurd h (by decide)
      · exact h
    rw [if_pos h0, next_uncapped e hb h0, if_pos hlt]
  · have hpos : 0 < e.max := Int64.lt_of_le_of_ne hm (Ne.symm h0)
    rw [if_neg h0, next_eq_doubling]
    exact doubling_capped e hpos _ _ hb

/-- Without a cap, an attempt whose doubled base does not fit does not wait at all. -/
theorem next_overflow (e : Exponential) (hb : 0 < e.base) (hm : e.max = 0) (n : Int64)
    (hbig : 2 ^ 63 ≤ e.doubled n) : e.next n = 0 := by
  rw [← Int64.toInt_inj, next_uncapped e hb hm, if_neg (Int.not_lt.mpr hbig)]
  rfl

theorem next_overflow_max : (⟨1, 0⟩ : Exponential).next 63 = 0 :=
  next_overflow _ (by decide) rfl _ (by decide)

/-- Exactly if there is a cap or the doubled base fits, the wait before an attempt is the base
    doubled on every attempt, up to the cap if there is one, no earlier attempt waits longer, and
    none waits for less than the base or the cap. -/
theorem next_is_capped_doubling (e : Exponential) (hb : 0 < e.base) (hm : 0 ≤ e.max) (n : Int64) :
    (0 < e.max ∨ e.doubled n < 2 ^ 63) ↔
    (0 < e.max → (e.next n).toInt = min (e.base.toInt * 2 ^ (max n.toInt 0).toNat) e.max.toInt) ∧
      (e.max = 0 → (e.next n).toInt = e.base.toInt * 2 ^ (max n.toInt 0).toNat) ∧
      (∀ m, m ≤ n → e.next m ≤ e.next n) ∧
      (0 < e.max → min e.base.toInt e.max.toInt ≤ (e.next n).toInt) ∧
      (e.max = 0 → e.base.toInt ≤ (e.next n).toInt) := by
  constructor
  · intro hfit
    have hn : (e.next n).toInt = e.wait n := next_eq_wait e hb hm n hfit
    have hbase : e.base.toInt ≤ e.doubled n := le_doubling (Int64.lt_iff_toInt_lt.mp hb) _
    have hcap : 0 < e.max → e.wait n = min (e.doubled n) e.max.toInt := by
      intro h
      exact if_neg (fun h0 => absurd (h0 ▸ h) (by decide))
    have hopen : e.max = 0 → e.wait n = e.doubled n := fun h => if_pos h
    refine ⟨fun h => hn.trans (hcap h), fun h => hn.trans (hopen h), ?_, ?_, ?_⟩
    · intro m hle
      have hmono : e.doubled m ≤ e.doubled n := doubled_mono e hb hle
      have hm' : (e.next m).toInt = e.wait m := by
        refine next_eq_wait e hb hm m ?_
        rcases hfit with h | h
        · exact .inl h
        · exact .inr (Int.lt_of_le_of_lt hmono h)
      rw [Int64.le_iff_toInt_le, hm', hn]
      unfold Exponential.wait
      split <;> omega
    · intro h
      rw [hn, hcap h]
      omega
    · intro h
      rw [hn, hopen h]
      exact hbase
  · -- an attempt that does not wait waits for less than the base
    rintro ⟨-, -, -, -, hbase⟩
    by_cases h0 : e.max = 0
    · refine .inr (Int.not_le.mp fun hbig => ?_)
      have hle := hbase h0
      rw [next_uncapped e hb h0, if_neg (Int.not_lt.mpr hbig)] at hle
      exact absurd (Int64.lt_iff_toInt_lt.mp hb) (Int.not_lt.mpr hle)
    · exact .inl (Int64.lt_of_le_of_ne hm (Ne.symm h0))

/-- A base of one second up to thirty: the fifth wait is sixteen seconds, the sixth the cap.
    Without a cap, a base of one nanosecond doubled 62 times fits. -/
theorem next_is_capped_doubling_seconds :
    (Exponential.next ⟨1000000000, 30000000000⟩ 4).toInt = 16000000000 ∧
      (Exponential.next ⟨1000000000, 30000000000⟩ 5).toInt = 30000000000 ∧
      ∀ m, m ≤ 62 → Exponential.next ⟨1, 0⟩ m ≤ Exponential.next ⟨1, 0⟩ 62 :=
  ⟨(((next_is_capped_doubling ⟨1000000000, 30000000000⟩ (by decide) (by decide) 4).mp
      (.inl (by decide))).1 (by decide)).trans (by decide),
    (((next_is_capped_doubling ⟨1000000000, 30000000000⟩ (by decide) (by decide) 5).mp
      (.inl (by decide))).1 (by decide)).trans (by decide),
    ((next_is_capped_doubling ⟨1, 0⟩ (by decide) (by decide) 62).mp
      (.inr (by decide))).2.2.1⟩

/-- Without a cap the wait falls to zero at the attempt whose doubled base does not fit. -/
theorem next_falls_to_zero :
    Exponential.next ⟨1, 0⟩ 63 = 0 ∧ 0 < Exponential.next ⟨1, 0⟩ 62 ∧
      Exponential.next ⟨1, 0⟩ 63 < Exponential.next ⟨1, 0⟩ 62 := by
  decide +kernel

end BatteryOperator.Clock
