/-
  Subject:   Times and durations as the source's `time` and `metav1` packages have them.

  A `Time` counts nanoseconds from the Unix epoch, a `Duration` is a difference of two. The API
  server keeps a `metav1.Time` in whole seconds (`truncSecond`): what is stored is never later
  than what was written. A `MicroTime` counts microseconds and is kept as it is.
-/
import Mathlib.Data.Int.Basic

namespace BatteryOperator

/-- `time.Time`, in nanoseconds from the Unix epoch. -/
abbrev Time := Int

/-- `time.Duration`, in nanoseconds. -/
abbrev Duration := Int

/-- `metav1.MicroTime`, in microseconds from the Unix epoch. -/
abbrev MicroTime := Int

/-- `time.Second`. -/
def second : Duration := 1000000000

/-- The zero `time.Time`, 0001-01-01T00:00:00Z. -/
def zeroTime : Time := -62135596800 * 1000000000

/-- A `metav1.Time` as the API server stores it: RFC 3339 in whole seconds. -/
def truncSecond (t : Time) : Time := t / 1000000000 * 1000000000

theorem truncSecond_le (t : Time) : truncSecond t ≤ t := Int.ediv_mul_le t (by decide)

/-- The digits of `n`, at least `width` of them. -/
def padded (width : Nat) (n : Int) : String :=
  let digits := toString n
  String.ofList (List.replicate (width - digits.length) '0') ++ digits

/-- The year, month and day of a day counted from the Unix epoch, in the Gregorian calendar. The
    count runs in eras of 400 years that begin on the first of March. -/
def civil (days : Int) : Int × Int × Int :=
  let z := days + 719468
  let era := z / 146097
  let doe := z - era * 146097
  let yoe := (doe - doe / 1460 + doe / 36524 - doe / 146096) / 365
  let doy := doe - (365 * yoe + yoe / 4 - yoe / 100)
  let mp := (5 * doy + 2) / 153
  let day := doy - (153 * mp + 2) / 5 + 1
  let month := if mp < 10 then mp + 3 else mp - 9
  let year := yoe + era * 400 + if month ≤ 2 then 1 else 0
  (year, month, day)

/-- `t.UTC().Format(time.RFC3339)`. -/
def rfc3339 (t : Time) : String :=
  let secs := t / 1000000000
  let (year, month, day) := civil (secs / 86400)
  let rest := secs % 86400
  padded 4 year ++ "-" ++ padded 2 month ++ "-" ++ padded 2 day ++ "T" ++
    padded 2 (rest / 3600) ++ ":" ++ padded 2 (rest / 60 % 60) ++ ":" ++ padded 2 (rest % 60) ++ "Z"

/-- The fraction `v / 10 ^ prec` with its point, without the zeros it ends in. -/
def fractionText (prec v : Nat) : String :=
  let digits := (padded prec v).toList.reverse.dropWhile (· = '0')
  if digits = [] then "" else "." ++ String.ofList digits.reverse

/-- The hours and the minutes of a number of minutes, as far as they are not zero. -/
def minutesText (mins : Nat) : String :=
  if mins = 0 then ""
  else
    (if mins / 60 = 0 then "" else toString (mins / 60) ++ "h") ++ toString (mins % 60) ++ "m"

/-- `Duration.String`. -/
def durationText (d : Duration) : String :=
  let u := d.natAbs
  (if d < 0 then "-" else "") ++
    if u = 0 then "0s"
    else if u < 1000 then toString u ++ "ns"
    else if u < 1000000 then toString (u / 1000) ++ fractionText 3 (u % 1000) ++ "µs"
    else if u < 1000000000 then toString (u / 1000000) ++ fractionText 6 (u % 1000000) ++ "ms"
    else
      minutesText (u / 60000000000) ++ toString (u / 1000000000 % 60) ++
        fractionText 9 (u % 1000000000) ++ "s"

example : durationText (90 * second + 500000000) = "1m30.5s" := by decide +kernel

end BatteryOperator
