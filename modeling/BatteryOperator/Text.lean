/-
  Subject:   Functions of the source's `strings` and `strconv` packages.

  * `quote` -- the verb `%q`;
  * `cutSuffix` -- `strings.CutSuffix`, with **what it finds** (`cutSuffix_eq_some`);
  * `cut`, `split`, `trimSpace`, `equalFold`, `trimPrefix` -- the functions of these names, `cut`
    and `split` at one character.
-/
import Mathlib.Data.List.Infix

namespace BatteryOperator

/-- A hexadecimal digit. -/
def hexDigit (n : Nat) : Char := "0123456789abcdef".toList.getD n '0'

/-- One character of `strconv.Quote`. Characters past ASCII are taken to be printable. -/
def quoteChar (c : Char) : List Char :=
  if c = '"' ∨ c = '\\' then ['\\', c]
  else if c = '\n' then ['\\', 'n']
  else if c = '\r' then ['\\', 'r']
  else if c = '\t' then ['\\', 't']
  else if c.toNat = 7 then ['\\', 'a']
  else if c.toNat = 8 then ['\\', 'b']
  else if c.toNat = 11 then ['\\', 'v']
  else if c.toNat = 12 then ['\\', 'f']
  else if c.toNat < 32 ∨ c.toNat = 127 then
    ['\\', 'x', hexDigit (c.toNat / 16), hexDigit (c.toNat % 16)]
  else [c]

/-- `strconv.Quote`, the verb `%q` of a string. -/
def quote (s : String) : String := "\"" ++ String.ofList (s.toList.flatMap quoteChar) ++ "\""

/-- `strings.CutSuffix`: the text before the suffix, if it is there. -/
def cutSuffix (s suffix : String) : Option String :=
  if suffix.toList.isSuffixOf s.toList then
    some (String.ofList (s.toList.take (s.toList.length - suffix.toList.length)))
  else none

theorem cutSuffix_eq_some {s suffix t : String} :
    cutSuffix s suffix = some t ↔ s = t ++ suffix := by
  unfold cutSuffix
  constructor
  · intro h
    split at h
    next hsuf =>
      cases h
      obtain ⟨before, heq⟩ := List.isSuffixOf_iff_suffix.mp hsuf
      apply String.toList_inj.mp
      have hlen : s.toList.length - suffix.toList.length = before.length := by
        rw [← heq, List.length_append]
        omega
      rw [String.toList_append, String.toList_ofList, hlen, ← heq, List.take_left]
    · cases h
  · intro he
    subst he
    have hsuf : suffix.toList.isSuffixOf (t ++ suffix).toList = true := by
      rw [String.toList_append]
      exact List.isSuffixOf_iff_suffix.mpr (List.suffix_append _ _)
    rw [if_pos hsuf, String.toList_append, List.length_append]
    have hlen : t.toList.length + suffix.toList.length - suffix.toList.length =
        t.toList.length := by omega
    rw [hlen, List.take_left, String.ofList_toList]

example : cutSuffix "runner-exec" "-exec" = some "runner" := cutSuffix_eq_some.mpr (by decide)

/-- `strings.TrimPrefix`; the text it takes off is called `front` here. -/
def trimPrefix (s front : String) : String :=
  if front.toList.isPrefixOf s.toList then String.ofList (s.toList.drop front.toList.length) else s

/-- `strings.Cut`, at a character: the texts before and after its first occurrence. -/
def cut (s : String) (c : Char) : Option (String × String) :=
  match s.toList.span (fun x => x ≠ c) with
  | (before, _ :: after) => some (String.ofList before, String.ofList after)
  | (_, []) => none

/-- `strings.Split`, at a character. -/
def split (s : String) (c : Char) : List String := (s.toList.splitOn c).map String.ofList

/-- `unicode.IsSpace`. -/
def isSpace (c : Char) : Bool :=
  [9, 10, 11, 12, 13, 32, 0x85, 0xa0, 0x1680, 0x2028, 0x2029, 0x202f, 0x205f, 0x3000].contains
      c.toNat ||
    (0x2000 ≤ c.toNat && c.toNat ≤ 0x200a)

/-- `strings.TrimSpace`. -/
def trimSpace (s : String) : String :=
  String.ofList ((s.toList.dropWhile isSpace).reverse.dropWhile isSpace).reverse

/-- `strings.EqualFold`, against a text of ASCII letters other than k and s: those two alone have a
    case partner past ASCII. -/
def equalFold (s t : String) : Bool := s.toList.map Char.toLower = t.toList.map Char.toLower

end BatteryOperator
