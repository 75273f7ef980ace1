/-
  Subject:   IP ADDRESSES AND THEIR TEXTS, as the `net` and `net/netip` packages have them. Nothing
             here names a particular program.

  An address is held in four bytes or in sixteen. The sixteen-byte form is eight groups of sixteen
  bits, and an IPv4 address is embedded in it as `::ffff:a.b.c.d`; the two forms of an IPv4 address
  are the same address (`equal`) and have the same text (`string`).

  * `string` -- dotted decimal for an IPv4 address in either form, groups of hexadecimal digits
    with the longest run of zero groups left out for any other;
  * `parseIP` -- the address a text names, in sixteen bytes;
  * `parseIP_string` -- **the text of an address names that address**;
  * `equal_iff_string` -- two addresses are the same exactly if their texts are.
-/
import Mathlib.Algebra.Ring.Nat
import Mathlib.Data.Fin.Basic
import Mathlib.Data.List.TakeWhile

namespace BatteryOperator.Lib

/-! ## 1. Addresses -/

instance neZero_bytes : NeZero 256 := ⟨Nat.succ_ne_zero _⟩

/-- Four bytes. -/
structure V4 where
  a : Fin 256
  b : Fin 256
  c : Fin 256
  d : Fin 256
  deriving DecidableEq

/-- Sixteen bytes, as eight groups of two. -/
structure V6 where
  groups : List (Fin 65536)
  length_groups : groups.length = 8
  deriving DecidableEq

/-- An address, in four bytes or in sixteen. -/
inductive IP where
  | four (v : V4)
  | sixteen (v : V6)
  deriving DecidableEq

/-- Two bytes as a group. -/
def pair (hi lo : Fin 256) : Fin 65536 := ⟨hi.val * 256 + lo.val, by omega⟩

/-- The first and second byte of a group. -/
def high (g : Fin 65536) : Fin 256 := ⟨g.val / 256, by omega⟩

def low (g : Fin 65536) : Fin 256 := ⟨g.val % 256, by omega⟩

@[simp] theorem high_pair (hi lo : Fin 256) : high (pair hi lo) = hi := by
  apply Fin.ext
  show (hi.val * 256 + lo.val) / 256 = hi.val
  omega

@[simp] theorem low_pair (hi lo : Fin 256) : low (pair hi lo) = lo := by
  apply Fin.ext
  show (hi.val * 256 + lo.val) % 256 = lo.val
  omega

@[simp] theorem pair_high_low (g : Fin 65536) : pair (high g) (low g) = g := by
  apply Fin.ext
  show g.val / 256 * 256 + g.val % 256 = g.val
  omega

/-- The IPv4 address in sixteen bytes. -/
def V4.to16 (v : V4) : V6 where
  groups := [0, 0, 0, 0, 0, 65535, pair v.a v.b, pair v.c v.d]
  length_groups := rfl

/-- `To4` of sixteen bytes. -/
def V6.to4 (v : V6) : Option V4 :=
  match v.groups with
  | [g0, g1, g2, g3, g4, g5, g6, g7] =>
    if g0 = 0 ∧ g1 = 0 ∧ g2 = 0 ∧ g3 = 0 ∧ g4 = 0 ∧ g5 = 65535 then
      some ⟨high g6, low g6, high g7, low g7⟩
    else none
  | _ => none

@[simp] theorem V4.to4_to16 (v : V4) : v.to16.to4 = some v := by
  simp [V4.to16, V6.to4]

theorem V6.to16_of_to4 {v : V6} {u : V4} (h : v.to4 = some u) : u.to16 = v := by
  obtain ⟨gs, hlen⟩ := v
  simp only [V6.to4] at h
  split at h
  · split at h
    next hz =>
      obtain ⟨rfl, rfl, rfl, rfl, rfl, rfl⟩ := hz
      cases h
      simp [V4.to16]
    · cases h
  · cases h

namespace IP

/-- `To16`. -/
def to16 : IP → V6
  | .four v => v.to16
  | .sixteen v => v

/-- `To4`. -/
def to4 : IP → Option V4
  | .four v => some v
  | .sixteen v => v.to4

/-- `Equal`: an IPv4 address and the same address in IPv6 form are equal. -/
def equal : IP → IP → Bool
  | .four v, .four x => v = x
  | .sixteen v, .sixteen x => v = x
  | .four v, .sixteen x => x.to4 = some v
  | .sixteen v, .four x => v.to4 = some x

theorem to4_to16 (ip : IP) : ip.to16.to4 = ip.to4 := by
  cases ip with
  | four v => exact V4.to4_to16 v
  | sixteen v => rfl

theorem V4.to16_inj {v x : V4} (h : v.to16 = x.to16) : v = x := by
  have hv : some v = some x := by rw [← V4.to4_to16 v, h, V4.to4_to16]
  exact Option.some.inj hv

/-- Two addresses are equal exactly if they are the same sixteen bytes. -/
theorem equal_iff {ip x : IP} : ip.equal x = true ↔ ip.to16 = x.to16 := by
  cases ip with
  | four v =>
    cases x with
    | four u =>
      simp only [equal, decide_eq_true_eq, to16]
      exact ⟨fun h => h ▸ rfl, V4.to16_inj⟩
    | sixteen u =>
      simp only [equal, decide_eq_true_eq, to16]
      exact ⟨V6.to16_of_to4, fun h => h ▸ V4.to4_to16 v⟩
  | sixteen v =>
    cases x with
    | four u =>
      simp only [equal, decide_eq_true_eq, to16]
      exact ⟨fun h => (V6.to16_of_to4 h).symm, fun h => h ▸ V4.to4_to16 u⟩
    | sixteen u => simp only [equal, decide_eq_true_eq, to16]

end IP

/-! ## 2. Texts -/

/-- `appendDecimal`. -/
def decimal (x : Fin 256) : List Char :=
  (if 100 ≤ x.val then [Nat.digitChar (x.val / 100)] else []) ++
    (if 10 ≤ x.val then [Nat.digitChar (x.val / 10 % 10)] else []) ++
    [Nat.digitChar (x.val % 10)]

/-- `appendHex`. -/
def hex (x : Fin 65536) : List Char :=
  (if 0x1000 ≤ x.val then [Nat.digitChar (x.val / 0x1000)] else []) ++
    (if 0x100 ≤ x.val then [Nat.digitChar (x.val / 0x100 % 16)] else []) ++
    (if 0x10 ≤ x.val then [Nat.digitChar (x.val / 0x10 % 16)] else []) ++
    [Nat.digitChar (x.val % 16)]

/-- The text of four bytes. -/
def V4.text (v : V4) : List Char :=
  decimal v.a ++ '.' :: (decimal v.b ++ '.' :: (decimal v.c ++ '.' :: decimal v.d))

/-- Groups with a colon between them. -/
def colons : List (Fin 65536) → List Char
  | [] => []
  | [g] => hex g
  | g :: g' :: gs => hex g ++ ':' :: colons (g' :: gs)

/-- The longest run of two or more zero groups, the first of them, as the index of its first group
    and the one after its last; `none` where there is no such run. -/
def zeroRun (gs : List (Fin 65536)) : Option (Nat × Nat) :=
  (List.range gs.length).foldl
    (fun best i =>
      let n := ((gs.drop i).takeWhile (· = 0)).length
      if 2 ≤ n ∧ (best.elim 0 fun b => b.2 - b.1) < n then some (i, i + n) else best)
    none

/-- The text of sixteen bytes: a double colon stands for the longest run of zero groups. -/
def V6.text (v : V6) : List Char :=
  match zeroRun v.groups with
  | some (start, stop) => colons (v.groups.take start) ++ ':' :: ':' :: colons (v.groups.drop stop)
  | none => colons v.groups

/-- `IP.String`. -/
def IP.string (ip : IP) : String :=
  String.ofList (match ip.to4 with
    | some v => v.text
    | none => ip.to16.text)

/-! ## 3. Reading a text -/

/-- The value of a decimal digit. -/
def decimalValue (c : Char) : Option Nat :=
  if '0' ≤ c ∧ c ≤ '9' then some (c.toNat - 48) else none

/-- The value of a hexadecimal digit. -/
def hexValue (c : Char) : Option Nat :=
  if '0' ≤ c ∧ c ≤ '9' then some (c.toNat - 48)
  else if 'a' ≤ c ∧ c ≤ 'f' then some (c.toNat - 87)
  else if 'A' ≤ c ∧ c ≤ 'F' then some (c.toNat - 55)
  else none

/-- The loop of `parseIPv4Fields`, with the value and the number of digits of the current field and
    the fields before it. -/
def fieldsLoop : List Char → Nat → Nat → List (Fin 256) → Option (List (Fin 256))
  | [], val, _, fields =>
    if fields.length < 3 then none else some (fields ++ [Fin.ofNat 256 val])
  | c :: cs, val, digits, fields =>
    match decimalValue c with
    | some d =>
      -- no leading zero
      if digits = 1 ∧ val = 0 then none
      else if 255 < val * 10 + d then none
      else fieldsLoop cs (val * 10 + d) (digits + 1) fields
    | none =>
      if c = '.' then
        if digits = 0 ∨ cs = [] then none
        else if fields.length = 3 then none
        else fieldsLoop cs 0 0 (fields ++ [Fin.ofNat 256 val])
      else none

/-- `parseIPv4Fields`. -/
def parseIPv4Fields (s : List Char) : Option V4 :=
  match fieldsLoop s 0 0 [] with
  | some [a, b, c, d] => some ⟨a, b, c, d⟩
  | _ => none

/-- The hexadecimal number a text starts with, of at most four digits, with the number of digits
    and the rest of the text. -/
def hexLoop : List Char → Nat → Nat → Option (Nat × Nat × List Char)
  | [], off, acc => some (acc, off, [])
  | c :: cs, off, acc =>
    match hexValue c with
    | none => some (acc, off, c :: cs)
    | some d =>
      if 3 < off ∨ 65535 < acc * 16 + d then none else hexLoop cs (off + 1) (acc * 16 + d)

/-- What the loop of `parseIPv6` has read: the text left, the groups, and how many of them stand
    before the double colon. -/
abbrev Groups := List Char × List (Fin 65536) × Option Nat

/-- The loop of `parseIPv6`; the first argument is how many more groups there is room for. -/
def groupsLoop : Nat → List Char → List (Fin 65536) → Option Nat → Option Groups
  | 0, s, gs, ellipsis => some (s, gs, ellipsis)
  | n + 1, s, gs, ellipsis =>
    match hexLoop s 0 0 with
    | none => none
    | some (acc, off, rest) =>
      if off = 0 then none
      else
        match rest with
        | [] => some ([], gs ++ [Fin.ofNat 65536 acc], ellipsis)
        | '.' :: _ =>
          -- the rest is an IPv4 address, in the place of the last two groups
          if ellipsis = none ∧ gs.length ≠ 6 then none
          else if 8 < gs.length + 2 then none
          else (parseIPv4Fields s).map fun v =>
            ([], gs ++ [pair v.a v.b, pair v.c v.d], ellipsis)
        | ':' :: [] => none
        | ':' :: c :: rest =>
          if c = ':' then
            if ellipsis ≠ none then none
            else if rest = [] then
              some ([], gs ++ [Fin.ofNat 65536 acc], some (gs.length + 1))
            else groupsLoop n rest (gs ++ [Fin.ofNat 65536 acc]) (some (gs.length + 1))
          else groupsLoop n (c :: rest) (gs ++ [Fin.ofNat 65536 acc]) ellipsis
        | _ => none

/-- Eight groups as an address. -/
def V6.ofGroups (gs : List (Fin 65536)) : Option V6 :=
  if h : gs.length = 8 then some ⟨gs, h⟩ else none

/-- The end of `parseIPv6`: the zero groups that a double colon stands for. -/
def expand : Groups → Option V6
  | ([], gs, none) => V6.ofGroups gs
  | ([], gs, some k) =>
    if gs.length < 8 then
      V6.ofGroups (gs.take k ++ List.replicate (8 - gs.length) 0 ++ gs.drop k)
    else none
  | (_ :: _, _, _) => none

/-- `parseIPv6`, of a text without a zone: `net.ParseIP` takes none. -/
def parseIPv6 (s : List Char) : Option V6 :=
  if '%' ∈ s then none
  else
    match s with
    | ':' :: ':' :: rest =>
      if rest = [] then V6.ofGroups (List.replicate 8 0)
      else (groupsLoop 8 rest [] (some 0)).bind expand
    | _ => (groupsLoop 8 s [] none).bind expand

/-- No character of a number. -/
def delimiter (c : Char) : Bool := c = '.' ∨ c = ':' ∨ c = '%'

/-- `netip.ParseAddr`: the first dot, colon or percent sign says what the text is. -/
def parseAddr (s : List Char) : Option V6 :=
  match s.find? delimiter with
  | some '.' => (parseIPv4Fields s).map V4.to16
  | some ':' => parseIPv6 s
  | _ => none

/-- `net.ParseIP`. -/
def parseIP (s : String) : Option IP := (parseAddr s.toList).map .sixteen

/-! ## 4. A text written is read back -/

variable {n : Nat} {cs : List Char} {c : Char} {gs xs ys : List (Fin 65536)}

theorem decimalValue_digitChar (h : n < 10) : decimalValue (Nat.digitChar n) = some n := by
  have hn : ∀ k : Fin 10, decimalValue (Nat.digitChar k.val) = some k.val := by decide
  exact hn ⟨n, h⟩

theorem hexValue_digitChar (h : n < 16) : hexValue (Nat.digitChar n) = some n := by
  have hn : ∀ k : Fin 16, hexValue (Nat.digitChar k.val) = some k.val := by decide
  exact hn ⟨n, h⟩

/-- One digit more of a field. -/
theorem fieldsLoop_digit {val digits : Nat} {fields : List (Fin 256)} (hn : n < 10)
    (hz : ¬ (digits = 1 ∧ val = 0)) (hv : val * 10 + n ≤ 255) :
    fieldsLoop (Nat.digitChar n :: cs) val digits fields =
      fieldsLoop cs (val * 10 + n) (digits + 1) fields := by
  rw [fieldsLoop, decimalValue_digitChar hn]
  simp only [hz, if_false, Nat.not_lt.mpr hv]

/-- A field that was written is read, and has a digit. -/
theorem fieldsLoop_decimal (x : Fin 256) (cs : List Char) (fields : List (Fin 256)) :
    ∃ digits, 0 < digits ∧ fieldsLoop (decimal x ++ cs) 0 0 fields =
      fieldsLoop cs x.val digits fields := by
  have hx : x.val < 256 := x.isLt
  -- one, two or three digits
  by_cases h1 : 100 ≤ x.val
  · refine ⟨3, by omega, ?_⟩
    have h2 : 10 ≤ x.val := by omega
    simp (disch := omega) only [decimal, h1, h2, if_true, List.cons_append, List.nil_append,
      fieldsLoop_digit]
    congr 1
    omega
  · by_cases h2 : 10 ≤ x.val
    · refine ⟨2, by omega, ?_⟩
      simp (disch := omega) only [decimal, h1, h2, if_true, if_false, List.cons_append,
        List.nil_append, fieldsLoop_digit]
      congr 1
      omega
    · refine ⟨1, by omega, ?_⟩
      simp (disch := omega) only [decimal, h1, h2, if_false, List.cons_append, List.nil_append,
        fieldsLoop_digit]
      congr 1
      omega

theorem fieldsLoop_dot {val digits : Nat} {fields : List (Fin 256)} (hd : 0 < digits)
    (hf : fields.length < 3) :
    fieldsLoop ('.' :: c :: cs) val digits fields =
      fieldsLoop (c :: cs) 0 0 (fields ++ [Fin.ofNat 256 val]) := by
  have hnd : decimalValue '.' = none := by decide
  have hd0 : ¬ (digits = 0 ∨ c :: cs = []) := by
    rintro (h | h)
    · omega
    · cases h
  have hf3 : ¬ fields.length = 3 := by omega
  rw [fieldsLoop, hnd]
  simp only [if_true, hd0, hf3, if_false]

theorem decimal_ne_nil (x : Fin 256) : ∃ c cs, decimal x = c :: cs := by
  unfold decimal
  split
  · exact ⟨_, _, rfl⟩
  · split
    · exact ⟨_, _, rfl⟩
    · exact ⟨_, _, rfl⟩

/-- A field before a dot. -/
theorem fieldsLoop_field (x y : Fin 256) (cs : List Char) (fields : List (Fin 256))
    (hf : fields.length < 3) :
    fieldsLoop (decimal x ++ '.' :: (decimal y ++ cs)) 0 0 fields =
      fieldsLoop (decimal y ++ cs) 0 0 (fields ++ [x]) := by
  obtain ⟨digits, hd, hx⟩ := fieldsLoop_decimal x ('.' :: (decimal y ++ cs)) fields
  obtain ⟨c, ds, hy⟩ := decimal_ne_nil y
  rw [hx, hy, List.cons_append, fieldsLoop_dot hd hf, Fin.ofNat_val_eq_self]

/-- **The text of four bytes is read back.** -/
theorem parseIPv4Fields_text (v : V4) : parseIPv4Fields v.text = some v := by
  obtain ⟨digits, _, hd⟩ := fieldsLoop_decimal v.d [] [v.a, v.b, v.c]
  have h : fieldsLoop v.text 0 0 [] = some [v.a, v.b, v.c, v.d] := by
    have hc := fieldsLoop_field v.c v.d [] [v.a, v.b] (by simp)
    rw [List.append_nil] at hc hd
    unfold V4.text
    rw [fieldsLoop_field v.a v.b _ [] (by simp), List.nil_append,
      fieldsLoop_field v.b v.c _ [v.a] (by simp), List.cons_append, List.nil_append, hc]
    simp only [List.cons_append, List.nil_append]
    rw [hd, fieldsLoop, Fin.ofNat_val_eq_self]
    simp
  rw [parseIPv4Fields, h]

theorem hexLoop_digit {acc off : Nat} (hn : n < 16) (ho : off ≤ 3) (ha : acc * 16 + n ≤ 65535) :
    hexLoop (Nat.digitChar n :: cs) off acc = hexLoop cs (off + 1) (acc * 16 + n) := by
  have h : ¬ (3 < off ∨ 65535 < acc * 16 + n) := by omega
  rw [hexLoop, hexValue_digitChar hn]
  simp only [h, if_false]

/-- What may follow a group: nothing, or a colon. -/
def Delimited (cs : List Char) : Prop := cs = [] ∨ ∃ rest, cs = ':' :: rest

theorem hexLoop_delimited {off acc : Nat} (h : Delimited cs) :
    hexLoop cs off acc = some (acc, off, cs) := by
  rcases h with rfl | ⟨rest, rfl⟩
  · rfl
  · have hc : hexValue ':' = none := by decide
    rw [hexLoop, hc]

/-- A group that was written is read, and has a digit. -/
theorem hexLoop_hex (g : Fin 65536) (cs : List Char) (h : Delimited cs) :
    ∃ off, off ≠ 0 ∧ hexLoop (hex g ++ cs) 0 0 = some (g.val, off, cs) := by
  have hg : g.val < 65536 := g.isLt
  -- four, three, two or one digit
  by_cases h1 : 0x1000 ≤ g.val
  · refine ⟨4, by omega, ?_⟩
    have h2 : 0x100 ≤ g.val := by omega
    have h3 : 0x10 ≤ g.val := by omega
    simp (disch := omega) only [hex, h1, h2, h3, if_true, List.cons_append, List.nil_append,
      hexLoop_digit, hexLoop_delimited h]
    congr 2
    omega
  · by_cases h2 : 0x100 ≤ g.val
    · refine ⟨3, by omega, ?_⟩
      have h3 : 0x10 ≤ g.val := by omega
      simp (disch := omega) only [hex, h1, h2, h3, if_true, if_false, List.cons_append,
        List.nil_append, hexLoop_digit, hexLoop_delimited h]
      congr 2
      omega
    · by_cases h3 : 0x10 ≤ g.val
      · refine ⟨2, by omega, ?_⟩
        simp (disch := omega) only [hex, h1, h2, h3, if_true, if_false, List.cons_append,
          List.nil_append, hexLoop_digit, hexLoop_delimited h]
        congr 2
        omega
      · refine ⟨1, by omega, ?_⟩
        simp (disch := omega) only [hex, h1, h2, h3, if_false, List.cons_append, List.nil_append,
          hexLoop_digit, hexLoop_delimited h]
        congr 2
        omega

/-- The last group. -/
theorem groupsLoop_last (n : Nat) (g : Fin 65536) (gs : List (Fin 65536)) (e : Option Nat) :
    groupsLoop (n + 1) (hex g) gs e = some ([], gs ++ [g], e) := by
  obtain ⟨off, ho, hx⟩ := hexLoop_hex g [] (.inl rfl)
  rw [List.append_nil] at hx
  rw [groupsLoop, hx]
  simp only [ho, if_false, Fin.ofNat_val_eq_self]

/-- A group before a single colon. -/
theorem groupsLoop_colon (n : Nat) (g : Fin 65536) (hc : c ≠ ':') (gs : List (Fin 65536))
    (e : Option Nat) :
    groupsLoop (n + 1) (hex g ++ ':' :: c :: cs) gs e = groupsLoop n (c :: cs) (gs ++ [g]) e := by
  obtain ⟨off, ho, hx⟩ := hexLoop_hex g (':' :: c :: cs) (.inr ⟨_, rfl⟩)
  rw [groupsLoop, hx]
  simp only [ho, hc, if_false, Fin.ofNat_val_eq_self]

/-- A group before a double colon. -/
theorem groupsLoop_ellipsis (n : Nat) (g : Fin 65536) (cs : List Char) (gs : List (Fin 65536)) :
    groupsLoop (n + 1) (hex g ++ ':' :: ':' :: cs) gs none =
      if cs = [] then some ([], gs ++ [g], some (gs.length + 1))
      else groupsLoop n cs (gs ++ [g]) (some (gs.length + 1)) := by
  obtain ⟨off, ho, hx⟩ := hexLoop_hex g (':' :: ':' :: cs) (.inr ⟨_, rfl⟩)
  rw [groupsLoop, hx]
  simp only [ho, if_true, if_false, Fin.ofNat_val_eq_self, ne_eq, not_true_eq_false]

theorem digitChar_plain (h : n < 16) : delimiter (Nat.digitChar n) = false := by
  have hn : ∀ k : Fin 16, delimiter (Nat.digitChar k.val) = false := by decide
  exact hn ⟨n, h⟩

theorem ne_colon (h : delimiter c = false) : c ≠ ':' := by
  rintro rfl
  exact absurd h (by decide)

theorem decimal_plain {x : Fin 256} (h : c ∈ decimal x) : delimiter c = false := by
  have hx : x.val < 256 := x.isLt
  unfold decimal at h
  simp only [List.mem_append, List.mem_ite_nil_right, List.mem_singleton] at h
  rcases h with (⟨_, rfl⟩ | ⟨_, rfl⟩) | rfl <;> exact digitChar_plain (by omega)

theorem hex_plain {g : Fin 65536} (h : c ∈ hex g) : delimiter c = false := by
  have hg : g.val < 65536 := g.isLt
  unfold hex at h
  simp only [List.mem_append, List.mem_ite_nil_right, List.mem_singleton] at h
  rcases h with ((⟨_, rfl⟩ | ⟨_, rfl⟩) | ⟨_, rfl⟩) | rfl <;> exact digitChar_plain (by omega)

theorem hex_head (g : Fin 65536) : ∃ c cs, hex g = c :: cs ∧ delimiter c = false := by
  have hne : hex g ≠ [] := by simp [hex]
  obtain ⟨c, cs, hc⟩ := List.exists_cons_of_ne_nil hne
  exact ⟨c, cs, hc, hex_plain (hc ▸ List.mem_cons_self)⟩

theorem colons_cons {g : Fin 65536} (h : gs ≠ []) :
    colons (g :: gs) = hex g ++ ':' :: colons gs := by
  cases gs with
  | nil => exact absurd rfl h
  | cons g' gs => rfl

theorem colons_head (h : gs ≠ []) : ∃ c cs, colons gs = c :: cs ∧ delimiter c = false := by
  cases gs with
  | nil => exact absurd rfl h
  | cons g gs =>
    obtain ⟨c, cs, hc, hp⟩ := hex_head g
    by_cases hgs : gs = []
    · subst hgs
      exact ⟨c, cs, hc, hp⟩
    · rw [colons_cons hgs, hc]
      exact ⟨c, _, rfl, hp⟩

theorem percent_not_mem_colons (gs : List (Fin 65536)) : '%' ∉ colons gs := by
  induction gs with
  | nil => exact List.not_mem_nil
  | cons g gs ih =>
    intro h
    by_cases hgs : gs = []
    · subst hgs
      exact absurd (hex_plain h) (by decide)
    · rw [colons_cons hgs, List.mem_append, List.mem_cons] at h
      rcases h with h | h | h
      · exact absurd (hex_plain h) (by decide)
      · exact absurd h (by decide)
      · exact ih h

/-- **Groups with single colons between them are read.** -/
theorem groupsLoop_colons (hne : xs ≠ []) (hn : xs.length ≤ n) (gs : List (Fin 65536))
    (e : Option Nat) : groupsLoop n (colons xs) gs e = some ([], gs ++ xs, e) := by
  induction xs generalizing n gs with
  | nil => exact absurd rfl hne
  | cons x xs ih =>
    obtain ⟨m, rfl⟩ : ∃ m, n = m + 1 := ⟨n - 1, by rw [List.length_cons] at hn; omega⟩
    have hm : xs.length ≤ m := Nat.le_of_succ_le_succ hn
    by_cases hxs : xs = []
    · subst hxs
      exact groupsLoop_last m x gs e
    · obtain ⟨c, cs, hc, hp⟩ := colons_head hxs
      have ih := ih hxs hm (gs ++ [x])
      rw [colons_cons hxs]
      rw [hc] at ih ⊢
      rw [groupsLoop_colon m x (ne_colon hp), ih, List.append_assoc, List.singleton_append]

/-- **Groups on both sides of a double colon are read**, with its place. -/
theorem groupsLoop_both (hne : xs ≠ []) (hn : xs.length + ys.length ≤ n) (gs : List (Fin 65536)) :
    groupsLoop n (colons xs ++ ':' :: ':' :: colons ys) gs none =
      some ([], gs ++ xs ++ ys, some (gs.length + xs.length)) := by
  induction xs generalizing n gs with
  | nil => exact absurd rfl hne
  | cons x xs ih =>
    rw [List.length_cons] at hn
    obtain ⟨m, rfl⟩ : ∃ m, n = m + 1 := ⟨n - 1, by omega⟩
    have hm : xs.length + ys.length ≤ m := by omega
    by_cases hxs : xs = []
    · subst hxs
      have hx : colons [x] = hex x := rfl
      rw [hx, groupsLoop_ellipsis]
      by_cases hys : ys = []
      · subst hys
        simp [colons]
      · obtain ⟨c, cs, hc, _⟩ := colons_head hys
        have hcne : colons ys ≠ [] := by
          rw [hc]
          exact List.cons_ne_nil c cs
        have hmy : ys.length ≤ m := by omega
        rw [if_neg hcne, groupsLoop_colons hys hmy]
        rfl
    · obtain ⟨c, cs, hc, hp⟩ := colons_head hxs
      have ih := ih hxs hm (gs ++ [x])
      rw [colons_cons hxs]
      rw [hc] at ih ⊢
      rw [List.append_assoc, List.cons_append, List.cons_append, groupsLoop_colon m x (ne_colon hp)]
      rw [List.cons_append] at ih
      rw [ih]
      have hl : (gs ++ [x]).length + xs.length = gs.length + (x :: xs).length := by
        simp only [List.length_append, List.length_cons, List.length_nil]
        omega
      rw [hl]
      simp only [List.append_assoc, List.cons_append, List.nil_append]

/-- The groups from the first index on, before the second, are zero. -/
def IsRun (gs : List (Fin 65536)) (r : Nat × Nat) : Prop :=
  r.1 + 2 ≤ r.2 ∧ r.2 ≤ gs.length ∧
    gs = gs.take r.1 ++ (List.replicate (r.2 - r.1) 0 ++ gs.drop r.2)

theorem isRun_takeWhile {i : Nat} (h : 2 ≤ ((gs.drop i).takeWhile (· = 0)).length) :
    IsRun gs (i, i + ((gs.drop i).takeWhile (· = 0)).length) := by
  have hsplit : (gs.drop i).takeWhile (· = 0) ++ (gs.drop i).dropWhile (· = 0) = gs.drop i :=
    List.takeWhile_append_dropWhile
  have hlen := congrArg List.length hsplit
  rw [List.length_append, List.length_drop] at hlen
  have hzero : (gs.drop i).takeWhile (· = 0) =
      List.replicate ((gs.drop i).takeWhile (· = 0)).length 0 := by
    rw [List.eq_replicate_iff]
    refine ⟨rfl, fun g hg => ?_⟩
    have hp := List.mem_takeWhile_imp hg
    exact of_decide_eq_true hp
  have hrest : gs.drop (i + ((gs.drop i).takeWhile (· = 0)).length) =
      (gs.drop i).dropWhile (· = 0) := by
    have hdrop := congrArg (List.drop ((gs.drop i).takeWhile (· = 0)).length) hsplit
    rw [List.drop_left, List.drop_drop] at hdrop
    exact hdrop.symm
  refine ⟨by simpa using h, by show i + _ ≤ _; omega, ?_⟩
  show gs = gs.take i ++ (List.replicate (i + _ - i) 0 ++ gs.drop (i + _))
  rw [Nat.add_sub_cancel_left, ← hzero, hrest, hsplit, List.take_append_drop]

/-- **What the search for zero groups finds.** -/
theorem zeroRun_isRun {r : Nat × Nat} (h : zeroRun gs = some r) : IsRun gs r := by
  have hfold : ∀ (is : List Nat) (best : Option (Nat × Nat)), (∀ r, best = some r → IsRun gs r) →
      ∀ r, is.foldl (fun best i =>
        let n := ((gs.drop i).takeWhile (· = 0)).length
        if 2 ≤ n ∧ (best.elim 0 fun b => b.2 - b.1) < n then some (i, i + n) else best) best =
          some r → IsRun gs r := by
    intro is
    induction is with
    | nil => exact fun best hb => hb
    | cons i is ih =>
      intro best hb
      rw [List.foldl_cons]
      refine ih _ fun r hr => ?_
      simp only at hr
      split at hr
      next hn =>
        cases hr
        exact isRun_takeWhile hn.1
      · exact hb r hr
  exact hfold _ none nofun r h

theorem V6.ofGroups_groups (v : V6) : V6.ofGroups v.groups = some v := by
  obtain ⟨gs, h⟩ := v
  exact dif_pos h

/-- The groups on both sides of a run, and the run. -/
theorem expand_run {v : V6} {i j : Nat} (h : IsRun v.groups (i, j)) :
    expand ([], v.groups.take i ++ v.groups.drop j, some (v.groups.take i).length) = some v := by
  obtain ⟨hij, hj, hgs⟩ := h
  have hlen : (v.groups.take i ++ v.groups.drop j).length = 8 - (j - i) := by
    have h8 := v.length_groups
    simp only at hij hj
    rw [List.length_append, List.length_take, List.length_drop]
    omega
  have hlt : (v.groups.take i ++ v.groups.drop j).length < 8 := by
    simp only at hij
    omega
  have hn : 8 - (v.groups.take i ++ v.groups.drop j).length = j - i := by
    have h8 := v.length_groups
    simp only at hj
    omega
  simp only [expand, hlt, if_true, hn, List.take_left, List.drop_left, List.append_assoc]
  rw [← hgs]
  exact v.ofGroups_groups

/-- A text that does not start with a colon. -/
theorem parseIPv6_plain (hc : c ≠ ':') (hp : '%' ∉ c :: cs) :
    parseIPv6 (c :: cs) = (groupsLoop 8 (c :: cs) [] none).bind expand := by
  unfold parseIPv6
  rw [if_neg hp]
  split
  next h =>
    cases h
    exact absurd rfl hc
  · rfl

theorem parseIPv6_both (hx : xs ≠ []) :
    parseIPv6 (colons xs ++ ':' :: ':' :: colons ys) =
      (groupsLoop 8 (colons xs ++ ':' :: ':' :: colons ys) [] none).bind expand := by
  have hp : '%' ∉ colons xs ++ ':' :: ':' :: colons ys := by
    rw [List.mem_append, List.mem_cons, List.mem_cons]
    rintro (h | h | h | h)
    · exact percent_not_mem_colons xs h
    · exact absurd h (by decide)
    · exact absurd h (by decide)
    · exact percent_not_mem_colons ys h
  obtain ⟨c, cs, hc, hplain⟩ := colons_head hx
  rw [hc, List.cons_append] at hp ⊢
  exact parseIPv6_plain (ne_colon hplain) hp

theorem parseIPv6_leading (hy : ys ≠ []) :
    parseIPv6 (':' :: ':' :: colons ys) = (groupsLoop 8 (colons ys) [] (some 0)).bind expand := by
  have hp : '%' ∉ ':' :: ':' :: colons ys := by
    rw [List.mem_cons, List.mem_cons]
    rintro (h | h | h)
    · exact absurd h (by decide)
    · exact absurd h (by decide)
    · exact percent_not_mem_colons ys h
  obtain ⟨c, cs, hc, _⟩ := colons_head hy
  have hne : colons ys ≠ [] := by
    rw [hc]
    exact List.cons_ne_nil c cs
  unfold parseIPv6
  rw [if_neg hp]
  simp only [hne, if_false]

/-- **The text of sixteen bytes is read back.** -/
theorem parseIPv6_text (v : V6) : parseIPv6 v.text = some v := by
  have h8 := v.length_groups
  unfold V6.text
  split
  next i j hz =>
    have hrun := zeroRun_isRun hz
    have hexp := expand_run hrun
    have hlen : (v.groups.take i).length + (v.groups.drop j).length ≤ 8 := by
      have hij := hrun.1
      simp only at hij
      rw [List.length_take, List.length_drop]
      omega
    by_cases hx : v.groups.take i = []
    · rw [hx] at hexp ⊢
      by_cases hy : v.groups.drop j = []
      · -- every group is zero
        have hgs := hrun.2.2
        simp only [hx, hy, List.nil_append, List.append_nil] at hgs
        have hj : j - i = 8 := by
          have hl := congrArg List.length hgs
          rw [List.length_replicate, h8] at hl
          exact hl.symm
        rw [hj] at hgs
        rw [hy]
        show V6.ofGroups (List.replicate 8 0) = some v
        rw [← hgs]
        exact v.ofGroups_groups
      · have hyl : (v.groups.drop j).length ≤ 8 := by omega
        show parseIPv6 (':' :: ':' :: colons (v.groups.drop j)) = some v
        rw [parseIPv6_leading hy, groupsLoop_colons hy hyl]
        exact hexp
    · rw [parseIPv6_both hx, groupsLoop_both hx hlen, List.nil_append, List.length_nil,
        Nat.zero_add]
      exact hexp
  · -- no double colon
    have hne : v.groups ≠ [] := by
      intro h
      simp [h] at h8
    obtain ⟨c, cs, hc, hplain⟩ := colons_head hne
    have hp : '%' ∉ c :: cs := hc ▸ percent_not_mem_colons v.groups
    have hl : v.groups.length ≤ 8 := by omega
    rw [hc, parseIPv6_plain (ne_colon hplain) hp, ← hc, groupsLoop_colons hne hl]
    exact v.ofGroups_groups

/-- The first character that is none of a number's. -/
theorem find_delimiter {p : List Char} (hp : ∀ x ∈ p, delimiter x = false)
    (hc : delimiter c = true) : (p ++ c :: cs).find? delimiter = some c := by
  have hnone : p.find? delimiter = none :=
    List.find?_eq_none.mpr fun x hx => Bool.eq_false_iff.mp (hp x hx)
  rw [List.find?_append, hnone, Option.none_or, List.find?_cons_of_pos hc]

theorem parseAddr_text4 (v : V4) : parseAddr v.text = some v.to16 := by
  have hf : v.text.find? delimiter = some '.' := find_delimiter (fun x => decimal_plain) (by decide)
  unfold parseAddr
  rw [hf, parseIPv4Fields_text]
  rfl

/-- Sixteen bytes are written with a colon before any dot. -/
theorem text_find (v : V6) : v.text.find? delimiter = some ':' := by
  have hcolon : delimiter ':' = true := by decide
  -- the first group, and the colon after it
  have hcons : ∀ (g : Fin 65536) (gs : List (Fin 65536)) (cs : List Char), gs ≠ [] →
      (colons (g :: gs) ++ cs).find? delimiter = some ':' := by
    intro g gs cs hgs
    rw [colons_cons hgs, List.append_assoc, List.cons_append]
    exact find_delimiter (fun x => hex_plain) hcolon
  have hdouble : ∀ (xs : List (Fin 65536)) (cs : List Char),
      (colons xs ++ ':' :: cs).find? delimiter = some ':' := by
    intro xs cs
    match xs with
    | [] => exact find_delimiter (p := []) (by simp) hcolon
    | [g] => exact find_delimiter (fun x => hex_plain) hcolon
    | g :: g' :: gs => exact hcons g (g' :: gs) _ (List.cons_ne_nil _ _)
  unfold V6.text
  split
  · exact hdouble _ _
  · obtain ⟨gs, hlen⟩ := v
    match gs with
    | [] => cases hlen
    | [g] => cases hlen
    | g :: g' :: gs =>
      have h := hcons g (g' :: gs) [] (List.cons_ne_nil _ _)
      rw [List.append_nil] at h
      exact h

/-- **The text of an address names that address.** -/
theorem parseIP_string (ip : IP) : parseIP ip.string = some (.sixteen ip.to16) := by
  unfold parseIP IP.string
  rw [String.toList_ofList]
  cases h4 : ip.to4 with
  | some v =>
    have h16 : v.to16 = ip.to16 := by
      apply V6.to16_of_to4
      rw [IP.to4_to16, h4]
    simp only [parseAddr_text4, Option.map_some, h16]
  | none =>
    have h : parseAddr ip.to16.text = some ip.to16 := by
      unfold parseAddr
      rw [text_find]
      exact parseIPv6_text ip.to16
    simp only [h, Option.map_some]

/-- The text depends on the sixteen bytes alone. -/
theorem string_to16 (ip : IP) : (IP.sixteen ip.to16).string = ip.string := by
  have h4 : (IP.sixteen ip.to16).to4 = ip.to4 := IP.to4_to16 ip
  unfold IP.string
  rw [h4]
  rfl

/-- **Two addresses are equal exactly if their texts are.** -/
theorem equal_iff_string {ip x : IP} : ip.equal x = true ↔ ip.string = x.string := by
  rw [IP.equal_iff]
  constructor
  · intro h
    rw [← string_to16 ip, h, string_to16]
  · intro h
    have hp := parseIP_string ip
    rw [h, parseIP_string] at hp
    exact (IP.sixteen.inj (Option.some.inj hp)).symm

example : (parseIP "2001:DB8::0:1").map IP.string = some "2001:db8::1" := by decide +kernel

end BatteryOperator.Lib
