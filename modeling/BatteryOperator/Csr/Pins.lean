/-
  Subject:   The address pins and their index (internal/controller/csr_pins.go).

  The ConfigMap `host-address-pins` holds one entry for each Node name, the address the Operator
  first signed a serving certificate for. The index (`AddressPins`) finds the Nodes an address is
  pinned to; it is kept for the version of the ConfigMap that was read last (`PinIndex`).

  * `canonicalAddress_string` -- the text of an address is its canonical form;
  * `mem_byAddress` -- **what the index holds**: the Nodes whose pins have that canonical form.

  Left out: the ConfigMap's labels, which nothing reads.
-/
import BatteryOperator.Csr.Review
import BatteryOperator.Lib.Versioned

namespace BatteryOperator.Csr

open Lib

/-- `AddressPinsConfigMap`. -/
def addressPinsConfigMap : String := "host-address-pins"

def reasonAddressPinned : String := "AddressPinned"

/-- A ConfigMap; its resourceVersion is 0 where the source's is the empty text. -/
structure ConfigMap where
  key : ObjectKey
  uid : Nat := 0
  resourceVersion : Nat := 0
  data : Dict String String

/-! ## 1. Canonical addresses -/

/-- `canonicalAddress`. -/
def canonicalAddress (a : String) : String :=
  match parseIP a with
  | some ip => ip.string
  | none => a

/-- **The text of an address is canonical.** -/
@[simp] theorem canonicalAddress_string (ip : IP) : canonicalAddress ip.string = ip.string := by
  unfold canonicalAddress
  rw [parseIP_string]
  exact string_to16 ip

/-! ## 2. The index -/

/-- `addressPins`. -/
structure AddressPins where
  configMap : Option ConfigMap
  byAddress : Dict String (List String)

/-- The entry of an address in the index. -/
def nodesOf (byAddress : Dict String (List String)) (address : String) : List String :=
  (byAddress.lookup address).getD []

/-- One round of the loop of `newAddressPins`. -/
def addPin (data : Dict String String) (byAddress : Dict String (List String)) (node : String) :
    Dict String (List String) :=
  let a := canonicalAddress ((data.lookup node).getD "")
  byAddress.insert a (nodesOf byAddress a ++ [node])

/-- `newAddressPins`. -/
def newAddressPins (cm : Option ConfigMap) : AddressPins where
  configMap := cm
  byAddress :=
    match cm with
    | none => ∅
    | some cm => cm.data.sortedKeys.foldl (addPin cm.data) ∅

/-- `addressPins.pinned`. -/
def AddressPins.pinned (p : AddressPins) (node : String) : Option String :=
  p.configMap.bind fun cm => cm.data.lookup node

/-- `pinIndex`, once it holds an index. -/
structure PinIndex where
  uid : Nat
  version : Nat
  pins : AddressPins

/-- `pinIndex.of`: the index of `cm`, and what is kept. -/
def PinIndex.of (x : Option PinIndex) (cm : Option ConfigMap) : AddressPins × Option PinIndex :=
  match cm with
  | none => (newAddressPins none, x)
  | some c =>
    if c.resourceVersion = 0 then (newAddressPins (some c), x)
    else
      match x with
      | some kept =>
        if kept.uid = c.uid ∧ kept.version = c.resourceVersion then (kept.pins, x)
        else (newAddressPins (some c), some ⟨c.uid, c.resourceVersion, newAddressPins (some c)⟩)
      | none =>
        (newAddressPins (some c), some ⟨c.uid, c.resourceVersion, newAddressPins (some c)⟩)

/-! ## 3. What the index holds -/

theorem nodesOf_addPin {data : Dict String String} {byAddress : Dict String (List String)}
    {node address m : String} :
    m ∈ nodesOf (addPin data byAddress node) address ↔ m ∈ nodesOf byAddress address ∨
      (m = node ∧ canonicalAddress ((data.lookup node).getD "") = address) := by
  unfold nodesOf addPin
  simp only [Dict.lookup_insert_eq]
  by_cases ha : address = canonicalAddress ((data.lookup node).getD "")
  · subst ha
    simp [nodesOf]
  · simp [ha, Ne.symm ha]

theorem nodesOf_foldl {data : Dict String String} (nodes : List String)
    (byAddress : Dict String (List String)) {address m : String} :
    m ∈ nodesOf (nodes.foldl (addPin data) byAddress) address ↔ m ∈ nodesOf byAddress address ∨
      (m ∈ nodes ∧ canonicalAddress ((data.lookup m).getD "") = address) := by
  induction nodes generalizing byAddress with
  | nil => simp
  | cons node nodes ih =>
    rw [List.foldl_cons, ih, nodesOf_addPin, List.mem_cons]
    constructor
    · rintro ((h | ⟨rfl, h⟩) | ⟨hm, h⟩)
      · exact .inl h
      · exact .inr ⟨.inl rfl, h⟩
      · exact .inr ⟨.inr hm, h⟩
    · rintro (h | ⟨rfl | hm, h⟩)
      · exact .inl (.inl h)
      · exact .inl (.inr ⟨rfl, h⟩)
      · exact .inr ⟨hm, h⟩

/-- **The Nodes the index has for an address** are those pinned to it. -/
theorem mem_byAddress {cm : ConfigMap} {address m : String} :
    m ∈ nodesOf (newAddressPins (some cm)).byAddress address ↔
      ∃ a, cm.data.lookup m = some a ∧ canonicalAddress a = address := by
  have hempty : m ∉ nodesOf (∅ : Dict String (List String)) address := by
    simp [nodesOf]
  simp only [newAddressPins, nodesOf_foldl, Dict.mem_sortedKeys]
  constructor
  · rintro (h | ⟨hm, h⟩)
    · exact absurd h hempty
    · obtain ⟨a, ha⟩ := Option.isSome_iff_exists.mp (AList.lookup_isSome.mpr hm)
      refine ⟨a, ha, ?_⟩
      rw [ha] at h
      exact h
  · rintro ⟨a, ha, h⟩
    refine .inr ⟨AList.lookup_isSome.mp (by rw [ha]; rfl), ?_⟩
    rw [ha]
    exact h

theorem byAddress_none (address : String) :
    nodesOf (newAddressPins none).byAddress address = [] := rfl

/-! ## 4. What is kept -/

/-- What is kept is the index of one of these versions. -/
def PinIndex.Kept (vs : Versions ConfigMap) (x : Option PinIndex) : Prop :=
  ∀ kept, x = some kept → ∃ cm, some cm ∈ vs ∧ kept.uid = cm.uid ∧
    kept.version = cm.resourceVersion ∧ kept.pins = newAddressPins (some cm)

/-- **The index asked for is the one rebuilt from that version**, whatever was kept. -/
theorem PinIndex.of_eq {vs : Versions ConfigMap} {bound : Nat} {x : Option PinIndex}
    {cm : Option ConfigMap}
    (hn : Versions.Numbered ConfigMap.resourceVersion bound vs) (hx : PinIndex.Kept vs x)
    (hcm : ∀ c, cm = some c → some c ∈ vs) :
    (PinIndex.of x cm).1 = newAddressPins cm ∧ PinIndex.Kept vs (PinIndex.of x cm).2 := by
  cases cm with
  | none => exact ⟨rfl, hx⟩
  | some c =>
    have hc : some c ∈ vs := hcm c rfl
    have hnew : PinIndex.Kept vs
        (some ⟨c.uid, c.resourceVersion, newAddressPins (some c)⟩) := by
      intro kept hk
      cases hk
      exact ⟨c, hc, rfl, rfl, rfl⟩
    by_cases h0 : c.resourceVersion = 0
    · simp only [PinIndex.of, h0, if_true]
      exact ⟨trivial, hx⟩
    · cases x with
      | none =>
        simp only [PinIndex.of, h0, if_false]
        exact ⟨trivial, hnew⟩
      | some kept =>
        by_cases hk : kept.uid = c.uid ∧ kept.version = c.resourceVersion
        · -- a version has one content, so what was kept is of this one
          obtain ⟨cm', hm, _, hv, hp⟩ := hx kept rfl
          have heq : cm' = c := hn.inj cm' c hm hc (hv.symm.trans hk.2)
          simp only [PinIndex.of, h0, hk, if_true, if_false, and_self]
          exact ⟨by rw [hp, heq], hx⟩
        · simp only [PinIndex.of, h0, hk, if_false]
          exact ⟨trivial, hnew⟩

theorem PinIndex.Kept.mono {vs vs' : Versions ConfigMap} {x : Option PinIndex}
    (h : PinIndex.Kept vs x) (hle : ∀ c, some c ∈ vs → some c ∈ vs') : PinIndex.Kept vs' x := by
  intro kept hk
  obtain ⟨cm, hm, hrest⟩ := h kept hk
  exact ⟨cm, hle cm hm, hrest⟩

end BatteryOperator.Csr
