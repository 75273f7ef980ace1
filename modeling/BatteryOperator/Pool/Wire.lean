/-
  Subject:   A Pool's spec on the wire: battery's `PoolSpec` message (internal/battery/convert.go,
             `specToProto`, `specFromProto`), and the specs the CRD admits
             (api/v1alpha1/pool_types.go).

  A message has a template, since battery refuses one without. A nil list or map is the empty one,
  as in Pool/Convert.lean. A duration is a 64-bit count of nanoseconds in the client and seconds
  with nanoseconds on the wire.

  * `specFromProto_specToProto` -- what the client sends is what it reads back, for durations
    that are not negative;
  * `poolSpecToBattery_injective` -- **no field of a valid spec but the node selector is lost**.
-/
import BatteryOperator.Pool.Convert
import Mathlib.Algebra.Ring.Int.Defs

namespace BatteryOperator.Pools

/-! ## 1. Durations -/

/-- The values of a signed 64-bit integer. -/
def Fits64 (n : Int) : Prop := -2 ^ 63 ≤ n ∧ n < 2 ^ 63

instance (n : Int) : Decidable (Fits64 n) := inferInstanceAs (Decidable (_ ∧ _))

/-- `durationpb.Duration`. -/
structure ProtoDuration where
  seconds : Int
  nanos : Int
  deriving DecidableEq

/-- `durationpb.New`. -/
def ProtoDuration.new (d : Duration) : ProtoDuration where
  seconds := d.tdiv 1000000000
  nanos := d - d.tdiv 1000000000 * 1000000000

/-- `AsDuration`: a duration that does not fit is the nearest that does. -/
def ProtoDuration.asDuration (x : ProtoDuration) : Duration :=
  let d := x.seconds * 1000000000
  if Fits64 d ∧ Fits64 (d + x.nanos) then d + x.nanos
  else if x.seconds < 0 then -2 ^ 63
  else 2 ^ 63 - 1

theorem asDuration_new {d : Int} (h0 : 0 ≤ d) (h : d < 2 ^ 63) :
    (ProtoDuration.new d).asDuration = d := by
  have hdiv : d.tdiv 1000000000 = d / 1000000000 := Int.tdiv_eq_ediv_of_nonneg h0
  have hfit : Fits64 (d / 1000000000 * 1000000000) := by
    unfold Fits64
    omega
  have hsum : Fits64 (d / 1000000000 * 1000000000 + (d - d / 1000000000 * 1000000000)) := by
    unfold Fits64
    omega
  simp only [ProtoDuration.asDuration, ProtoDuration.new, hdiv]
  rw [if_pos ⟨hfit, hsum⟩]
  have hback : ∀ q : Int, q + (d - q) = d := fun q => by omega
  exact hback (d / 1000000000 * 1000000000)

/-! ## 2. The message -/

namespace Wire

/-- `poolmgrv1.ReplenishmentStrategy`. -/
structure ReplenishmentStrategy where
  type : Battery.ReplenishmentStrategyType
  minSize : Option Int32
  deriving DecidableEq

/-- `poolmgrv1.PoolSpec`. -/
structure PoolSpec where
  name : String
  namespace_ : String
  microvmTemplate : Flintlock.MicroVMSpec
  size : Int32
  flintlockHosts : List String
  replenishmentStrategy : Option ReplenishmentStrategy
  createCommands : List String
  preLeaseCommands : List String
  hookFailurePolicy : Battery.HookFailurePolicy
  heartbeatInterval : Option ProtoDuration
  heartbeatExpiryThreshold : Option ProtoDuration
  deriving DecidableEq

end Wire

/-- A duration on the wire: only a positive one is sent. -/
def durationToProto (d : Duration) : Option ProtoDuration :=
  if 0 < d then some (ProtoDuration.new d) else none

/-- A duration from the wire. -/
def durationFromProto (d : Option ProtoDuration) : Duration :=
  match d with
  | some x => x.asDuration
  | none => 0

/-- `specToProto`. -/
def specToProto (spec : Battery.PoolSpec) : Wire.PoolSpec where
  name := spec.ref.name
  namespace_ := spec.ref.namespace_
  microvmTemplate := spec.template
  size := spec.size
  flintlockHosts := spec.flintlockHosts
  replenishmentStrategy := some ⟨spec.replenishment.type, spec.replenishment.minSize⟩
  createCommands := spec.createCommands
  preLeaseCommands := spec.preLeaseCommands
  hookFailurePolicy := spec.hookFailurePolicy
  heartbeatInterval := durationToProto spec.heartbeatInterval
  heartbeatExpiryThreshold := durationToProto spec.heartbeatExpiryThreshold

/-- The strategy from the wire. -/
def replenishmentFromProto (r : Option Wire.ReplenishmentStrategy) :
    Battery.ReplenishmentStrategy :=
  match r with
  | some r => ⟨r.type, r.minSize⟩
  | none => ⟨.unspecified, none⟩

/-- `specFromProto`. -/
def specFromProto (s : Wire.PoolSpec) : Battery.PoolSpec where
  ref := ⟨s.name, s.namespace_⟩
  template := s.microvmTemplate
  size := s.size
  flintlockHosts := s.flintlockHosts
  replenishment := replenishmentFromProto s.replenishmentStrategy
  createCommands := s.createCommands
  preLeaseCommands := s.preLeaseCommands
  hookFailurePolicy := s.hookFailurePolicy
  heartbeatInterval := durationFromProto s.heartbeatInterval
  heartbeatExpiryThreshold := durationFromProto s.heartbeatExpiryThreshold

/-- A duration the wire carries: a 64-bit one that is not negative. -/
def Carried (d : Duration) : Prop := 0 ≤ d ∧ d < 2 ^ 63

theorem durationFromProto_toProto {d : Duration} (h : Carried d) :
    durationFromProto (durationToProto d) = d := by
  unfold durationToProto
  split
  · exact asDuration_new h.1 h.2
  next hneg =>
    have hle : d ≤ 0 := Int.not_lt.mp hneg
    exact Int.le_antisymm h.1 hle

/-- Both durations of the spec are carried. -/
structure Battery.PoolSpec.Carried (spec : Battery.PoolSpec) : Prop where
  interval : Pools.Carried spec.heartbeatInterval
  threshold : Pools.Carried spec.heartbeatExpiryThreshold

/-- **What the client sends is what it reads back.** -/
theorem specFromProto_specToProto {spec : Battery.PoolSpec} (h : spec.Carried) :
    specFromProto (specToProto spec) = spec := by
  have hi := durationFromProto_toProto h.interval
  have ht := durationFromProto_toProto h.threshold
  simp only [specFromProto, specToProto, hi, ht, replenishmentFromProto]

/-! ## 3. The specs the CRD admits -/

/-- `Volume`: exactly one source, and a positive size. -/
structure Volume.Valid (v : Volume) : Prop where
  source : v.containerSource.isSome ≠ v.virtiofsSource.isSome
  size : ∀ n, v.sizeInMb = some n → 1 ≤ n

/-- The interface types the CRD defines. -/
def NetworkInterfaceType.defined : NetworkInterfaceType → Bool
  | .macvtap | .tap => true
  | .other _ => false

structure NetworkInterface.Valid (n : NetworkInterface) : Prop where
  deviceID : n.deviceID ≠ ""
  type : n.type.defined = true
  address : ∀ a, n.address = some a → a.address ≠ ""

structure MicroVMTemplate.Valid (t : MicroVMTemplate) : Prop where
  vcpu : 1 ≤ t.vcpu ∧ t.vcpu ≤ 64
  memory : 1024 ≤ t.memoryInMb ∧ t.memoryInMb ≤ 32768
  kernel : t.kernel.image ≠ ""
  initrd : ∀ i, t.initrd = some i → i.image ≠ ""
  rootVolume : t.rootVolume.Valid
  additionalVolumes : ∀ v ∈ t.additionalVolumes, v.Valid
  someInterface : t.interfaces ≠ []
  interfaces : ∀ n ∈ t.interfaces, n.Valid

/-- The strategies the CRD defines. -/
def ReplenishmentStrategyType.defined : ReplenishmentStrategyType → Bool
  | .immediateOnLease | .minSizeThreshold | .replaceOnDelete => true
  | .other _ => false

structure ReplenishmentStrategy.Valid (r : ReplenishmentStrategy) : Prop where
  type : r.type.defined = true
  minSize : r.type = .minSizeThreshold → r.minSize.isSome
  positive : ∀ n, r.minSize = some n → 1 ≤ n

/-- The policies the CRD defines. -/
def HookFailurePolicy.defined : HookFailurePolicy → Bool
  | .deleteAndReplace | .quarantine => true
  | .other _ => false

/-- A duration that is set, or defaulted, and positive. -/
def Positive (d : Option Duration) : Prop := ∃ n, d = some n ∧ 0 < n ∧ n < 2 ^ 63

/-- **A spec the CRD admits, with its defaults.** -/
structure PoolSpec.Valid (spec : PoolSpec) : Prop where
  template : spec.template.Valid
  size : 0 ≤ spec.size
  replenishment : spec.replenishment.Valid
  failurePolicy : spec.hooks.failurePolicy.defined = true
  heartbeatInterval : Positive spec.lease.heartbeatInterval
  expiryThreshold : Positive spec.lease.expiryThreshold

/-! ## 4. The conversion loses nothing -/

theorem volumeToFlintlock_injective : Function.Injective volumeToFlintlock :=
  Function.HasLeftInverse.injective ⟨fun v => ⟨v.id, v.isReadOnly, v.mountPoint, v.partitionID,
    v.sizeInMb, v.source.containerSource, v.source.virtiofsSource⟩, fun _ => rfl⟩

/-- The two interface types stay apart. -/
theorem ifaceType_injective {a b : NetworkInterfaceType} (ha : a.defined = true)
    (hb : b.defined = true)
    (h : (if a = .tap then Flintlock.IfaceType.tap else .macvtap) =
      (if b = .tap then Flintlock.IfaceType.tap else .macvtap)) : a = b := by
  cases a <;> cases b <;> simp_all [NetworkInterfaceType.defined]

theorem interfaceToFlintlock_injective {n m : NetworkInterface} (hn : n.Valid) (hm : m.Valid)
    (h : interfaceToFlintlock n = interfaceToFlintlock m) : n = m := by
  have htype : n.type = m.type :=
    ifaceType_injective hn.type hm.type (congrArg Flintlock.NetworkInterface.type h)
  have haddress : n.address = m.address :=
    Option.map_injective (Function.HasLeftInverse.injective
      ⟨fun a => ⟨a.address, a.gateway, a.nameservers⟩, fun _ => rfl⟩)
      (congrArg Flintlock.NetworkInterface.address h)
  have hoverrides : n.overrides = m.overrides :=
    Option.map_injective (Function.HasLeftInverse.injective ⟨fun o => ⟨o.bridgeName⟩, fun _ => rfl⟩)
      (congrArg Flintlock.NetworkInterface.overrides h)
  obtain ⟨dev, ty, mac, addr, ov⟩ := n
  obtain ⟨dev', ty', mac', addr', ov'⟩ := m
  cases htype
  cases haddress
  cases hoverrides
  simp only [interfaceToFlintlock, Flintlock.NetworkInterface.mk.injEq, true_and] at h
  obtain ⟨rfl, rfl, -⟩ := h
  rfl

/-- A conversion that keeps the entries of a list apart keeps the lists apart. -/
theorem map_injective_of {α β : Type} {f : α → β} {P : α → Prop}
    (hf : ∀ a b, P a → P b → f a = f b → a = b) {l l' : List α} (hl : ∀ a ∈ l, P a)
    (hl' : ∀ a ∈ l', P a) (h : l.map f = l'.map f) : l = l' := by
  induction l generalizing l' with
  | nil => exact (List.map_eq_nil_iff.mp h.symm).symm
  | cons a l ih =>
    cases l' with
    | nil => cases h
    | cons b l' =>
      obtain ⟨hab, hrest⟩ := List.cons.inj h
      have hhead : a = b := hf a b (hl a List.mem_cons_self) (hl' b List.mem_cons_self) hab
      have htail : l = l' := ih (fun x hx => hl x (List.mem_cons_of_mem a hx))
        (fun x hx => hl' x (List.mem_cons_of_mem b hx)) hrest
      rw [hhead, htail]

theorem templateToFlintlock_injective {t u : MicroVMTemplate} {ns : String} (ht : t.Valid)
    (hu : u.Valid) (h : templateToFlintlock t ns = templateToFlintlock u ns) : t = u := by
  have hroot : t.rootVolume = u.rootVolume :=
    volumeToFlintlock_injective (congrArg Flintlock.MicroVMSpec.rootVolume h)
  have hvolumes : t.additionalVolumes = u.additionalVolumes :=
    (List.map_inj_right fun _ _ he => volumeToFlintlock_injective he).mp
      (congrArg Flintlock.MicroVMSpec.additionalVolumes h)
  have hinterfaces : t.interfaces = u.interfaces :=
    map_injective_of (fun _ _ => interfaceToFlintlock_injective) ht.interfaces hu.interfaces
      (congrArg Flintlock.MicroVMSpec.interfaces h)
  have hinitrd : t.initrd = u.initrd :=
    Option.map_injective (Function.HasLeftInverse.injective
      ⟨fun i => ⟨i.image, i.filename⟩, fun _ => rfl⟩)
      (congrArg Flintlock.MicroVMSpec.initrd h)
  have hconfig : t.cpuConfig = u.cpuConfig :=
    Option.map_injective (Function.HasLeftInverse.injective
      ⟨fun c => ⟨c.featuresToEnable, c.kvmCapabilitiesToDisable⟩, fun _ => rfl⟩)
      (congrArg Flintlock.MicroVMSpec.cpuConfig h)
  obtain ⟨prov, cpu, mem, ⟨im, cmd, file, net⟩, ini, root, vols, ifs, meta_, labels, cfg⟩ := t
  obtain ⟨prov', cpu', mem', ⟨im', cmd', file', net'⟩, ini', root', vols', ifs', meta', labels',
    cfg'⟩ := u
  cases hroot
  cases hvolumes
  cases hinterfaces
  cases hinitrd
  cases hconfig
  simp only [templateToFlintlock, Flintlock.MicroVMSpec.mk.injEq, Flintlock.Kernel.mk.injEq,
    true_and] at h
  obtain ⟨rfl, rfl, rfl, ⟨rfl, rfl, rfl, rfl⟩, rfl, rfl, -⟩ := h
  rfl

theorem replenishmentToBattery_injective {a b : ReplenishmentStrategyType} (ha : a.defined = true)
    (hb : b.defined = true) (h : replenishmentToBattery a = replenishmentToBattery b) : a = b := by
  cases a <;> cases b <;> simp_all [replenishmentToBattery, ReplenishmentStrategyType.defined]

theorem hookFailurePolicyToBattery_injective {a b : HookFailurePolicy} (ha : a.defined = true)
    (hb : b.defined = true) (h : hookFailurePolicyToBattery a = hookFailurePolicyToBattery b) :
    a = b := by
  cases a <;> cases b <;> simp_all [hookFailurePolicyToBattery, HookFailurePolicy.defined]

theorem positive_injective {a b : Option Duration} (ha : Positive a) (hb : Positive b)
    (h : a.getD 0 = b.getD 0) : a = b := by
  obtain ⟨n, rfl, -, -⟩ := ha
  obtain ⟨m, rfl, -, -⟩ := hb
  exact congrArg some h

theorem poolSpecToBattery_carried (key : ObjectKey) {spec : PoolSpec} (h : spec.Valid)
    (hosts : List String) : (poolSpecToBattery key spec hosts).Carried := by
  obtain ⟨n, hn, hpos, hlt⟩ := h.heartbeatInterval
  obtain ⟨m, hm, hpos', hlt'⟩ := h.expiryThreshold
  constructor
  · simp only [poolSpecToBattery, hn]
    exact ⟨Int.le_of_lt hpos, hlt⟩
  · simp only [poolSpecToBattery, hm]
    exact ⟨Int.le_of_lt hpos', hlt'⟩

/-- **Two valid specs that differ beside the node selector are different to battery.** -/
theorem poolSpecToBattery_injective {key : ObjectKey} {spec other : PoolSpec} {hosts : List String}
    (h : spec.Valid) (h' : other.Valid)
    (he : poolSpecToBattery key spec hosts = poolSpecToBattery key other hosts) :
    { spec with nodeSelector := other.nodeSelector } = other := by
  have htemplate : spec.template = other.template :=
    templateToFlintlock_injective h.template h'.template (congrArg Battery.PoolSpec.template he)
  have hstrategy := congrArg Battery.PoolSpec.replenishment he
  have htype : spec.replenishment.type = other.replenishment.type :=
    replenishmentToBattery_injective h.replenishment.type h'.replenishment.type
      (congrArg Battery.ReplenishmentStrategy.type hstrategy)
  have hminSize : spec.replenishment.minSize = other.replenishment.minSize :=
    congrArg Battery.ReplenishmentStrategy.minSize hstrategy
  have hpolicy : spec.hooks.failurePolicy = other.hooks.failurePolicy :=
    hookFailurePolicyToBattery_injective h.failurePolicy h'.failurePolicy
      (congrArg Battery.PoolSpec.hookFailurePolicy he)
  have hinterval : spec.lease.heartbeatInterval = other.lease.heartbeatInterval :=
    positive_injective h.heartbeatInterval h'.heartbeatInterval
      (congrArg Battery.PoolSpec.heartbeatInterval he)
  have hthreshold : spec.lease.expiryThreshold = other.lease.expiryThreshold :=
    positive_injective h.expiryThreshold h'.expiryThreshold
      (congrArg Battery.PoolSpec.heartbeatExpiryThreshold he)
  have hsize : spec.size = other.size := congrArg Battery.PoolSpec.size he
  have hcreate : spec.hooks.create = other.hooks.create :=
    congrArg Battery.PoolSpec.createCommands he
  have hpreLease : spec.hooks.preLease = other.hooks.preLease :=
    congrArg Battery.PoolSpec.preLeaseCommands he
  obtain ⟨t, size, sel, ⟨ty, ms⟩, ⟨cr, pl, fp⟩, ⟨hi, et⟩⟩ := spec
  obtain ⟨t', size', sel', ⟨ty', ms'⟩, ⟨cr', pl', fp'⟩, ⟨hi', et'⟩⟩ := other
  cases htemplate
  cases htype
  cases hminSize
  cases hpolicy
  cases hinterval
  cases hthreshold
  cases hsize
  cases hcreate
  cases hpreLease
  rfl

/-- **A Pool's spec reaches battery faithfully.** What battery sends back of a valid spec reads as
    what was sent, and two valid specs of one name that give the same message with the same Hosts
    are equal but for their node selectors. -/
theorem pool_spec_reaches_battery (key : ObjectKey) (hosts : List String) (spec : PoolSpec)
    (h : spec.Valid) :
    specFromProto (specToProto (poolSpecToBattery key spec hosts)) =
        poolSpecToBattery key spec hosts ∧
      ∀ other : PoolSpec, other.Valid →
        specToProto (poolSpecToBattery key spec hosts) =
          specToProto (poolSpecToBattery key other hosts) →
        { spec with nodeSelector := other.nodeSelector } = other := by
  have hback := specFromProto_specToProto (poolSpecToBattery_carried key h hosts)
  refine ⟨hback, fun other h' he => ?_⟩
  have hback' := specFromProto_specToProto (poolSpecToBattery_carried key h' hosts)
  have hsame : poolSpecToBattery key spec hosts = poolSpecToBattery key other hosts := by
    rw [← hback, ← hback', he]
  exact poolSpecToBattery_injective h h' hsame

/-- A valid spec with one interface and hooks. -/
def runnersSpec : PoolSpec where
  template :=
    { provider := none
      vcpu := 2
      memoryInMb := 2048
      kernel := ⟨"kernel:5.10", [("console", "ttyS0")], none, true⟩
      initrd := none
      rootVolume := ⟨"root", false, none, none, none, some "ubuntu:22.04", none⟩
      additionalVolumes := []
      interfaces := [⟨"eth1", .tap, none, none, none⟩]
      metadata := []
      labels := []
      cpuConfig := none }
  size := 3
  nodeSelector := [("zone", "a")]
  replenishment := ⟨.immediateOnLease, none⟩
  hooks := ⟨["true"], [], .quarantine⟩
  lease := ⟨some (10 * second), some (30 * second)⟩

theorem runnersSpec_valid : runnersSpec.Valid where
  template :=
    { vcpu := by decide
      memory := by decide
      kernel := by decide
      initrd := nofun
      rootVolume := ⟨by decide, nofun⟩
      additionalVolumes := nofun
      someInterface := by decide
      interfaces := fun n hn => by
        rw [List.mem_singleton.mp hn]
        exact ⟨by decide, rfl, nofun⟩ }
  size := by decide
  replenishment := ⟨rfl, nofun, nofun⟩
  failurePolicy := rfl
  heartbeatInterval := ⟨10 * second, rfl, by decide, by decide⟩
  expiryThreshold := ⟨30 * second, rfl, by decide, by decide⟩

/-- The same spec with another failure policy. -/
def replacingSpec : PoolSpec :=
  { runnersSpec with hooks := { runnersSpec.hooks with failurePolicy := .deleteAndReplace } }

/-- The message of the spec reads back as its conversion, and that of the other one is another. -/
theorem pool_spec_reaches_battery_runners :
    specFromProto (specToProto (poolSpecToBattery ⟨"team", "runners"⟩ runnersSpec ["host-1"])) =
        poolSpecToBattery ⟨"team", "runners"⟩ runnersSpec ["host-1"] ∧
      specToProto (poolSpecToBattery ⟨"team", "runners"⟩ runnersSpec ["host-1"]) ≠
        specToProto (poolSpecToBattery ⟨"team", "runners"⟩ replacingSpec ["host-1"]) := by
  obtain ⟨hback, hinjective⟩ := pool_spec_reaches_battery ⟨"team", "runners"⟩ ["host-1"]
    runnersSpec runnersSpec_valid
  have hvalid : replacingSpec.Valid := { runnersSpec_valid with failurePolicy := rfl }
  refine ⟨hback, fun he => ?_⟩
  have hsame := hinjective replacingSpec hvalid he
  exact absurd hsame (by decide)

end BatteryOperator.Pools
