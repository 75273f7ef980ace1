/-
  Subject:   The `Pool` resource's spec (api/v1alpha1/pool_types.go), battery's PoolSpec
             (internal/battery/api.go) and the conversion between them
             (internal/controller/pool_convert.go, pool_deletion.go).

  A map of texts is its entries in the order of their keys; a nil list or map is the empty one.
  An enumeration keeps a value the CRD does not define as `other`.

  * `poolSpecToBattery` -- the spec the controller declares to battery;
  * `drainedSpec`, `isDrainedSpec` -- the spec under which battery creates no MicroVM.
-/
import BatteryOperator.Api
import BatteryOperator.Battery

namespace BatteryOperator.Pools

/-! ## 1. The Pool's spec -/

/-- `map[string]string`. -/
abbrev Texts := List (String × String)

/-- `ReplenishmentStrategyType`. -/
inductive ReplenishmentStrategyType where
  | immediateOnLease
  | minSizeThreshold
  | replaceOnDelete
  | other (value : String)
  deriving DecidableEq

/-- `ReplenishmentStrategy`. -/
structure ReplenishmentStrategy where
  type : ReplenishmentStrategyType
  minSize : Option Int32
  deriving DecidableEq

/-- `HookFailurePolicy`. -/
inductive HookFailurePolicy where
  | deleteAndReplace
  | quarantine
  | other (value : String)
  deriving DecidableEq

/-- `PoolHooks`. -/
structure PoolHooks where
  create : List String
  preLease : List String
  failurePolicy : HookFailurePolicy
  deriving DecidableEq

/-- `PoolLease`. -/
structure PoolLease where
  heartbeatInterval : Option Duration
  expiryThreshold : Option Duration
  deriving DecidableEq

/-- `Kernel`. -/
structure Kernel where
  image : String
  cmdline : Texts
  filename : Option String
  addNetworkConfig : Bool
  deriving DecidableEq

/-- `Initrd`. -/
structure Initrd where
  image : String
  filename : Option String
  deriving DecidableEq

/-- `Volume`. -/
structure Volume where
  id : String
  readOnly : Bool
  mountPoint : Option String
  partitionID : Option String
  sizeInMb : Option Int32
  containerSource : Option String
  virtiofsSource : Option String
  deriving DecidableEq

/-- `NetworkInterfaceType`. -/
inductive NetworkInterfaceType where
  | macvtap
  | tap
  | other (value : String)
  deriving DecidableEq

/-- `StaticAddress`. -/
structure StaticAddress where
  address : String
  gateway : Option String
  nameservers : List String
  deriving DecidableEq

/-- `NetworkOverrides`. -/
structure NetworkOverrides where
  bridgeName : Option String
  deriving DecidableEq

/-- `NetworkInterface`. -/
structure NetworkInterface where
  deviceID : String
  type : NetworkInterfaceType
  guestMAC : Option String
  address : Option StaticAddress
  overrides : Option NetworkOverrides
  deriving DecidableEq

/-- `CPUConfig`. -/
structure CPUConfig where
  featuresToEnable : List String
  kvmCapabilitiesToDisable : List String
  deriving DecidableEq

/-- `MicroVMTemplate`. -/
structure MicroVMTemplate where
  provider : Option String
  vcpu : Int32
  memoryInMb : Int32
  kernel : Kernel
  initrd : Option Initrd
  rootVolume : Volume
  additionalVolumes : List Volume
  interfaces : List NetworkInterface
  metadata : Texts
  labels : Texts
  cpuConfig : Option CPUConfig
  deriving DecidableEq

/-- `PoolSpec`; of its placement there is only the node selector. -/
structure PoolSpec where
  template : MicroVMTemplate
  size : Int32
  nodeSelector : Texts
  replenishment : ReplenishmentStrategy
  hooks : PoolHooks
  lease : PoolLease
  deriving DecidableEq

/-! ## 2. flintlock's MicroVMSpec -/

namespace Flintlock

/-- `types.Kernel`. -/
structure Kernel where
  image : String
  cmdline : Texts
  filename : Option String
  addNetworkConfig : Bool
  deriving DecidableEq

/-- `types.Initrd`. -/
structure Initrd where
  image : String
  filename : Option String
  deriving DecidableEq

/-- `types.VolumeSource`. -/
structure VolumeSource where
  containerSource : Option String
  virtiofsSource : Option String
  deriving DecidableEq

/-- `types.Volume`. -/
structure Volume where
  id : String
  isReadOnly : Bool
  mountPoint : Option String
  partitionID : Option String
  sizeInMb : Option Int32
  source : VolumeSource
  deriving DecidableEq

/-- `types.NetworkInterface_IfaceType`. -/
inductive IfaceType where
  | macvtap
  | tap
  deriving DecidableEq

/-- `types.StaticAddress`. -/
structure StaticAddress where
  address : String
  gateway : Option String
  nameservers : List String
  deriving DecidableEq

/-- `types.NetworkOverrides`. -/
structure NetworkOverrides where
  bridgeName : Option String
  deriving DecidableEq

/-- `types.NetworkInterface`. -/
structure NetworkInterface where
  deviceID : String
  type : IfaceType
  guestMac : Option String
  address : Option StaticAddress
  overrides : Option NetworkOverrides
  deriving DecidableEq

/-- `types.CPUConfig`. -/
structure CPUConfig where
  featuresToEnable : List String
  kvmCapabilitiesToDisable : List String
  deriving DecidableEq

/-- `types.MicroVMSpec`, as far as a template sets it. -/
structure MicroVMSpec where
  namespace_ : String
  labels : Texts
  vcpu : Int32
  memoryInMb : Int32
  kernel : Kernel
  initrd : Option Initrd
  rootVolume : Volume
  additionalVolumes : List Volume
  interfaces : List NetworkInterface
  metadata : Texts
  provider : Option String
  cpuConfig : Option CPUConfig
  deriving DecidableEq

end Flintlock

/-- `volumeToFlintlock`. -/
def volumeToFlintlock (v : Volume) : Flintlock.Volume where
  id := v.id
  isReadOnly := v.readOnly
  mountPoint := v.mountPoint
  partitionID := v.partitionID
  sizeInMb := v.sizeInMb
  source := ⟨v.containerSource, v.virtiofsSource⟩

/-- `interfaceToFlintlock`. -/
def interfaceToFlintlock (n : NetworkInterface) : Flintlock.NetworkInterface where
  deviceID := n.deviceID
  type := if n.type = .tap then .tap else .macvtap
  guestMac := n.guestMAC
  address := n.address.map fun a =>
    { address := a.address, gateway := a.gateway, nameservers := a.nameservers }
  overrides := n.overrides.map fun o => { bridgeName := o.bridgeName }

/-- `templateToFlintlock`. -/
def templateToFlintlock (t : MicroVMTemplate) (namespace_ : String) : Flintlock.MicroVMSpec where
  namespace_ := namespace_
  labels := t.labels
  vcpu := t.vcpu
  memoryInMb := t.memoryInMb
  kernel :=
    { image := t.kernel.image
      cmdline := t.kernel.cmdline
      filename := t.kernel.filename
      addNetworkConfig := t.kernel.addNetworkConfig }
  initrd := t.initrd.map fun i => { image := i.image, filename := i.filename }
  rootVolume := volumeToFlintlock t.rootVolume
  additionalVolumes := t.additionalVolumes.map volumeToFlintlock
  interfaces := t.interfaces.map interfaceToFlintlock
  metadata := t.metadata
  provider := t.provider
  cpuConfig := t.cpuConfig.map fun c =>
    { featuresToEnable := c.featuresToEnable
      kvmCapabilitiesToDisable := c.kvmCapabilitiesToDisable }

/-! ## 3. battery's PoolSpec -/

namespace Battery

/-- `poolmgrv1.ReplenishmentStrategyType`. -/
inductive ReplenishmentStrategyType where
  | unspecified
  | immediateOnLease
  | minSizeThreshold
  | replaceOnDelete
  deriving DecidableEq

/-- `battery.ReplenishmentStrategy`. -/
structure ReplenishmentStrategy where
  type : ReplenishmentStrategyType
  minSize : Option Int32
  deriving DecidableEq

/-- `poolmgrv1.HookFailurePolicy`. -/
inductive HookFailurePolicy where
  | unspecified
  | deleteAndReplace
  | quarantine
  deriving DecidableEq

/-- `battery.PoolSpec`. -/
structure PoolSpec where
  ref : PoolRef
  template : Flintlock.MicroVMSpec
  size : Int32
  flintlockHosts : List String
  replenishment : ReplenishmentStrategy
  createCommands : List String
  preLeaseCommands : List String
  hookFailurePolicy : HookFailurePolicy
  heartbeatInterval : Duration
  heartbeatExpiryThreshold : Duration
  deriving DecidableEq

/-- `battery.PoolStatus`. -/
structure PoolStatus where
  available : Int32 := 0
  leased : Int32 := 0
  provisioning : Int32 := 0
  quarantined : Int32 := 0
  deriving DecidableEq

/-- `battery.Pool`. -/
structure Pool where
  spec : PoolSpec
  status : PoolStatus
  deriving DecidableEq

end Battery

/-- `replenishmentToBattery`. -/
def replenishmentToBattery : ReplenishmentStrategyType → Battery.ReplenishmentStrategyType
  | .immediateOnLease => .immediateOnLease
  | .minSizeThreshold => .minSizeThreshold
  | .replaceOnDelete => .replaceOnDelete
  | .other _ => .unspecified

/-- `hookFailurePolicyToBattery`. -/
def hookFailurePolicyToBattery : HookFailurePolicy → Battery.HookFailurePolicy
  | .deleteAndReplace => .deleteAndReplace
  | .quarantine => .quarantine
  | .other _ => .unspecified

/-- `poolRef`. -/
def poolRef (key : ObjectKey) : PoolRef := ⟨key.name, key.namespace_⟩

/-- `poolSpecToBattery`, of the Pool's namespace, name and spec. -/
def poolSpecToBattery (key : ObjectKey) (spec : PoolSpec) (hosts : List String) :
    Battery.PoolSpec where
  ref := poolRef key
  template := templateToFlintlock spec.template key.namespace_
  size := spec.size
  flintlockHosts := hosts
  replenishment := ⟨replenishmentToBattery spec.replenishment.type, spec.replenishment.minSize⟩
  createCommands := spec.hooks.create
  preLeaseCommands := spec.hooks.preLease
  hookFailurePolicy := hookFailurePolicyToBattery spec.hooks.failurePolicy
  heartbeatInterval := spec.lease.heartbeatInterval.getD 0
  heartbeatExpiryThreshold := spec.lease.expiryThreshold.getD 0

/-- `drainedMinSize`. -/
def drainedMinSize : Int32 := 1

/-- `drainedSpec`. -/
def drainedSpec (spec : Battery.PoolSpec) : Battery.PoolSpec :=
  { spec with size := 0, replenishment := ⟨.minSizeThreshold, some drainedMinSize⟩ }

/-- `isDrainedSpec`. -/
def isDrainedSpec (spec : Battery.PoolSpec) : Bool :=
  spec.size = 0 && spec.replenishment.type = .minSizeThreshold &&
    spec.replenishment.minSize = some drainedMinSize

end BatteryOperator.Pools
