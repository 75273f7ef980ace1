/-
  Subject:   The `MicroVMClaim` resource (api/v1alpha1/microvmclaim_types.go) and the helpers of
             apimachinery and controller-runtime the controllers use on it.

  Left out: the object's labels, annotations and creation time, which no modelled function reads.

  * `MicroVMClaimStatus.encode` -- a status as its JSON reads back: every `metav1.Time` in whole
    seconds;
  * `MicroVMClaimStatus.merge` -- what the API server stores after a merge patch of the difference
    of two statuses: each field on its own, the objects `microVM` and `host` field by field, the
    conditions list whole.
-/
import BatteryOperator.Lib.MergePatch
import BatteryOperator.Time

namespace BatteryOperator

open Lib

/-! ## 1. Conditions -/

/-- `metav1.ConditionStatus`. -/
inductive ConditionStatus where
  | true
  | false
  | unknown
  deriving DecidableEq

/-- `metav1.Condition`, over the condition types of one resource. -/
structure Condition (τ : Type) where
  type : τ
  status : ConditionStatus
  reason : String
  message : String
  observedGeneration : Int
  lastTransitionTime : Time
  deriving DecidableEq

section Conditions

variable {τ : Type} [DecidableEq τ]

/-- `meta.FindStatusCondition`. -/
def findStatusCondition (conditions : List (Condition τ)) (type : τ) : Option (Condition τ) :=
  conditions.find? fun c => c.type = type

/-- What `meta.SetStatusCondition` makes of the condition there is: the transition time moves only
    with the status. -/
def Condition.updated (old new : Condition τ) : Condition τ :=
  { old with
    status := new.status
    lastTransitionTime :=
      if old.status = new.status then old.lastTransitionTime else new.lastTransitionTime
    reason := new.reason
    message := new.message
    observedGeneration := new.observedGeneration }

/-- `meta.SetStatusCondition`: the first condition of the type is updated in its place; if there
    is none, the new one is appended. -/
def setStatusCondition : List (Condition τ) → Condition τ → List (Condition τ)
  | [], new => [new]
  | c :: cs, new =>
    if c.type = new.type then c.updated new :: cs else c :: setStatusCondition cs new

theorem findStatusCondition_set_same (cs : List (Condition τ)) (new : Condition τ) :
    findStatusCondition (setStatusCondition cs new) new.type =
      some (match findStatusCondition cs new.type with
        | some old => old.updated new
        | none => new) := by
  induction cs with
  | nil => simp [setStatusCondition, findStatusCondition]
  | cons c cs ih =>
    unfold setStatusCondition
    by_cases h : c.type = new.type
    · have hu : (c.updated new).type = new.type := h
      simp only [h, if_true, findStatusCondition, List.find?_cons, hu, decide_true]
    · simp only [if_neg h]
      simp only [findStatusCondition, List.find?_cons, h, decide_false] at ih ⊢
      exact ih

theorem findStatusCondition_set_other (cs : List (Condition τ)) (new : Condition τ) {type : τ}
    (hne : new.type ≠ type) :
    findStatusCondition (setStatusCondition cs new) type = findStatusCondition cs type := by
  induction cs with
  | nil => simp [setStatusCondition, findStatusCondition, hne]
  | cons c cs ih =>
    unfold setStatusCondition
    by_cases h : c.type = new.type
    · have hc : c.type ≠ type := fun e => hne (h.symm.trans e)
      have hu : (c.updated new).type ≠ type := hc
      simp only [h, if_true, findStatusCondition, List.find?_cons, hu, decide_false,
        decide_eq_false hne]
    · simp only [if_neg h]
      simp only [findStatusCondition, List.find?_cons] at ih ⊢
      rw [ih]

end Conditions

/-! ## 2. The claim -/

/-- `metav1.ObjectMeta`, as far as the controllers use it. -/
structure ObjectMeta where
  namespace_ : String
  name : String
  uid : String
  resourceVersion : Nat
  generation : Int
  deletionTimestamp : Option Time
  finalizers : List String
  deriving DecidableEq

/-- `client.ObjectKey`. -/
structure ObjectKey where
  namespace_ : String
  name : String
  deriving DecidableEq

/-- `MicroVMClaimPhase`; a claim no reconcile has written yet has the empty one. -/
inductive MicroVMClaimPhase where
  | empty
  | pending
  | bound
  | expired
  deriving DecidableEq

/-- The text of a phase. -/
def MicroVMClaimPhase.text : MicroVMClaimPhase → String
  | .empty => ""
  | .pending => "Pending"
  | .bound => "Bound"
  | .expired => "Expired"

/-- The condition types of a claim: `ConditionBound`, `ConditionSynced`,
    `ConditionAgentAvailable` and `ConditionHostReady`. -/
inductive ClaimCondition where
  | bound
  | synced
  | agentAvailable
  | hostReady
  deriving DecidableEq

def reasonBound : String := "Bound"
def reasonPoolExhausted : String := "PoolExhausted"
def reasonPoolNotFound : String := "PoolNotFound"
def reasonPoolDeleting : String := "PoolDeleting"
def reasonLeaseExpired : String := "LeaseExpired"
def reasonBatteryUnavailable : String := "BatteryUnavailable"
def reasonClaimAborted : String := "ClaimAborted"
def reasonSynced : String := "Synced"
def reasonBatteryError : String := "BatteryError"
def reasonAgentAddressPublished : String := "AgentAddressPublished"
def reasonNoAgentAddress : String := "NoAgentAddress"
def reasonNodeNotFound : String := "NodeNotFound"
def reasonNoNodeReport : String := "NoNodeReport"
def reasonHostNotReady : String := "HostNotReady"

/-- `ReleaseFinalizer`. -/
def releaseFinalizer : String := "battery.liquidmetal-x.dev/release"

/-- `ExecSecretSuffix` ends the name of a claim's Secret. -/
def execSecretSuffix : String := "-exec"

/-- `MicroVMClaimSpec`. -/
structure MicroVMClaimSpec where
  poolRef : String
  renewTime : Option MicroTime
  serviceAccountName : String
  deriving DecidableEq

/-- `MicroVMReference`. -/
structure MicroVMReference where
  uid : String
  deriving DecidableEq

/-- `HostReference`. -/
structure HostReference where
  nodeName : String
  agentAddress : String
  deriving DecidableEq

/-- `MicroVMClaimStatus`. -/
structure MicroVMClaimStatus where
  phase : MicroVMClaimPhase := .empty
  leaseID : String := ""
  microVM : Option MicroVMReference := none
  host : Option HostReference := none
  boundTime : Option Time := none
  leaseExpiresAt : Option Time := none
  observedRenewTime : Option MicroTime := none
  conditions : List (Condition ClaimCondition) := []
  deriving DecidableEq

/-- `MicroVMClaim`. -/
structure MicroVMClaim extends ObjectMeta where
  spec : MicroVMClaimSpec
  status : MicroVMClaimStatus
  deriving DecidableEq

namespace MicroVMClaim

/-- `client.ObjectKeyFromObject`. -/
def key (c : MicroVMClaim) : ObjectKey := ⟨c.namespace_, c.name⟩

/-- `!c.DeletionTimestamp.IsZero()`. -/
def deleting (c : MicroVMClaim) : Bool := c.deletionTimestamp.isSome

/-- `controllerutil.ContainsFinalizer` for the release finalizer. -/
def hasRelease (c : MicroVMClaim) : Bool := c.finalizers.contains releaseFinalizer

/-- `controllerutil.AddFinalizer`: appended unless it is there. -/
def addFinalizer (c : MicroVMClaim) (name : String) : MicroVMClaim :=
  if c.finalizers.contains name then c else { c with finalizers := c.finalizers ++ [name] }

/-- `controllerutil.RemoveFinalizer`: every occurrence goes. -/
def removeFinalizer (c : MicroVMClaim) (name : String) : MicroVMClaim :=
  { c with finalizers := c.finalizers.filter fun f => f ≠ name }

end MicroVMClaim

/-! ## 3. The status on the wire -/

namespace MicroVMClaimStatus

/-- The status as its JSON reads back. -/
def encode (st : MicroVMClaimStatus) : MicroVMClaimStatus :=
  { st with
    boundTime := st.boundTime.map truncSecond
    leaseExpiresAt := st.leaseExpiresAt.map truncSecond
    conditions := st.conditions.map fun c =>
      { c with lastTransitionTime := truncSecond c.lastTransitionTime } }

/-- The fields of `microVM` after a merge patch. -/
def mergeMicroVM (base desired stored : MicroVMReference) : MicroVMReference :=
  ⟨mergeField base.uid desired.uid stored.uid⟩

/-- The fields of `host` after a merge patch. -/
def mergeHost (base desired stored : HostReference) : HostReference :=
  ⟨mergeField base.nodeName desired.nodeName stored.nodeName,
   mergeField base.agentAddress desired.agentAddress stored.agentAddress⟩

/-- **What the API server stores** after a merge patch of the difference from `base` to `desired`
    of a status that is `stored` by then. -/
def merge (base desired stored : MicroVMClaimStatus) : MicroVMClaimStatus where
  phase := mergeField base.phase desired.phase stored.phase
  leaseID := mergeField base.leaseID desired.leaseID stored.leaseID
  microVM := mergeObject ⟨""⟩ mergeMicroVM base.microVM desired.microVM stored.microVM
  host := mergeObject ⟨"", ""⟩ mergeHost base.host desired.host stored.host
  boundTime := mergeField base.boundTime desired.boundTime stored.boundTime
  leaseExpiresAt := mergeField base.leaseExpiresAt desired.leaseExpiresAt stored.leaseExpiresAt
  observedRenewTime :=
    mergeField base.observedRenewTime desired.observedRenewTime stored.observedRenewTime
  conditions := mergeField base.conditions desired.conditions stored.conditions

end MicroVMClaimStatus

end BatteryOperator
