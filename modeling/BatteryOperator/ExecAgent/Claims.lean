/-
  Subject:   Which claim lets a caller use a MicroVM (internal/execagent/claims.go, the callers of
             internal/execagent/auth.go and `KubeClaims.Claim` of kubeclaims.go).

  * `authorize` -- `Authorize`, with **the conditions it grants on** (`authorize_ok_iff`);
  * `authorizeClaim` -- the claim the caller's token names, read afresh; it grants only what
    `authorize` grants on that claim (`authorizeClaim_ok_iff`).
-/
import BatteryOperator.Claim.Scope
import BatteryOperator.Text

namespace BatteryOperator.ExecAgent

/-! ## 1. What the agent reads -/

/-- `Claim`: what the agent reads of a `MicroVMClaim`. -/
structure Claim where
  namespace_ : String
  name : String
  serviceAccountName : String
  phase : MicroVMClaimPhase
  vmUID : String
  hostNode : String
  expiresAt : Time
  deriving DecidableEq

/-- `Claim.String`. -/
def Claim.string (c : Claim) : String := c.namespace_ ++ "/" ++ c.name

/-- `claimOf`: a fact the claim does not record is left zero. -/
def claimOf (o : MicroVMClaim) : Claim where
  namespace_ := o.namespace_
  name := o.name
  serviceAccountName := o.spec.serviceAccountName
  phase := o.status.phase
  vmUID := (o.status.microVM.map MicroVMReference.uid).getD ""
  hostNode := (o.status.host.map HostReference.nodeName).getD ""
  expiresAt := o.status.leaseExpiresAt.getD zeroTime

/-- `ClaimLookup.Claim`: no claim of that name is no error. -/
abbrev ClaimLookup := String → String → Except String (Option Claim)

/-- `KubeClaims.Claim`, over a read from the API server. -/
def kubeClaim (get : ObjectKey → Except ApiError MicroVMClaim) : ClaimLookup := fun ns name =>
  match get ⟨ns, name⟩ with
  | .ok o => .ok (some (claimOf o))
  | .error e =>
    if e.isNotFound then .ok none
    else .error ("reading claim " ++ ns ++ "/" ++ name ++ ": " ++ e.text)

/-- `BoundSecret`: the Secret a token is bound to. -/
structure BoundSecret where
  namespace_ : String
  name : String
  uid : String
  deriving DecidableEq

/-- `Caller`: who a request authenticated as. -/
structure Caller where
  user : String
  boundSecret : Option BoundSecret
  deriving DecidableEq

/-! ## 2. The decision -/

/-- Why a request is refused: an error that wraps `errNotAuthorized`, or a `lookupError`. -/
inductive AuthError where
  | notAuthorized (why : String)
  | lookup (err : String)
  deriving DecidableEq

/-- `Error`. -/
def AuthError.text : AuthError → String
  | .notAuthorized why =>
    why ++ ": the caller holds no Bound claim on this microvm on this host"
  | .lookup err => "looking up the claim: " ++ err

/-- One condition under which a request is refused. -/
def refuseIf (p : Prop) [Decidable p] (why : String) : Except AuthError Unit :=
  if p then .error (.notAuthorized why) else .ok ()

@[simp] theorem refuseIf_ok_iff {p : Prop} [Decidable p] {why : String} :
    refuseIf p why = .ok () ↔ ¬ p := by
  unfold refuseIf
  split <;> simp_all

@[simp] theorem refuseIf_bind_ok_iff {p : Prop} [Decidable p] {why : String}
    {k : Unit → Except AuthError Unit} :
    (refuseIf p why >>= k) = .ok () ↔ ¬ p ∧ k () = .ok () := by
  unfold refuseIf
  split
  next hp => exact ⟨fun h => (by cases h), fun h => absurd hp h.1⟩
  next hp => exact ⟨fun h => ⟨hp, h⟩, fun h => h.2⟩

/-- `serviceAccountUser`: the user name of a ServiceAccount's tokens. -/
def serviceAccountUser (ns name : String) : String := "system:serviceaccount:" ++ ns ++ ":" ++ name

/-- **`Authorize`**: whether the claim lets the caller use the MicroVM on the Host at `now`. -/
def authorize (c : Claim) (caller : Caller) (vmUID hostNode : String) (now : Time) :
    Except AuthError Unit := do
  refuseIf (c.serviceAccountName = "") ("claim " ++ c.string ++ " names no holder")
  let holder := serviceAccountUser c.namespace_ c.serviceAccountName
  refuseIf (caller.user ≠ holder)
    ("claim " ++ c.string ++ " is held by " ++ quote holder ++ ", not " ++ quote caller.user)
  match caller.boundSecret with
  | none =>
    .error (.notAuthorized
      ("the token is bound to no Secret, so not to claim " ++ c.string ++ "'s"))
  | some s =>
    refuseIf (s.namespace_ ≠ c.namespace_ ∨ s.name ≠ c.name ++ execSecretSuffix)
      ("the token is bound to Secret " ++ s.namespace_ ++ "/" ++ s.name ++ ", not to claim " ++
        c.string ++ "'s " ++ c.name ++ execSecretSuffix)
    refuseIf (s.uid = "")
      ("the token names no uid for Secret " ++ s.namespace_ ++ "/" ++ s.name)
    refuseIf (c.phase ≠ .bound)
      ("claim " ++ c.string ++ " is " ++ quote c.phase.text ++ ", not Bound")
    refuseIf (c.expiresAt = zeroTime) ("claim " ++ c.string ++ " records no lease expiry")
    refuseIf (¬ now < c.expiresAt)
      ("claim " ++ c.string ++ " expired at " ++ rfc3339 c.expiresAt)
    refuseIf (c.vmUID = "" ∨ c.vmUID ≠ vmUID)
      ("claim " ++ c.string ++ " names microvm " ++ quote c.vmUID ++ ", not " ++ quote vmUID)
    refuseIf (c.hostNode = "" ∨ c.hostNode ≠ hostNode)
      ("claim " ++ c.string ++ " names host " ++ quote c.hostNode ++ ", not " ++ quote hostNode)

/-- **What `Authorize` grants on**: every condition is checked, and a claim that says nothing about
    one of them fails it. -/
theorem authorize_ok_iff {c : Claim} {caller : Caller} {vmUID hostNode : String} {now : Time} :
    authorize c caller vmUID hostNode now = .ok () ↔
      (c.serviceAccountName ≠ "" ∧
        caller.user = serviceAccountUser c.namespace_ c.serviceAccountName) ∧
      (∃ s, caller.boundSecret = some s ∧ s.namespace_ = c.namespace_ ∧
        s.name = c.name ++ execSecretSuffix ∧ s.uid ≠ "") ∧
      c.phase = .bound ∧ (c.expiresAt ≠ zeroTime ∧ now < c.expiresAt) ∧
      (vmUID ≠ "" ∧ c.vmUID = vmUID) ∧ hostNode ≠ "" ∧ c.hostNode = hostNode := by
  unfold authorize
  -- the name of the claim is the name of the one asked for exactly if it is not empty
  have named : ∀ a b : String, ¬ (a = "" ∨ a ≠ b) ↔ b ≠ "" ∧ a = b := by
    intro a b
    constructor
    · intro h
      have hab : a = b := Classical.byContradiction fun hne => h (.inr hne)
      exact ⟨fun hb => h (.inl (hab.trans hb)), hab⟩
    · intro hbound hother
      obtain ⟨hb, rfl⟩ := hbound
      rcases hother with ha | hne
      · exact hb ha
      · exact hne rfl
  cases caller.boundSecret with
  | none => simp
  | some s =>
    simp only [refuseIf_bind_ok_iff, refuseIf_ok_iff, named, not_or, not_not, ne_eq,
      Option.some.injEq, exists_eq_left']
    tauto

/-- **`authorizeClaim`**: the claim that the caller's token names is read afresh and decides. -/
def authorizeClaim (claims : ClaimLookup) (caller : Caller) (vmUID hostNode : String)
    (now : Time) : Except AuthError Unit :=
  if vmUID = "" then .error (.notAuthorized "the request names no microvm")
  else
    match caller.boundSecret with
    | none =>
      .error (.notAuthorized ("the token of " ++ caller.user ++
        " is bound to no Secret, so to no claim's"))
    | some s =>
      match cutSuffix s.name execSecretSuffix with
      | none => notClaims s
      | some name =>
        if name = "" then notClaims s
        else
          match claims s.namespace_ name with
          | .error err => .error (.lookup err)
          | .ok none =>
            .error (.notAuthorized ("the token is bound to Secret " ++ s.namespace_ ++ "/" ++
              s.name ++ ", but claim " ++ s.namespace_ ++ "/" ++ name ++ " does not exist"))
          | .ok (some c) => authorize c caller vmUID hostNode now
where
  /-- The token's Secret is no claim's. -/
  notClaims (s : BoundSecret) : Except AuthError Unit :=
    .error (.notAuthorized ("the token is bound to Secret " ++ s.namespace_ ++ "/" ++ s.name ++
      ", which is no claim's"))

/-- **What `authorizeClaim` grants on**: the claim of the token's Secret exists and `Authorize`
    grants on it. -/
theorem authorizeClaim_ok_iff {claims : ClaimLookup} {caller : Caller} {vmUID hostNode : String}
    {now : Time} :
    authorizeClaim claims caller vmUID hostNode now = .ok () ↔
      ∃ s name c, caller.boundSecret = some s ∧ s.name = name ++ execSecretSuffix ∧ name ≠ "" ∧
        claims s.namespace_ name = .ok (some c) ∧
        authorize c caller vmUID hostNode now = .ok () := by
  constructor
  · intro h
    unfold authorizeClaim at h
    split at h
    · cases h
    · split at h
      · cases h
      next s hs =>
        split at h
        · cases h
        next name hname =>
          split at h
          · cases h
          next hne =>
            split at h
            · cases h
            · cases h
            next c hc => exact ⟨s, name, c, hs, cutSuffix_eq_some.mp hname, hne, hc, h⟩
  · intro hallowed
    obtain ⟨s, name, c, hs, hname, hne, hc, h⟩ := hallowed
    have hvm : vmUID ≠ "" := (authorize_ok_iff.mp h).2.2.2.2.1.1
    unfold authorizeClaim
    rw [if_neg hvm, hs]
    simp only [cutSuffix_eq_some.mpr hname, if_neg hne, hc]
    exact h

/-! ## 3. The lookup -/

/-- The claim `authorizeClaim` looks up. -/
def lookupKey (caller : Caller) (vmUID : String) : Option ObjectKey :=
  if vmUID = "" then none
  else
    match caller.boundSecret with
    | none => none
    | some s =>
      match cutSuffix s.name execSecretSuffix with
      | none => none
      | some name => if name = "" then none else some ⟨s.namespace_, name⟩

/-- The lookup of `authorizeClaim` is the one `lookupKey` names: nothing else of the claims
    decides. -/
theorem authorizeClaim_lookup (claims : ClaimLookup) (caller : Caller) (vmUID hostNode : String)
    (now : Time) :
    authorizeClaim claims caller vmUID hostNode now =
      authorizeClaim (fun _ _ => match lookupKey caller vmUID with
        | none => .ok none
        | some key => claims key.namespace_ key.name) caller vmUID hostNode now := by
  unfold authorizeClaim lookupKey
  split
  · rfl
  · cases hs : caller.boundSecret with
    | none => rfl
    | some s =>
      simp only
      cases hn : cutSuffix s.name execSecretSuffix with
      | none => rfl
      | some name =>
        simp only
        split <;> rfl

/-- The Exec Agent of one Host: `server`, as far as it decides on a request. -/
structure Agent where
  hostNode : String
  audiences : List String
  deriving DecidableEq

/-- `authorizeClaim`, with the lookup that is made in any monad: it reads at most one claim
    (`authorizeClaim_lookup`). -/
def Agent.authorizeClaim {m : Type → Type} [Monad m] (a : Agent)
    (lookup : ObjectKey → m (Except ApiError MicroVMClaim)) (caller : Caller) (vmUID : String)
    (now : Time) : m (Except AuthError Unit) :=
  match lookupKey caller vmUID with
  | none => pure (ExecAgent.authorizeClaim (fun _ _ => .ok none) caller vmUID a.hostNode now)
  | some key => do
      let r ← lookup key
      pure (ExecAgent.authorizeClaim (kubeClaim fun _ => r) caller vmUID a.hostNode now)

end BatteryOperator.ExecAgent
