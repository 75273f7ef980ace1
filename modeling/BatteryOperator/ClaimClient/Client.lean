/-
  Subject:   The Client Library (pkg/claimclient/client.go and claim.go), and a request of the Exec
             Agent as far as its check goes (internal/execagent/server.go).

  A Consumer calls `Client.claim`, which creates a claim and its Secret, waits for the claim to
  bind, requests a token and then shares a `Claim` with its hold loop. `release` and `dial` are the
  Consumer's calls on that `Claim`; the fields under its mutex are read and set by operations.

  * A wait of `waitBound` is answered by its timer or by the end of the caller's context. The loop
    runs at most `polls` times here; the number is arbitrary, so every finite part of a run of the
    source's loop is a run of this one.
  * One round of the hold loop is one run of `holdRound`. Its timers are due at the times the
    `Claim` records.
  * Left out: the labels of a claim, the callback `OnPending`, and the connection `Dial` makes once
    it has an address.
-/
import BatteryOperator.ExecAgent.Auth
import BatteryOperator.Faults

namespace BatteryOperator.ClaimClient

open Lib ExecAgent Prog

/-! ## 1. Data -/

/-- `ExecAgentTokenAudience`. -/
def execAgentTokenAudience : String := "battery.liquidmetal-x.dev/exec-agent"

/-- `ExecSecretName`. -/
def execSecretName (claimName : String) : String := claimName ++ execSecretSuffix

/-- `ErrLeaseLost`. -/
def errLeaseLost : String := "the lease is lost"

/-- `ErrPoolExhausted`. -/
def errPoolExhausted : String := "the pool is exhausted"

/-- `ErrNoAgentAddress`. -/
def errNoAgentAddress : String := "the claim names no exec agent address"

/-- `ErrHostNotReady`. -/
def errHostNotReady : String := "the host is not ready"

/-- `defaultHeartbeatInterval`. -/
def defaultHeartbeatInterval : Duration := 10 * second

/-- `minTokenRefresh`. -/
def minTokenRefresh : Duration := second

/-- `Client`, with what it reads of its `Config`. -/
structure Client where
  namespace_ : String
  tokenExpiration : Duration
  deriving DecidableEq

/-- `Request`. -/
structure Request where
  pool : String
  serviceAccountName : String
  name : String
  generateName : String
  deriving DecidableEq

/-- `Pending`; without a Bound condition both texts are empty. -/
structure Pending where
  reason : String
  message : String
  deriving DecidableEq

/-- `Pending.PoolExhausted`. -/
def Pending.poolExhausted (p : Pending) : Bool := p.reason = reasonPoolExhausted

/-- A Secret, with its one owner reference. -/
structure Secret where
  namespace_ : String
  name : String
  uid : String
  ownerName : String
  ownerUID : String
  deriving DecidableEq

/-- **`Claim`.** The fields from `cancelled` on change while it is held; `lost` and `hostNotReady`
    say whether the channels of these names are closed. -/
structure Claim where
  client : Client
  name : String
  uid : String
  holder : String
  secret : ObjectKey
  secretID : String
  interval : Duration
  /-- The context has ended. -/
  cancelled : Bool
  /-- The hold loop has returned. -/
  done : Bool
  status : MicroVMClaimStatus
  token : String
  err : Option String
  lost : Bool
  hostErr : Option String
  hostNotReady : Bool
  /-- When the timers of the hold loop fire. -/
  renewDue : Time
  tokenDue : Time
  deriving DecidableEq

namespace Claim

variable (cl : Claim)

/-- The key of the claim's object. -/
def key : ObjectKey := ⟨cl.client.namespace_, cl.name⟩

/-- `AgentAddress`. -/
def agentAddress : String := (cl.status.host.map HostReference.agentAddress).getD ""

/-- `lose`, once. -/
def lose (why : String) : Claim :=
  match cl.err with
  | some _ => cl
  | none =>
    { cl with err := some (errLeaseLost ++ ": claim " ++ cl.name ++ " " ++ why), lost := true }

/-- `checkHost`, once. -/
def checkHost (conditions : List (Condition ClaimCondition)) : Claim :=
  match findStatusCondition conditions .hostReady with
  | none => cl
  | some cond =>
    if cond.status ≠ .false then cl
    else
      match cl.hostErr with
      | some _ => cl
      | none =>
        { cl with
          hostErr := some (errHostNotReady ++ ": claim " ++ cl.name ++ ": " ++ cond.reason ++
            ": " ++ cond.message)
          hostNotReady := true }

/-- `lose` touches nothing else. -/
theorem lose_cases (why : String) :
    cl.lose why = cl ∨ ∃ err, cl.lose why = { cl with err := some err, lost := true } := by
  unfold lose
  split
  · exact .inl rfl
  · exact .inr ⟨_, rfl⟩

/-- `checkHost` touches nothing else. -/
theorem checkHost_cases (conditions : List (Condition ClaimCondition)) :
    cl.checkHost conditions = cl ∨
      ∃ err, cl.checkHost conditions = { cl with hostErr := some err, hostNotReady := true } := by
  unfold checkHost
  split
  · exact .inl rfl
  · split
    · exact .inl rfl
    · split
      · exact .inl rfl
      · exact .inr ⟨_, rfl⟩

end Claim

/-- `newClaim`. -/
def newClaim (c : Client) (obj : MicroVMClaim) (secret : Secret) (interval : Duration) : Claim :=
  Claim.checkHost
    { client := c, name := obj.name, uid := obj.uid, holder := obj.spec.serviceAccountName
      secret := ⟨secret.namespace_, secret.name⟩, secretID := secret.uid, interval := interval
      cancelled := false, done := false, status := obj.status, token := "", err := none
      lost := false, hostErr := none, hostNotReady := false, renewDue := 0, tokenDue := 0 }
    obj.status.conditions

/-! ## 2. Operations -/

/-- What wakes the hold loop. -/
inductive Wake where
  | released
  | renew
  | token
  deriving DecidableEq

/-- What the library and the agent do outside a call's own memory. -/
inductive ClientOp where
  | createClaim (ns name generateName pool serviceAccountName : String)
  /-- The Secret of a claim, owned by the claim of this uid. -/
  | createSecret (ns claim uid : String)
  | getClaim (key : ObjectKey)
  /-- The Pool's `spec.lease.heartbeatInterval`. -/
  | heartbeat (key : ObjectKey)
  /-- A merge patch of `spec.renewTime` that carries the uid. -/
  | patchRenew (key : ObjectKey) (uid : String) (renewTime : MicroTime)
  /-- A delete, with the uid as its precondition. -/
  | deleteClaim (key : ObjectKey) (uid : Option String)
  /-- A token of a ServiceAccount, bound to a Secret of its namespace. -/
  | tokenRequest (sa : ObjectKey) (audiences : List String) (expirationSeconds : Int)
      (secret : SecretClaim)
  | now
  /-- The wait between two polls; `some` is the error of a context that has ended. -/
  | poll
  /-- `go cl.hold(tokenWait)`: from here on the `Claim` is shared. -/
  | start (cl : Claim) (tokenWait : Duration)
  /-- A method is called on the shared `Claim`; answered with its constant fields. -/
  | enter (uid : String)
  /-- The hold loop's select. -/
  | select (uid : String)
  /-- The hold loop returns. -/
  | closeDone (uid : String)
  | resetRenew (uid : String)
  | resetToken (uid : String) (wait : Duration)
  | cancel (uid : String)
  | awaitDone (uid : String)
  | err (uid : String)
  | agentAddress (uid : String)
  | lose (uid why : String)
  | record (uid : String) (status : MicroVMClaimStatus)
  | checkHost (uid : String) (conditions : List (Condition ClaimCondition))
  | setToken (uid token : String)
  | tokenReview (token : String) (audiences : List String)
  /-- The agent's read of a claim. -/
  | lookup (key : ObjectKey)
  /-- A request ends: it is run with a token bound to this Secret, on this MicroVM, or refused. -/
  | finish (granted : Option (BoundSecret × String))

abbrev ClientOp.Ans : ClientOp → Type
  | .createClaim _ _ _ _ _ => Except ApiError MicroVMClaim
  | .createSecret _ _ _ => Except ApiError Secret
  | .getClaim _ => Except ApiError MicroVMClaim
  | .heartbeat _ => Except ApiError (Option Duration)
  | .patchRenew _ _ _ => Except ApiError MicroVMClaim
  | .deleteClaim _ _ => Except ApiError Unit
  | .tokenRequest _ _ _ _ => Except ApiError (String × Option Time)
  | .now => Time
  | .poll => Option String
  | .start _ _ => Unit
  | .enter _ => Claim
  | .select _ => Wake
  | .closeDone _ => Unit
  | .resetRenew _ => Unit
  | .resetToken _ _ => Unit
  | .cancel _ => Unit
  | .awaitDone _ => Unit
  | .err _ => Option String
  | .agentAddress _ => String
  | .lose _ _ => Unit
  | .record _ _ => Unit
  | .checkHost _ _ => Unit
  | .setToken _ _ => Unit
  | .tokenReview _ _ => Except String TokenReviewStatus
  | .lookup _ => Except ApiError MicroVMClaim
  | .finish _ => Unit

/-- Programs of the library and of the agent. -/
abbrev ClientCode := Prog ClientOp ClientOp.Ans

/-- The code that asks for one operation. -/
def clientAsk (o : ClientOp) : ClientCode o.Ans := Prog.call o

/-! ## 3. A token -/

/-- The request of `refreshToken`: a token, and how long to wait before the next one. -/
def Claim.requestToken (cl : Claim) : ClientCode (Except String (String × Duration)) := do
  let now ← clientAsk .now
  match ← clientAsk (.tokenRequest ⟨cl.secret.namespace_, cl.holder⟩ [execAgentTokenAudience]
      (Int.tdiv cl.client.tokenExpiration second) ⟨cl.secret.name, cl.secretID⟩) with
  | .error e =>
    pure (.error ("requesting a token of claim " ++ cl.name ++ " for " ++ cl.holder ++ ": " ++
      e.text))
  | .ok (token, expiration) =>
    if token = "" then pure (.error "the API server returned an empty claim token")
    else
      let expires := expiration.getD (now + cl.client.tokenExpiration)
      pure (.ok (token, max (Int.tdiv ((expires - now) * 2) 3) minTokenRefresh))

/-! ## 4. Claiming -/

namespace Client

variable (c : Client)

/-- `pendingOf`. -/
def pendingOf (obj : MicroVMClaim) : Pending :=
  match findStatusCondition obj.status.conditions .bound with
  | none => ⟨"", ""⟩
  | some cond => ⟨cond.reason, cond.message⟩

/-- The last reason reported, after one more read. -/
def lastPending (last : Option Pending) (obj : MicroVMClaim) : Option Pending :=
  if pendingOf obj = ⟨"", ""⟩ then last else some (pendingOf obj)

/-- The end of a wait that the caller gave up. -/
def didNotBind (name : String) (last : Option Pending) (err : String) : String :=
  if last.any Pending.poolExhausted then
    "claim " ++ name ++ " did not bind: " ++ errPoolExhausted ++ ": " ++ err
  else "claim " ++ name ++ " did not bind: " ++ err

/-- What one read of `waitBound` says: the wait ends, or it goes on. -/
def seen (name uid : String) (last : Option Pending) :
    Except ApiError MicroVMClaim → Except (Except String MicroVMClaim) (Option Pending)
  | .error e =>
    if e.isNotFound then
      .error (.error (errLeaseLost ++ ": claim " ++ name ++ " was deleted before it was bound"))
    else .ok last
  | .ok obj =>
    if obj.uid ≠ uid then
      .error (.error (errLeaseLost ++ ": claim " ++ name ++ " was deleted before it was bound"))
    else if obj.deleting then
      .error (.error (errLeaseLost ++ ": claim " ++ name ++
        " is being deleted before it was bound"))
    else if obj.status.phase = .expired then
      .error (.error (errLeaseLost ++ ": claim " ++ name ++ " is Expired"))
    else if obj.status.phase = .bound then .error (.ok obj)
    else .ok (lastPending last obj)

/-- `waitBound`. A read that failed is tried again. -/
def waitBound (name uid : String) :
    Nat → Option Pending → ClientCode (Except String MicroVMClaim)
  | 0, last => pure (.error (didNotBind name last "context deadline exceeded"))
  | polls + 1, last => do
      let r ← clientAsk (.getClaim ⟨c.namespace_, name⟩)
      match seen name uid last r with
      | .error result => pure result
      | .ok last => do
          match ← clientAsk .poll with
          | some err => pure (.error (didNotBind name last err))
          | none => waitBound name uid polls last

/-- `heartbeatInterval`. -/
def heartbeatInterval (pool : String) : ClientCode (Except String Duration) := do
  match ← clientAsk (.heartbeat ⟨c.namespace_, pool⟩) with
  | .error e =>
    pure (.error ("reading the heartbeat interval of pool " ++ pool ++ ": " ++ e.text))
  | .ok none => pure (.ok defaultHeartbeatInterval)
  | .ok (some d) => pure (.ok (if 0 < d then d else defaultHeartbeatInterval))

/-- The end of `bind`: the first token, and the hold loop. -/
def hold (cl : Claim) : ClientCode (Except String Unit) := do
  match ← cl.requestToken with
  | .error err => pure (.error err)
  | .ok (token, wait) => do
      clientAsk (.start { cl with token := token } wait)
      pure (.ok ())

/-- `bind`, once the claim has its Secret. -/
def bindSecret (obj : MicroVMClaim) (req : Request) (polls : Nat) (secret : Secret) :
    ClientCode (Except String Unit) := do
  if secret.uid = "" then
    pure (.error ("the API server gave Secret " ++ secret.name ++ " no uid"))
  else
    match ← c.waitBound obj.name obj.uid polls none with
    | .error err => pure (.error err)
    | .ok bound =>
      match ← c.heartbeatInterval req.pool with
      | .error err => pure (.error err)
      | .ok interval => hold (newClaim c bound secret interval)

/-- `bind`. -/
def bind (obj : MicroVMClaim) (req : Request) (polls : Nat) : ClientCode (Except String Unit) := do
  if obj.uid = "" then pure (.error ("the API server gave claim " ++ obj.name ++ " no uid"))
  else
    match ← clientAsk (.createSecret obj.namespace_ obj.name obj.uid) with
    | .error e => pure (.error ("creating the Secret of claim " ++ obj.name ++ ": " ++ e.text))
    | .ok secret => c.bindSecret obj req polls secret

/-- `deleteClaim`. -/
def deleteClaim (name uid : String) : ClientCode (Option String) := do
  if name = "" then pure none
  else
    match ← clientAsk (.deleteClaim ⟨c.namespace_, name⟩ (if uid = "" then none else some uid)) with
    | .ok _ => pure none
    | .error e =>
      pure (if e.isNotFound then none else some ("deleting claim " ++ name ++ ": " ++ e.text))

/-- `Claim`, over the claim created. -/
def bindOrDelete (obj : MicroVMClaim) (req : Request) (polls : Nat) :
    ClientCode (Except String Unit) := do
  match ← c.bind obj req polls with
  | .ok _ => pure (.ok ())
  | .error err =>
    match ← c.deleteClaim obj.name obj.uid with
    | none => pure (.error err)
    | some derr => pure (.error (err ++ "\n" ++ derr))

/-- **`Client.Claim`.** -/
def claim (req : Request) (polls : Nat) : ClientCode (Except String Unit) := do
  if req.pool = "" ∨ req.serviceAccountName = "" then
    pure (.error "claimclient: Request.Pool and Request.ServiceAccountName are required")
  else
    let generateName :=
      if req.name = "" ∧ req.generateName = "" then req.pool ++ "-" else req.generateName
    match ← clientAsk
        (.createClaim c.namespace_ req.name generateName req.pool req.serviceAccountName) with
    | .error e => pure (.error ("creating a claim on pool " ++ req.pool ++ ": " ++ e.text))
    | .ok obj => c.bindOrDelete obj req polls

end Client

/-! ## 5. Holding, using and releasing -/

namespace Claim

/-- `observe`: what a read of the claim's object does to the `Claim`. -/
def observe (cl : Claim) (obj : MicroVMClaim) : ClientCode Unit := do
  if obj.uid ≠ cl.uid then clientAsk (.lose cl.uid "was deleted and replaced")
  else if obj.deleting then clientAsk (.lose cl.uid "is being deleted")
  else if obj.status.phase = .expired then clientAsk (.lose cl.uid "is Expired")
  else do
    clientAsk (.record cl.uid obj.status)
    clientAsk (.checkHost cl.uid obj.status.conditions)

/-- The second read of `renew`, after a patch that was refused. -/
def findOut (cl : Claim) : ClientCode Unit := do
  match ← clientAsk (.getClaim cl.key) with
  | .error e => if e.isNotFound then clientAsk (.lose cl.uid "was deleted") else pure ()
  | .ok cur => cl.observe cur

/-- What `renew` makes of the answer to its patch. -/
def renewed (cl : Claim) : Except ApiError MicroVMClaim → ClientCode Unit
  | .ok obj => cl.observe obj
  | .error e =>
    if e.isNotFound then clientAsk (.lose cl.uid "was deleted")
    else if e.kind = .invalid ∨ e.kind = .conflict then cl.findOut
    else pure ()

/-- `renew`: whether the Lease has been lost. -/
def renew (cl : Claim) : ClientCode Bool := do
  let now ← clientAsk .now
  let r ← clientAsk (.patchRenew cl.key cl.uid (now / 1000))
  cl.renewed r
  let err ← clientAsk (.err cl.uid)
  pure err.isSome

/-- The token branch of `hold`. -/
def refresh (cl : Claim) : ClientCode Unit := do
  match ← cl.requestToken with
  | .error _ => clientAsk (.resetToken cl.uid cl.interval)
  | .ok (token, wait) => do
      clientAsk (.setToken cl.uid token)
      clientAsk (.resetToken cl.uid wait)

/-- The renew branch of `hold`. -/
def heartbeat (cl : Claim) : ClientCode Unit := do
  if ← cl.renew then clientAsk (.closeDone cl.uid) else clientAsk (.resetRenew cl.uid)

/-- **One round of `hold`**, of the `Claim` of this uid. -/
def holdRound (uid : String) : ClientCode Unit := do
  let cl ← clientAsk (.enter uid)
  match ← clientAsk (.select uid) with
  | .released => clientAsk (.closeDone uid)
  | .renew => cl.heartbeat
  | .token => cl.refresh

/-- **`Release`.** -/
def release (uid : String) : ClientCode (Option String) := do
  let cl ← clientAsk (.enter uid)
  clientAsk (.cancel uid)
  clientAsk (.awaitDone uid)
  match ← clientAsk (.deleteClaim cl.key (some cl.uid)) with
  | .ok _ => pure none
  | .error e =>
    pure (if e.isNotFound then none else some ("releasing claim " ++ cl.name ++ ": " ++ e.text))

/-- The address `Dial` connects to. -/
def dialAddress (cl : Claim) (addr : String) : Except String String :=
  if addr = "" then .error (errNoAgentAddress ++ ": claim " ++ cl.name) else .ok addr

/-- The end of `Dial`'s read: `Err`, then the address again. -/
def dialAgain (cl : Claim) : ClientCode (Except String String) := do
  match ← clientAsk (.err cl.uid) with
  | some err => pure (.error err)
  | none => do
      let addr ← clientAsk (.agentAddress cl.uid)
      pure (cl.dialAddress addr)

/-- `Dial`, while the address is not known: the claim is read again. -/
def dialRead (cl : Claim) : ClientCode (Except String String) := do
  match ← clientAsk (.getClaim cl.key) with
  | .error e =>
    if e.isNotFound then do
      clientAsk (.lose cl.uid "was deleted")
      cl.dialAgain
    else pure (.error ("reading claim " ++ cl.name ++ ": " ++ e.text))
  | .ok obj => do
      cl.observe obj
      cl.dialAgain

/-- **`Dial`**, up to the connection: the address it connects to. -/
def dial (uid : String) : ClientCode (Except String String) := do
  let cl ← clientAsk (.enter uid)
  match ← clientAsk (.err uid) with
  | some err => pure (.error err)
  | none => do
      let addr ← clientAsk (.agentAddress uid)
      if addr = "" then cl.dialRead else pure (.ok addr)

end Claim

/-! ## 6. A request -/

/-- `server.authorize`, as far as its decision goes. -/
def authorizeRequest (a : Agent) (caller : Caller) (vmUID : String) :
    ClientCode (Except AuthError Unit) := do
  let now ← clientAsk .now
  a.authorizeClaim (fun key => clientAsk (.lookup key)) caller vmUID now

/-- **A request**: it is authenticated when it starts, and authorized once it names its MicroVM. -/
def serveRequest (payload : Payload) (a : Agent)
    (values : List String) (vmUID : String) : ClientCode Unit := do
  let review := fun token audiences => clientAsk (.tokenReview token audiences)
  match ← authenticate payload a.audiences review values with
  | .error _ => clientAsk (.finish none)
  | .ok caller =>
    match ← authorizeRequest a caller vmUID with
    | .error _ => clientAsk (.finish none)
    | .ok _ => clientAsk (.finish (caller.boundSecret.map fun b => (b, vmUID)))

/-! ## 7. What two of the programs ask for -/

/-- Requests that change neither a claim nor a shared `Claim`. -/
def Inquiry : ClientOp → Prop
  | .now => True
  | .tokenRequest _ _ _ _ => True
  | .heartbeat _ => True
  | _ => False

theorem only_requestToken (cl : Claim) : cl.requestToken.Only Inquiry := by
  refine only_bind ((only_call _).mpr trivial) fun now => ?_
  refine only_bind ((only_call _).mpr trivial) fun r => ?_
  cases r with
  | error e => exact only_pure _
  | ok answer =>
    obtain ⟨token, expiration⟩ := answer
    simp only
    split <;> exact only_pure _

theorem only_heartbeatInterval (c : Client) (pool : String) :
    (c.heartbeatInterval pool).Only Inquiry := by
  refine only_bind ((only_call _).mpr trivial) fun r => ?_
  cases r with
  | error e => exact only_pure _
  | ok d =>
    cases d with
    | none | some => exact only_pure _

end BatteryOperator.ClaimClient
