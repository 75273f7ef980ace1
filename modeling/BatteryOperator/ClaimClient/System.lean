/-
  Subject:   The world around the Client Library and the Exec Agent: claims, Secrets and tokens in
             the API server, any number of callers, and everybody else.

  * Every method call of a Consumer, every hold loop and every request is a thread. A `Claim` is
    shared under the uid of its object, which only the call that created the object can share.
  * Others create, change and delete claims as they like, remove Secrets (the garbage collector is
    one of them) and request tokens. Only the library creates the Secrets of claims.
  * A TokenReview authenticates an issued token exactly while the Secret it is bound to is stored
    under its name with its uid.
  * The fields after `held` are history. No program reads them.
-/
import BatteryOperator.ClaimClient.Client

namespace BatteryOperator.ClaimClient

open Lib ExecAgent

/-! ## 1. State -/

/-- The threads: calls of a Consumer, hold loops and requests. A call's number tells it from the
    others like it. -/
inductive Thread where
  | claim (n : Nat) (c : Client) (req : Request) (polls : Nat)
  | hold (uid : String)
  | release (n : Nat) (uid : String)
  | dial (n : Nat) (uid : String)
  | serve (n : Nat) (agent : Agent) (values : List String) (vmUID : String)
  deriving DecidableEq

/-- The thread is a request, of the Exec Agent's process. -/
def Thread.isRequest : Thread → Bool
  | serve _ _ _ _ => true
  | _ => false

/-- A token the API server issued. -/
structure IssuedToken where
  text : String
  audiences : List String
  claims : ServiceAccountClaims
  deriving DecidableEq

/-- A request that was run: the Secret its token is bound to, the claim it was granted on and the
    MicroVM it named. -/
structure Accepted where
  secret : BoundSecret
  claim : Option MicroVMClaim
  vmUID : String
  deriving DecidableEq

/-- The API server's objects, the `Claim`s that are shared, and the history. -/
structure State where
  now : Time
  claims : ObjectKey → Option MicroVMClaim
  secrets : ObjectKey → Option Secret
  /-- The Pools' heartbeat intervals. -/
  pools : ObjectKey → Option (Option Duration)
  issued : List IssuedToken
  held : String → Option Claim
  /-- Every uid given out. -/
  uids : List String
  /-- The call of the library that created a claim of this uid, and where. -/
  made : String → Option (Thread × ObjectKey)
  /-- The uids of claims that someone else deleted or marked for deletion. -/
  taken : List String
  /-- The uids of claims that the library deleted or marked for deletion. -/
  released : List String
  /-- The uids of claims that were Expired. -/
  expired : List String
  /-- The uid of every Secret, with the uid of the claim it was made for. -/
  anchors : List (String × String)
  /-- Requests between their TokenReview and their claim lookup. -/
  reviewed : List (Thread × BoundSecret)
  /-- What a request's lookup read. -/
  looked : Thread → Option MicroVMClaim
  accepted : List Accepted

/-- A cluster with nothing in it. -/
def State.initial (now : Time) (pools : ObjectKey → Option (Option Duration)) : State where
  now := now
  claims := fun _ => none
  secrets := fun _ => none
  pools := pools
  issued := []
  held := fun _ => none
  uids := []
  made := fun _ => none
  taken := []
  released := []
  expired := []
  anchors := []
  reviewed := []
  looked := fun _ => none
  accepted := []

/-- What an operation leaves open: whether the call fails, what the API server generates, which of
    the ready channels a select takes, and how the context of a wait ended. -/
structure Choice where
  fault : ApiFault := .none
  name : String := ""
  uid : String := ""
  text : String := ""
  expires : Option Time := none
  wake : Wake := .released
  invalid : Bool := false
  deriving DecidableEq

/-! ## 2. The API server -/

namespace State

variable (s : State)

def missing (what name : String) : ApiError := ⟨.notFound, what ++ " \"" ++ name ++ "\" not found"⟩

def exists_ (what name : String) : ApiError :=
  ⟨.alreadyExists, what ++ " \"" ++ name ++ "\" already exists"⟩

def setClaim (key : ObjectKey) (c : Option MicroVMClaim) : State :=
  { s with claims := Function.update s.claims key c }

def setHeld (uid : String) (cl : Claim) : State :=
  { s with held := Function.update s.held uid (some cl) }

def getClaim (key : ObjectKey) : Except ApiError MicroVMClaim :=
  match s.claims key with
  | some c => .ok c
  | none => .error (missing "microvmclaims" key.name)

/-- A new claim object. -/
def newObject (key : ObjectKey) (uid : String) (spec : MicroVMClaimSpec) : MicroVMClaim where
  namespace_ := key.namespace_
  name := key.name
  uid := uid
  resourceVersion := 1
  generation := 1
  deletionTimestamp := none
  finalizers := []
  spec := spec
  status := {}

/-- The state with a new claim object in it. -/
def addClaim (key : ObjectKey) (uid : String) (spec : MicroVMClaimSpec) : State :=
  { s.setClaim key (some (newObject key uid spec)) with uids := uid :: s.uids }

def createClaim (t : Thread) (key : ObjectKey) (uid : String) (spec : MicroVMClaimSpec) :
    Except ApiError MicroVMClaim × State :=
  match s.claims key with
  | some _ => (.error (exists_ "microvmclaims" key.name), s)
  | none =>
    (.ok (newObject key uid spec),
      { s.addClaim key uid spec with made := Function.update s.made uid (some (t, key)) })

def createSecret (ns claim owner uid : String) : Except ApiError Secret × State :=
  match s.secrets ⟨ns, execSecretName claim⟩ with
  | some _ => (.error (exists_ "secrets" (execSecretName claim)), s)
  | none =>
    let secret : Secret := ⟨ns, execSecretName claim, uid, claim, owner⟩
    (.ok secret,
      { s with
        secrets := Function.update s.secrets ⟨ns, execSecretName claim⟩ (some secret)
        uids := uid :: s.uids
        anchors := (uid, owner) :: s.anchors })

/-- A delete of the object `c` at `key`: it goes, or it is marked while it has a finalizer. -/
def remove (key : ObjectKey) (c : MicroVMClaim) : State :=
  if c.finalizers = [] then s.setClaim key none
  else if c.deleting then s
  else s.setClaim key (some { c with deletionTimestamp := some s.now })

/-- A delete by the library. -/
def deleteClaim (key : ObjectKey) (uid : Option String) : Except ApiError Unit × State :=
  match s.claims key with
  | none => (.error (missing "microvmclaims" key.name), s)
  | some c =>
    if uid.all (fun u => u = c.uid) then
      (.ok (), { s.remove key c with released := c.uid :: s.released })
    else (.error ⟨.conflict, "Precondition failed: UID in precondition"⟩, s)

/-- A patch of `spec.renewTime`. One that carries another uid is refused as invalid or as a
    conflict. -/
def patchRenew (key : ObjectKey) (uid : String) (renewTime : MicroTime) (invalid : Bool) :
    Except ApiError MicroVMClaim × State :=
  match s.claims key with
  | none => (.error (missing "microvmclaims" key.name), s)
  | some c =>
    if uid = c.uid then
      let c' := { c with
        spec := { c.spec with renewTime := some renewTime }
        resourceVersion := c.resourceVersion + 1, generation := c.generation + 1 }
      (.ok c', s.setClaim key (some c'))
    else
      (.error ⟨if invalid then .invalid else .conflict, "metadata.uid: field is immutable"⟩, s)

/-- A Secret of this name and uid is stored. -/
def hasSecret (ns : String) (secret : SecretClaim) : Bool :=
  (s.secrets ⟨ns, secret.name⟩).any fun x => x.uid = secret.uid

def issue (token : IssuedToken) : State := { s with issued := token :: s.issued }

def heartbeat (key : ObjectKey) : Except ApiError (Option Duration) :=
  match s.pools key with
  | some d => .ok d
  | none => .error (missing "pools" key.name)

/-- The state in which a token may be issued for this Secret, or for none. -/
def bindable (claims : ServiceAccountClaims) : Bool :=
  claims.secret.all (s.hasSecret claims.namespace_)

/-- The answer to a token that is not valid. -/
def invalidToken : TokenReviewStatus := ⟨false, ⟨"", []⟩, [], "invalid bearer token"⟩

/-- A TokenReview: an issued token is valid while the Secret it is bound to is stored. -/
def review (token : String) (audiences : List String) : TokenReviewStatus :=
  match s.issued.find? fun i => i.text = token with
  | none => invalidToken
  | some i =>
    if s.bindable i.claims then
      ⟨true, ⟨i.claims.subject, [(credentialIDExtra, ["JTI=" ++ i.claims.id])]⟩,
        audiences.filter (i.audiences.contains ·), ""⟩
    else invalidToken

/-- A request is past its TokenReview. -/
def markReviewed (t : Thread) (secret : Option BoundSecret) : State :=
  { s with
    reviewed := match secret with
      | some b => (t, b) :: s.reviewed.filter fun x => x.1 ≠ t
      | none => s.reviewed.filter fun x => x.1 ≠ t }

/-- A request has looked its claim up. -/
def markLooked (t : Thread) (c : Option MicroVMClaim) : State :=
  { s with
    looked := Function.update s.looked t c
    reviewed := s.reviewed.filter fun x => x.1 ≠ t }

/-- A request ends. -/
def finish (t : Thread) (granted : Option (BoundSecret × String)) : State :=
  { s with
    reviewed := s.reviewed.filter fun x => x.1 ≠ t
    accepted := match granted with
      | some (b, vmUID) => ⟨b, s.looked t, vmUID⟩ :: s.accepted
      | none => s.accepted }

end State

/-! ## 3. Steps -/

section Steps

variable (payload : Payload)

/-- A change of the shared `Claim` of this uid. -/
def onHeld (s : State) (uid : String) (change : Claim → Claim) : Option (Unit × State) :=
  (s.held uid).map fun cl => ((), s.setHeld uid (change cl))

/-- The hold loop's select. -/
def wake (s : State) (cl : Claim) : Wake → Option Wake
  | .released => if cl.done = false ∧ cl.cancelled = true then some .released else none
  | .renew => if cl.done = false ∧ cl.renewDue ≤ s.now then some .renew else none
  | .token => if cl.done = false ∧ cl.tokenDue ≤ s.now then some .token else none

/-- A uid the API server may give. -/
def State.fresh (s : State) (uid : String) : Bool := uid ≠ "" && !s.uids.contains uid

/-- The name of a claim created. -/
def createdName (name generateName suffix : String) : String :=
  if name = "" then generateName ++ suffix else name

/-- The claims of a token of a ServiceAccount that is bound to a Secret. -/
def requestedClaims (sa : ObjectKey) (id : String) (secret : SecretClaim) : ServiceAccountClaims :=
  ⟨serviceAccountUser sa.namespace_ sa.name, id, sa.namespace_, some secret⟩

/-- A TokenRequest: the token carries the claims it was issued with. -/
def requestToken (f : Choice) (sa : ObjectKey) (audiences : List String) (secret : SecretClaim)
    (s : State) : Option (Except ApiError (String × Option Time) × State) :=
  if s.hasSecret sa.namespace_ secret then
    if tokenClaims payload f.text = some (requestedClaims sa f.name secret) then
      some (f.fault.write (.ok (f.text, f.expires),
        s.issue ⟨f.text, audiences, requestedClaims sa f.name secret⟩) s)
    else none
  else some (.error (State.missing "secrets" secret.name), s)

/-- **One operation of a thread.** -/
def exec (t : Thread) (f : Choice) : (o : ClientOp) → State → Option (o.Ans × State)
  | .createClaim ns name generateName pool sa, s =>
    if s.fresh f.uid then
      some (f.fault.write (s.createClaim t ⟨ns, createdName name generateName f.name⟩ f.uid
        ⟨pool, none, sa⟩) s)
    else none
  | .createSecret ns claim owner, s =>
    if s.fresh f.uid then some (f.fault.write (s.createSecret ns claim owner f.uid) s) else none
  | .getClaim key, s => some (f.fault.read (s.getClaim key), s)
  | .heartbeat key, s => some (f.fault.read (s.heartbeat key), s)
  | .patchRenew key uid renewTime, s =>
    some (f.fault.write (s.patchRenew key uid renewTime f.invalid) s)
  | .deleteClaim key uid, s => some (f.fault.write (s.deleteClaim key uid) s)
  | .tokenRequest sa audiences _ secret, s => requestToken payload f sa audiences secret s
  | .now, s => some (s.now, s)
  | .poll, s => some (if f.text = "" then none else some f.text, s)
  | .start cl wait, s =>
    some ((), s.setHeld cl.uid
      { cl with renewDue := s.now + cl.interval, tokenDue := s.now + wait })
  | .enter uid, s => (s.held uid).map fun cl => (cl, s)
  | .select uid, s => (s.held uid).bind fun cl => (wake s cl f.wake).map fun w => (w, s)
  | .closeDone uid, s => onHeld s uid fun cl => { cl with done := true }
  | .resetRenew uid, s => onHeld s uid fun cl => { cl with renewDue := s.now + cl.interval }
  | .resetToken uid wait, s => onHeld s uid fun cl => { cl with tokenDue := s.now + wait }
  | .cancel uid, s => onHeld s uid fun cl => { cl with cancelled := true }
  | .awaitDone uid, s => (s.held uid).bind fun cl => if cl.done then some ((), s) else none
  | .err uid, s => (s.held uid).map fun cl => (cl.err, s)
  | .agentAddress uid, s => (s.held uid).map fun cl => (cl.agentAddress, s)
  | .lose uid why, s => onHeld s uid fun cl => cl.lose why
  | .record uid status, s => onHeld s uid fun cl => { cl with status := status }
  | .checkHost uid conditions, s => onHeld s uid fun cl => cl.checkHost conditions
  | .setToken uid token, s => onHeld s uid fun cl => { cl with token := token }
  | .tokenReview token audiences, s =>
    match f.fault with
    | .none =>
      let st := s.review token audiences
      some (.ok st, s.markReviewed t (if st.authenticated then
        boundSecret payload token st.user else none))
    | .failed _ text => some (.error text, s)
  | .lookup key, s => some (f.fault.read (s.getClaim key), s.markLooked t (s.claims key))
  | .finish granted, s => if t.isRequest then some ((), s.finish t granted) else none

/-- What everybody else does. -/
inductive ClientAct where
  | tick (nanoseconds : Nat)
  | createClaim (key : ObjectKey) (uid : String) (spec : MicroVMClaimSpec)
  | deleteClaim (key : ObjectKey)
  /-- A change of a claim that keeps its identity; without finalizers a marked one goes. -/
  | changeClaim (key : ObjectKey) (finalizers : List String) (spec : MicroVMClaimSpec)
      (status : MicroVMClaimStatus)
  | removeSecret (key : ObjectKey)
  | setPool (key : ObjectKey) (interval : Option (Option Duration))
  | issue (token : IssuedToken)

/-- The state after a claim was changed. -/
def State.changeClaim (s : State) (key : ObjectKey) (c : MicroVMClaim) (finalizers : List String)
    (spec : MicroVMClaimSpec) (status : MicroVMClaimStatus) : State :=
  if c.deleting ∧ finalizers = [] then s.setClaim key none
  else
    { s.setClaim key (some { c with
        finalizers := finalizers, spec := spec, status := status
        resourceVersion := c.resourceVersion + 1, generation := c.generation + 1 }) with
      expired := if status.phase = .expired then c.uid :: s.expired else s.expired }

/-- **One action of everybody else.** -/
def env : ClientAct → State → Option State
  | .tick n, s => some { s with now := s.now + n }
  | .createClaim key uid spec, s =>
    if s.fresh uid ∧ (s.claims key).isNone then some (s.addClaim key uid spec) else none
  | .deleteClaim key, s =>
    (s.claims key).map fun c => { s.remove key c with taken := c.uid :: s.taken }
  | .changeClaim key finalizers spec status, s =>
    (s.claims key).map fun c => s.changeClaim key c finalizers spec status
  | .removeSecret key, s => some { s with secrets := Function.update s.secrets key none }
  | .setPool key interval, s => some { s with pools := Function.update s.pools key interval }
  | .issue token, s =>
    if tokenClaims payload token.text = some token.claims ∧ s.bindable token.claims then
      some (s.issue token)
    else none

/-- The program of a thread. What it returns goes to the Consumer. -/
def prog : Thread → ClientCode Unit
  | .claim _ c req polls => do let _ ← c.claim req polls
  | .hold uid => Claim.holdRound uid
  | .release _ uid => do let _ ← Claim.release uid
  | .dial _ uid => do let _ ← Claim.dial uid
  | .serve _ a values vmUID => serveRequest payload a values vmUID

/-- **The machine.** A crash takes the shared `Claim`s with it, and the requests. -/
def machine : Machine Thread Choice ClientAct ClientOp ClientOp.Ans State where
  exec := exec payload
  env := env payload
  prog := prog payload
  crash s := { s with held := fun _ => none, reviewed := [], looked := fun _ => none }

end Steps

abbrev ClientWorld := World Thread ClientOp ClientOp.Ans State

/-- A world in which nothing has happened yet. -/
def start (now : Time) (pools : ObjectKey → Option (Option Duration)) : ClientWorld where
  shared := State.initial now pools
  running := fun _ => none

/-- **The worlds reached by steps that `ok` admits.** -/
def ReachableBy (payload : Payload)
    (ok : ClientWorld → Act Thread Choice ClientAct → Prop) (w : ClientWorld) : Prop :=
  ∃ now pools, (machine payload).Run ok (start now pools) w

/-! ## 4. What an operation does -/

theorem fresh_iff {s : State} {uid : String} : s.fresh uid = true ↔ uid ≠ "" ∧ uid ∉ s.uids := by
  simp [State.fresh]

/-- A change of a shared `Claim`: only the hold loop's return sets `done`, and only `lose` says that
    the claim is lost. -/
structure HeldChange (o : ClientOp) (u : String) (cl cl' : Claim) : Prop where
  uid : cl'.uid = cl.uid
  key : cl'.key = cl.key
  stays : cl.done = true → cl'.done = true
  done : o = .closeDone u ∨ cl'.done = cl.done
  lost : (∃ why, o = .lose u why) ∨ (cl'.lost = cl.lost ∧ cl'.err = cl.err)

/-- **Every change an operation makes**, with what it found. -/
inductive Effect (payload : Payload) (t : Thread) (f : Choice)
    (s : State) : ClientOp → State → Prop where
  | none (o : ClientOp) : Effect payload t f s o s
  | claimed (ns name generateName pool sa : String) (key : ObjectKey)
      (hkey : key = ⟨ns, createdName name generateName f.name⟩) (hfresh : f.uid ∉ s.uids)
      (hfree : s.claims key = Option.none) :
      Effect payload t f s (.createClaim ns name generateName pool sa)
        { s.addClaim key f.uid ⟨pool, Option.none, sa⟩ with
          made := Function.update s.made f.uid (some (t, key)) }
  | anchored (ns claim owner : String) (hfresh : f.uid ∉ s.uids) :
      Effect payload t f s (.createSecret ns claim owner)
        { s with
          secrets := Function.update s.secrets ⟨ns, execSecretName claim⟩
            (some ⟨ns, execSecretName claim, f.uid, claim, owner⟩)
          uids := f.uid :: s.uids
          anchors := (f.uid, owner) :: s.anchors }
  | renewed (key : ObjectKey) (uid : String) (renewTime : MicroTime) (c : MicroVMClaim)
      (hc : s.claims key = some c) :
      Effect payload t f s (.patchRenew key uid renewTime)
        (s.setClaim key (some { c with
          spec := { c.spec with renewTime := some renewTime }
          resourceVersion := c.resourceVersion + 1, generation := c.generation + 1 }))
  | deleted (key : ObjectKey) (uid : Option String) (c : MicroVMClaim)
      (hc : s.claims key = some c) (hu : ∀ u, uid = some u → u = c.uid) :
      Effect payload t f s (.deleteClaim key uid)
        { s.remove key c with released := c.uid :: s.released }
  | issued (sa : ObjectKey) (audiences : List String) (seconds : Int) (secret : SecretClaim)
      (token : IssuedToken) (htoken : tokenClaims payload token.text = some token.claims) :
      Effect payload t f s (.tokenRequest sa audiences seconds secret) (s.issue token)
  | started (cl : Claim) (wait : Duration) :
      Effect payload t f s (.start cl wait)
        (s.setHeld cl.uid { cl with renewDue := s.now + cl.interval, tokenDue := s.now + wait })
  | changed (o : ClientOp) (u : String) (cl cl' : Claim) (hcl : s.held u = some cl)
      (h : HeldChange o u cl cl') : Effect payload t f s o (s.setHeld u cl')
  | reviewed (token : String) (audiences : List String) (secret : Option BoundSecret)
      (h : ∀ b, secret = some b → (s.review token audiences).authenticated = true ∧
        boundSecret payload token (s.review token audiences).user = some b) :
      Effect payload t f s (.tokenReview token audiences) (s.markReviewed t secret)
  | looked (key : ObjectKey) : Effect payload t f s (.lookup key) (s.markLooked t (s.claims key))
  | finished (granted : Option (BoundSecret × String)) (hreq : t.isRequest = true) :
      Effect payload t f s (.finish granted) (s.finish t granted)

variable {payload : Payload} {t : Thread} {f : Choice} {s s' : State}

theorem onHeld_effect {o : ClientOp} {u : String} {change : Claim → Claim}
    (h : onHeld s u change = some ((), s')) (hch : ∀ cl, HeldChange o u cl (change cl)) :
    Effect payload t f s o s' := by
  obtain ⟨cl, hcl, he⟩ := Option.map_eq_some_iff.mp h
  cases he
  exact .changed o u cl _ hcl (hch cl)

/-- **Every operation has one of these effects.** -/
theorem exec_effect {o : ClientOp} {r : o.Ans} (h : exec payload t f o s = some (r, s')) :
    Effect payload t f s o s' := by
  cases o with
  | createClaim ns name generateName pool sa =>
    simp only [exec] at h
    split at h
    next hf =>
      rcases ApiFault.write_state (Option.some.inj h) with rfl | rfl
      · unfold State.createClaim
        split
        · exact .none _
        next hfree => exact .claimed _ _ _ _ _ _ rfl (fresh_iff.mp hf).2 hfree
      · exact .none _
    · cases h
  | createSecret ns claim owner =>
    simp only [exec] at h
    split at h
    next hf =>
      rcases ApiFault.write_state (Option.some.inj h) with rfl | rfl
      · unfold State.createSecret
        split
        · exact .none _
        · exact .anchored _ _ _ (fresh_iff.mp hf).2
      · exact .none _
    · cases h
  | patchRenew key uid renewTime =>
    rcases ApiFault.write_state (Option.some.inj h) with rfl | rfl
    · unfold State.patchRenew
      split
      · exact .none _
      next c hc =>
        split
        · exact .renewed _ _ _ c hc
        · exact .none _
    · exact .none _
  | deleteClaim key uid =>
    rcases ApiFault.write_state (Option.some.inj h) with rfl | rfl
    · unfold State.deleteClaim
      split
      · exact .none _
      next c hc =>
        split
        next hu => exact .deleted _ _ c hc fun u he => by simpa [he] using hu
        · exact .none _
    · exact .none _
  | tokenRequest sa audiences seconds secret =>
    simp only [exec, requestToken] at h
    split at h
    · split at h
      next htoken =>
        rcases ApiFault.write_state (Option.some.inj h) with rfl | rfl
        · exact .issued _ _ _ _ _ htoken
        · exact .none _
      · cases h
    · cases h
      exact .none _
  | tokenReview token audiences =>
    simp only [exec] at h
    split at h
    · cases h
      refine .reviewed _ _ _ fun b hb => ?_
      split at hb
      next hauth => exact ⟨hauth, hb⟩
      · cases hb
    · cases h
      exact .none _
  | start cl wait =>
    cases h
    exact .started cl wait
  | lookup key =>
    cases h
    exact .looked key
  | finish granted =>
    obtain ⟨hreq, h⟩ := Option.ite_none_right_eq_some.mp h
    cases h
    exact .finished granted hreq
  | getClaim | heartbeat | now | poll =>
    cases h
    exact .none _
  | enter uid | err uid | agentAddress uid =>
    obtain ⟨cl, _, he⟩ := Option.map_eq_some_iff.mp h
    cases he
    exact .none _
  | select uid =>
    obtain ⟨cl, _, hw⟩ := Option.bind_eq_some_iff.mp h
    obtain ⟨w, _, he⟩ := Option.map_eq_some_iff.mp hw
    cases he
    exact .none _
  | awaitDone uid =>
    obtain ⟨cl, _, hw⟩ := Option.bind_eq_some_iff.mp h
    split at hw
    · cases hw
      exact .none _
    · cases hw
  | closeDone u =>
    exact onHeld_effect h fun cl => ⟨rfl, rfl, fun _ => rfl, .inl rfl, .inr ⟨rfl, rfl⟩⟩
  | lose u why =>
    refine onHeld_effect h fun cl => ?_
    rcases cl.lose_cases why with heq | ⟨err, heq⟩ <;> rw [heq] <;>
      exact ⟨rfl, rfl, id, .inr rfl, .inl ⟨why, rfl⟩⟩
  | checkHost u conditions =>
    refine onHeld_effect h fun cl => ?_
    rcases cl.checkHost_cases conditions with heq | ⟨err, heq⟩ <;> rw [heq] <;>
      exact ⟨rfl, rfl, id, .inr rfl, .inr ⟨rfl, rfl⟩⟩
  | resetRenew | cancel | resetToken | record | setToken =>
    exact onHeld_effect h fun cl => ⟨rfl, rfl, id, .inr rfl, .inr ⟨rfl, rfl⟩⟩

/-! ## 5. One call, for the runs that follow -/

/-- The claims of its token. -/
def someClaims : ServiceAccountClaims := requestedClaims ⟨"ns", "runner"⟩ "id" ⟨"x-exec", "s1"⟩

/-- A decoder that knows this token. -/
def somePayload (middle : String) : Option ServiceAccountClaims :=
  if middle = "p" then some someClaims else none

/-- A call that claims a MicroVM under the name x. -/
def someCall : Thread := .claim 0 ⟨"ns", 600 * second⟩ ⟨"pool", "runner", "x", ""⟩ 1

/-- The call is answered; the claim gets this status while it waits. -/
def someClaimed (status : MicroVMClaimStatus) : List (Act Thread Choice ClientAct) :=
  [.spawn someCall, .exec someCall { uid := "u1" }, .exec someCall { uid := "s1" },
    .env (.changeClaim ⟨"ns", "x"⟩ [releaseFinalizer] ⟨"pool", none, "runner"⟩ status),
    .exec someCall {}, .exec someCall {}, .exec someCall {},
    .exec someCall { text := "h.p.s", name := "id" }, .exec someCall {}, .exec someCall {}]

end BatteryOperator.ClaimClient
