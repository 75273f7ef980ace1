/-
  Subject:   What every operation of the signer owes, and what holds of the requests, the pins and
             the index whatever happens.

  * `Passes` -- **a request passes the review**, with what was read for it;
  * `Pre` -- before each write: a condition or a certificate goes on a version of the request that
    is undecided, according to its review; a pin is added to a version of the pins that has neither
    the Node nor the address; a serving certificate is stored once the pin is;
  * `Inv` -- versions have numbers of their own, and the index kept is that of a version;
  * `write_request`, `write_createPins`, `write_updatePins` -- what a write did;
  * `env_effect`, `exec_effect`, `Effect.inv`, `Effect.grows` -- every step keeps the invariant, and
    what a reconcile has read stays a version there has been.
-/
import BatteryOperator.Csr.System
import BatteryOperator.ReconcileLogic

namespace BatteryOperator.Csr

open Lib

/-! ## 1. Passing the review -/

/-- The URI a request of the signer has to name. -/
def requiredURI (cfg : SignerConfig) (signer node : String) : String :=
  if signer = clientSigner then execAgentID cfg.trustDomain node else servingURI cfg signer node

/-- An entry of the pins. -/
def entryOf (pins : Option ConfigMap) (node : String) : Option String :=
  pins.bind fun cm => cm.data.lookup node

/-- The pin check: the Node's own pin, or an address pinned to no Node. -/
def PinPasses (pins : Option ConfigMap) (node address : String) : Prop :=
  (∃ a, entryOf pins node = some a ∧ canonicalAddress a = address) ∨
    (entryOf pins node = none ∧ ∀ m a, entryOf pins m = some a → canonicalAddress a ≠ address)

/-- **The request passes every check**, for the Node `node`, with what was read for its review. -/
structure Passes (X : X509) (cfg : SignerConfig) (csr : CertificateSigningRequest) (r : Reading)
    (node : String) (req : CertificateRequest) : Prop where
  signer : isOurSigner csr.spec.signerName = true
  requester : csr.spec.username = cfg.execAgentUsername
  single : csr.spec.extra.lookup nodeNameExtra = some [node]
  named : node ≠ ""
  request : WellFormed X csr.spec.request req
  usages : csr.spec.usages.Perm (signerUsages csr.spec.signerName)
  dnsNames : req.dnsNames = []
  emailAddresses : req.emailAddresses = []
  uris : req.uris = [requiredURI cfg csr.spec.signerName node]
  client : isServing csr.spec.signerName = false → req.ipAddresses = []
  serving : isServing csr.spec.signerName = true → ∃ ip nd, req.ipAddresses = [ip] ∧
    r.node = some nd ∧ nd.name = node ∧ (∃ x ∈ internalIPs nd, ip.equal x = true) ∧
    PinPasses r.pins node ip.string

/-- The request passes the review. -/
def Reviewed (X : X509) (cfg : SignerConfig) (csr : CertificateSigningRequest) (r : Reading) :
    Prop := ∃ node req, Passes X cfg csr r node req

/-- The request is signed, marked Failed or denied. -/
def decided (csr : CertificateSigningRequest) : Bool :=
  csr.certificate.isSome || hasCondition csr .failed || hasCondition csr .denied

/-- The certificate carries the names of the request, and the Node's name. -/
structure CertFor (cert : Certificate) (node : String) (req : CertificateRequest) : Prop where
  commonName : cert.commonName = node
  dnsNames : cert.dnsNames = req.dnsNames
  emailAddresses : cert.emailAddresses = req.emailAddresses
  uris : cert.uris = req.uris
  ipAddresses : cert.ipAddresses = req.ipAddresses

variable {X : X509} {cfg : SignerConfig} {t : String} {s s' : State}
  {csr : CertificateSigningRequest} {r : Reading}

/-- The review looks at the spec alone. -/
theorem Passes.of_spec {csr' : CertificateSigningRequest} {node : String}
    {req : CertificateRequest} (h : Passes X cfg csr r node req) (hs : csr'.spec = csr.spec) :
    Passes X cfg csr' r node req := by
  obtain ⟨h1, h2, h3, h4, h5, h6, h7, h8, h9, h10, h11⟩ := h
  rw [← hs] at h1 h2 h3 h5 h6 h9 h10 h11
  exact ⟨h1, h2, h3, h4, h5, h6, h7, h8, h9, h10, h11⟩

/-! ## 2. The duties -/

/-- The new pins are the old ones with an entry for a Node that had none, of an address no Node had
    there. -/
structure Adds (old new : Dict String String) (node : String) (ip : IP) : Prop where
  free : old.lookup node = none
  apart : ∀ m a, old.lookup m = some a → canonicalAddress a ≠ ip.string
  lookup : ∀ m, new.lookup m = if m = node then some ip.string else old.lookup m

/-- The address is, or was, pinned to the Node. -/
def HasPin (s : State) (node : String) (ip : IP) : Prop :=
  ∃ cm a, some cm ∈ s.pins ∧ cm.data.lookup node = some a ∧ canonicalAddress a = ip.string

/-- The duty of a write of the approval: a condition for an unapproved request, by its review. -/
structure Approves (X : X509) (cfg : SignerConfig) (r : Reading) (b : CertificateSigningRequest)
    (c : Condition) : Prop where
  undecided : decided b = false
  unapproved : hasCondition b .approved = false
  status : c.status = .isTrue
  review : (c.type = .denied ∧ ¬ Reviewed X cfg b r) ∨ (c.type = .approved ∧ Reviewed X cfg b r)

/-- The duty of marking a request Failed. -/
structure Fails (X : X509) (cfg : SignerConfig) (r : Reading) (b : CertificateSigningRequest)
    (c : Condition) : Prop where
  undecided : decided b = false
  approved : hasCondition b .approved = true
  status : c.status = .isTrue
  type : c.type = .failed
  review : ¬ Reviewed X cfg b r

/-- The duty of storing a certificate. -/
structure Signs (X : X509) (cfg : SignerConfig) (r : Reading) (b : CertificateSigningRequest)
    (cert : Certificate) (node : String) (req : CertificateRequest) : Prop where
  undecided : decided b = false
  approved : hasCondition b .approved = true
  review : Passes X cfg b r node req
  content : CertFor cert node req

/-- **What is owed before an operation.** -/
def Pre (X : X509) (cfg : SignerConfig) (t : String) (s : State) : CsrOp → Prop
  | .indexPins cm => ∀ c, cm = some c → some c ∈ s.pins
  | .updateApproval csr => ∃ b c, some b ∈ s.requests t ∧ csr = b.plus c ∧
      Approves X cfg (s.readings t) b c
  | .updateStatus csr => ∃ b, some b ∈ s.requests t ∧
      ((∃ c, csr = b.plus c ∧ Fails X cfg (s.readings t) b c) ∨
        ∃ cert node req, csr = { b with certificate := some cert } ∧
          Signs X cfg (s.readings t) b cert node req ∧
          (isServing b.spec.signerName = true → ∀ ip ∈ req.ipAddresses, HasPin s node ip))
  | .createPins cm => ∃ node ip, Adds ∅ cm.data node ip
  | .updatePins cm => ∃ base node ip, some base ∈ s.pins ∧
      base.resourceVersion = cm.resourceVersion ∧ Adds base.data cm.data node ip
  | _ => True

/-- What holds whatever happens. -/
structure Inv (s : State) : Prop where
  requests : ∀ x, Versions.Numbered CertificateSigningRequest.resourceVersion s.version
    (s.requests x)
  named : ∀ x o, some o ∈ s.requests x → o.name = x
  uids : ∀ x o, some o ∈ s.requests x → o.uid ≤ s.version
  nodes : ∀ n nd, s.nodes n = some nd → nd.name = n
  pins : Versions.Numbered ConfigMap.resourceVersion s.version s.pins
  positive : ∀ cm, some cm ∈ s.pins → 0 < cm.resourceVersion
  index : PinIndex.Kept s.pins s.index

/-- The versions there have been stay. -/
structure Grows (s s' : State) : Prop where
  version : s.version ≤ s'.version
  requests : ∀ x o, some o ∈ s.requests x → some o ∈ s'.requests x
  pins : ∀ cm, some cm ∈ s.pins → some cm ∈ s'.pins

/-- What the others leave to a reconcile. -/
structure Rely (t : String) (s s' : State) : Prop where
  grows : Grows s s'
  reading : s'.readings t = s.readings t

/-- **The specification of the reconciles.** -/
def spec (X : X509) (cfg : SignerConfig) : Spec String CsrOp State where
  Inv := Inv
  Pre t o s := Pre X cfg t s o
  Rely := Rely
  Idle _ _ := True

theorem Grows.refl (s : State) : Grows s s := ⟨Nat.le_refl _, fun _ _ h => h, fun _ h => h⟩

theorem Grows.trans {a b c : State} (h : Grows a b) (h' : Grows b c) : Grows a c where
  version := Nat.le_trans h.version h'.version
  requests x o ho := h'.requests x o (h.requests x o ho)
  pins cm hc := h'.pins cm (h.pins cm hc)

theorem Rely.refl (t : String) (s : State) : Rely t s s := ⟨Grows.refl s, rfl⟩

theorem Rely.trans {a b c : State} (h : Rely t a b) (h' : Rely t b c) : Rely t a c :=
  ⟨h.grows.trans h'.grows, h'.reading.trans h.reading⟩

/-! ## 3. One new version -/

theorem mem_update_push {s : State} {x y : String} {v : Option CertificateSigningRequest}
    {o : CertificateSigningRequest}
    (h : some o ∈ Function.update s.requests x (v :: s.requests x) y) :
    (y = x ∧ v = some o) ∨ some o ∈ s.requests y := by
  by_cases hy : y = x
  · subst hy
    rw [Function.update_self] at h
    rcases List.mem_cons.mp h with hv | hm
    · exact .inl ⟨rfl, hv.symm⟩
    · exact .inr hm
  · rw [Function.update_of_ne hy] at h
    exact .inr h

theorem mem_push {s : State} {x y : String} {v : Option CertificateSigningRequest}
    {o : CertificateSigningRequest} (h : some o ∈ s.requests y) :
    some o ∈ Function.update s.requests x (v :: s.requests x) y := by
  by_cases hy : y = x
  · subst hy
    rw [Function.update_self]
    exact List.mem_cons_of_mem _ h
  · rw [Function.update_of_ne hy]
    exact h

/-- A request gets a new version. -/
theorem Inv.store (hI : Inv s) {csr : CertificateSigningRequest} (hu : csr.uid ≤ s.version + 1) :
    Inv (s.store csr) where
  requests x := by
    by_cases hx : x = csr.name
    · subst hx
      have hup : (s.store csr).requests csr.name =
          some { csr with resourceVersion := s.version + 1 } :: s.requests csr.name :=
        Function.update_self _ _ _
      rw [hup]
      exact (hI.requests csr.name).push (Nat.lt_succ_self _) (Nat.le_refl _)
    · have hup : (s.store csr).requests x = s.requests x := Function.update_of_ne hx _ _
      rw [hup]
      exact (hI.requests x).mono (Nat.le_succ _)
  named x o h := by
    rcases mem_update_push h with ⟨rfl, hv⟩ | hm
    · cases hv
      rfl
    · exact hI.named x o hm
  uids x o h := by
    rcases mem_update_push h with ⟨rfl, hv⟩ | hm
    · cases hv
      exact hu
    · exact Nat.le_succ_of_le (hI.uids x o hm)
  nodes := hI.nodes
  pins := hI.pins.mono (Nat.le_succ _)
  positive := hI.positive
  index := hI.index

theorem grows_store (s : State) (csr : CertificateSigningRequest) : Grows s (s.store csr) :=
  ⟨Nat.le_succ _, fun _ _ h => mem_push h, fun _ h => h⟩

/-- A request is removed. -/
theorem Inv.remove (hI : Inv s) (x : String) :
    Inv { s with requests := Function.update s.requests x (none :: s.requests x) } :=
  { hI with
    requests y := by
      by_cases hy : y = x
      · subst hy
        simp only [Function.update_self]
        exact (hI.requests y).remove
      · simp only [Function.update_of_ne hy]
        exact hI.requests y
    named y o h := by
      rcases mem_update_push h with ⟨_, hv⟩ | hm
      · cases hv
      · exact hI.named y o hm
    uids y o h := by
      rcases mem_update_push h with ⟨_, hv⟩ | hm
      · cases hv
      · exact hI.uids y o hm }

/-- The pins get a new version. -/
theorem Inv.storePins (hI : Inv s) (cm : ConfigMap) : Inv (s.storePins cm) where
  requests x := (hI.requests x).mono (Nat.le_succ _)
  named := hI.named
  uids x o h := Nat.le_succ_of_le (hI.uids x o h)
  nodes := hI.nodes
  pins := hI.pins.push (Nat.lt_succ_self _) (Nat.le_refl _)
  positive c h := by
    rcases List.mem_cons.mp h with he | hm
    · cases he
      exact Nat.succ_pos _
    · exact hI.positive c hm
  index := hI.index.mono fun _ h => List.mem_cons_of_mem _ h

theorem grows_storePins (s : State) (cm : ConfigMap) : Grows s (s.storePins cm) :=
  ⟨Nat.le_succ _, fun _ _ h => h, fun _ h => List.mem_cons_of_mem _ h⟩

/-! ## 4. What a write did -/

/-- **A write of a request** was refused or not applied, or it replaced the version that was
    read. -/
theorem write_request {f : ApiFault} {csr : CertificateSigningRequest}
    {set : CertificateSigningRequest → CertificateSigningRequest} {issued : List Issue}
    {a : Except ApiError CertificateSigningRequest}
    (h : f.write (s.update csr set issued) s = (a, s')) :
    (s' = s ∧ ∀ v, a ≠ .ok v) ∨
      ∃ o, s.stored csr.name = some o ∧ o.resourceVersion = csr.resourceVersion ∧
        s' = { s.store (set o) with issued := issued ++ s.issued } ∧
        ∀ v, a = .ok v → v = { set o with resourceVersion := s.version + 1 } := by
  unfold State.update at h
  split at h
  · exact .inl (ApiFault.write_refused h)
  next o ho =>
    split at h
    next hv =>
      rcases ApiFault.write_applied h with ⟨hs, ha⟩ | hs
      · exact .inr ⟨o, ho, hv, hs, fun v hok => (Except.ok.inj (ha v hok)).symm⟩
      · exact .inl hs
    · exact .inl (ApiFault.write_refused h)

/-- **The pins are created** where there are none, or nothing happens. -/
theorem write_createPins {f : ApiFault} {cm : ConfigMap} {a : Except ApiError ConfigMap}
    (h : f.write (s.createPins cm) s = (a, s')) :
    (s' = s ∧ ∀ v, a ≠ .ok v) ∨
      (s.pins.current = none ∧ s' = s.storePins { cm with uid := s.version + 1 }) := by
  unfold State.createPins at h
  split at h
  · exact .inl (ApiFault.write_refused h)
  next hc =>
    rcases ApiFault.write_applied h with ⟨hs, _⟩ | hs
    · exact .inr ⟨hc, hs⟩
    · exact .inl hs

/-- **The pins are updated** where they are the version that was read, or nothing happens. -/
theorem write_updatePins {f : ApiFault} {cm : ConfigMap} {a : Except ApiError ConfigMap}
    (h : f.write (s.updatePins cm) s = (a, s')) :
    (s' = s ∧ ∀ v, a ≠ .ok v) ∨
      ∃ o, s.pins.current = some o ∧ o.resourceVersion = cm.resourceVersion ∧
        s' = s.storePins { o with data := cm.data } := by
  unfold State.updatePins at h
  split at h
  · exact .inl (ApiFault.write_refused h)
  next o hc =>
    split at h
    next hv =>
      rcases ApiFault.write_applied h with ⟨hs, _⟩ | hs
      · exact .inr ⟨o, hc, hv, hs⟩
      · exact .inl hs
    · exact .inl (ApiFault.write_refused h)

/-! ## 5. Every step keeps the invariant -/

/-- What a step may do to the state; `own` is the reconcile whose step it is. -/
inductive Effect (own : Option String) (s : State) : State → Prop where
  | refl : Effect own s s
  /-- A reconcile notes what it has read. -/
  | note (t : String) (h : own = some t) (r : Reading) : Effect own s (s.note t r)
  /-- It keeps an index. -/
  | index (x : Option PinIndex) (h : PinIndex.Kept s.pins x) : Effect own s { s with index := x }
  /-- A request gets a new version, or goes. -/
  | request (o : CertificateSigningRequest) (issued : List Issue) (h : o.uid ≤ s.version + 1) :
      Effect own s { s.store o with issued := issued }
  | removed (x : String) :
      Effect own s { s with requests := Function.update s.requests x (none :: s.requests x) }
  /-- The pins get a new version, or go. -/
  | pins (cm : ConfigMap) : Effect own s (s.storePins cm)
  | noPins : Effect own s { s with pins := none :: s.pins }
  /-- The clock, the Nodes or the CA Secrets change. -/
  | elsewhere (now : Time) (nodes : String → Option Node) (cas : String → Option CASecret)
      (h : ∀ n nd, nodes n = some nd → nd.name = n) :
      Effect own s { s with now := now, nodes := nodes, cas := cas }

/-- **Everything others do has one of these effects.** -/
theorem env_effect {e : EnvAct} (hI : Inv s) (h : env cfg e s = some s') : Effect none s s' := by
  cases e with
  | tick | setCA =>
    cases h
    exact .elsewhere _ _ _ hI.nodes
  | submit name spec =>
    simp only [env] at h
    split at h
    · cases h
    · cases h
      exact .request _ _ (Nat.le_refl _)
  | addCondition name c =>
    obtain ⟨o, ho, rfl⟩ := Option.map_eq_some_iff.mp h
    exact .request _ _ (Nat.le_succ_of_le (hI.uids name o (Versions.mem_of_current ho)))
  | remove name =>
    obtain ⟨o, _, rfl⟩ := Option.map_eq_some_iff.mp h
    exact .removed name
  | setNode name addresses =>
    cases h
    refine .elsewhere _ _ _ fun n nd hn => ?_
    rcases update_cases hn with ⟨rfl, hv⟩ | ⟨_, hv⟩
    · obtain ⟨addrs, _, rfl⟩ := Option.map_eq_some_iff.mp hv
      rfl
    · exact hI.nodes n nd hv
  | setPins data =>
    cases data with
    | some data =>
      cases h
      exact .pins _
    | none =>
      cases h
      exact .noPins

/-- **Every operation has one of these effects.** -/
theorem exec_effect {c : Choice} {o : CsrOp} {a : o.Ans} (hI : Inv s) (hpre : Pre X cfg t s o)
    (h : exec t c o s = (a, s')) : Effect (some t) s s' := by
  cases o with
  | get name | getNode name | getPins key =>
    cases h
    exact .note t rfl _
  | now | getCA key | randInt | createCertificate tmpl =>
    cases h
    exact .refl
  | indexPins cm =>
    cases h
    exact .index _ (PinIndex.of_eq hI.pins hI.index hpre).2
  | updateApproval | updateStatus =>
    rcases write_request h with ⟨rfl, _⟩ | ⟨o, ho, _, rfl, _⟩
    · exact .refl
    · exact .request _ _ (Nat.le_succ_of_le (hI.uids _ o (Versions.mem_of_current ho)))
  | createPins cm =>
    rcases write_createPins h with ⟨rfl, _⟩ | ⟨_, rfl⟩
    · exact .refl
    · exact .pins _
  | updatePins cm =>
    rcases write_updatePins h with ⟨rfl, _⟩ | ⟨o, _, _, rfl⟩
    · exact .refl
    · exact .pins _

variable {own : Option String}

theorem Effect.grows (h : Effect own s s') :
    Grows s s' ∧ ∀ u, own ≠ some u → s'.readings u = s.readings u := by
  cases h with
  | refl | index | elsewhere => exact ⟨{ Grows.refl s with }, fun _ _ => rfl⟩
  | note t ht r =>
    refine ⟨{ Grows.refl s with }, fun u hu => Function.update_of_ne ?_ _ _⟩
    rintro rfl
    exact hu ht
  | request o issued => exact ⟨{ grows_store s o with }, fun _ _ => rfl⟩
  | removed x => exact ⟨{ Grows.refl s with requests := fun _ _ => mem_push }, fun _ _ => rfl⟩
  | pins cm => exact ⟨grows_storePins s cm, fun _ _ => rfl⟩
  | noPins =>
    exact ⟨{ Grows.refl s with pins := fun _ => List.mem_cons_of_mem _ }, fun _ _ => rfl⟩

theorem Effect.rely (h : Effect own s s') (ht : own ≠ some t) : Rely t s s' :=
  ⟨h.grows.1, h.grows.2 t ht⟩

theorem Effect.inv (hI : Inv s) (h : Effect own s s') : Inv s' := by
  cases h with
  | refl => exact hI
  | note => exact { hI with }
  | index x hx => exact { hI with index := hx }
  | request o issued hu =>
    have hst := hI.store hu
    exact { hst with }
  | removed x => exact hI.remove x
  | pins cm => exact hI.storePins cm
  | noPins =>
    refine { hI with
      pins := hI.pins.remove, positive := fun c hc => ?_
      index := hI.index.mono fun _ => List.mem_cons_of_mem _ }
    rcases List.mem_cons.mp hc with he | hm
    · cases he
    · exact hI.positive c hm
  | elsewhere _ _ _ h => exact { hI with nodes := h }

end BatteryOperator.Csr
