/-
  Subject:   What holds of the requests and of the pins in every run of the signer.

  * `Decides` -- **what a write of the controller can be**: the condition Denied or Failed on a
    request that fails a check, Approved or a certificate on one that passes;
  * `exec_stored`, `env_stored` -- what a step does to a stored request;
  * `nothing_signed_unchecked` -- nothing is signed that fails a check;
  * `PinsInv` -- entries of the pins stay, and no two are of one address;
  * `pins_isolate_hosts` -- the pins keep the Hosts apart.
-/
import BatteryOperator.Csr.Sound

namespace BatteryOperator.Csr

open Lib Machine

abbrev CsrWorld := World String CsrOp CsrOp.Ans State

variable {X : X509} {cfg : SignerConfig} {t : String} {s s' : State}

/-- Runs in which the controller alone writes the pins. -/
abbrev OwnRun (X : X509) (cfg : SignerConfig) : CsrWorld → CsrWorld → Prop :=
  (machine X cfg).Run fun w a => OnlyOperatorPins w a = true

variable {w w' : CsrWorld} {csr : CertificateSigningRequest} {x node : String} {e : EnvAct}

theorem reachable_safe (h : Reachable X cfg w) : Safe (machine X cfg) (spec X cfg) w :=
  (csr_sound X cfg).reach (start_safe X cfg) h

/-! ## 1. What becomes of a stored request -/

/-- **What a write of the controller does to a request**, by what its reconcile has read. -/
inductive Decides (X : X509) (cfg : SignerConfig) (r : Reading)
    (o o' : CertificateSigningRequest) : Prop where
  /-- A request that fails a check and is not approved is denied. -/
  | deny (c : Condition) (hr : ¬ Reviewed X cfg o r) (ha : hasCondition o .approved = false)
      (ht : c.type = .denied) (hs : c.status = .isTrue)
      (ho : o' = { o.plus c with resourceVersion := o'.resourceVersion })
  /-- A request that fails a check and is approved is marked Failed. -/
  | fail (c : Condition) (hr : ¬ Reviewed X cfg o r) (ha : hasCondition o .approved = true)
      (ht : c.type = .failed) (hs : c.status = .isTrue)
      (ho : o' = { o.plus c with resourceVersion := o'.resourceVersion })
  /-- A request that passes is approved. -/
  | approve (c : Condition) (hr : Reviewed X cfg o r) (ha : hasCondition o .approved = false)
      (ht : c.type = .approved) (hs : c.status = .isTrue)
      (ho : o' = { o.plus c with resourceVersion := o'.resourceVersion })
  /-- A request that passes and is approved is signed. -/
  | sign (cert : Certificate) (node : String) (req : CertificateRequest)
      (hr : Passes X cfg o r node req) (ha : hasCondition o .approved = true)
      (hc : CertFor cert node req)
      (ho : o' = { o with
        certificate := some cert
        resourceVersion := o'.resourceVersion })

theorem stored_store (h : csr.name = x) :
    (s.store csr).stored x = some { csr with resourceVersion := s.version + 1 } := by
  subst h
  simp only [State.stored, State.store, Function.update_self, Versions.current_cons]

theorem stored_store_ne (h : x ≠ csr.name) : (s.store csr).stored x = s.stored x := by
  simp only [State.stored, State.store, Function.update_of_ne h]

/-- The version that a write replaced is the one its duty speaks of. -/
theorem replaced {b o : CertificateSigningRequest} (hI : Inv s) (hb : some b ∈ s.requests t)
    (hn : csr.name = b.name) (hr : csr.resourceVersion = b.resourceVersion)
    (ho : s.stored csr.name = some o) (hv : o.resourceVersion = csr.resourceVersion) :
    o = b ∧ b.name = t := by
  have hname := hI.named t b hb
  rw [hn, hname] at ho
  exact ⟨(hI.requests t).current_eq ho hb (hv.trans hr), hname⟩

/-- **An operation leaves a stored request alone, or it is a write of its own reconcile, on an
    undecided request, by its review.** -/
theorem exec_stored {c : Choice} {o : CsrOp} {a : o.Ans} (hI : Inv s) (hpre : Pre X cfg t s o)
    (h : exec t c o s = (a, s')) (x : String) :
    s'.stored x = s.stored x ∨ (x = t ∧ ∃ b b', s.stored x = some b ∧ s'.stored x = some b' ∧
      decided b = false ∧ Decides X cfg (s.readings x) b b') := by
  cases o with
  | updateApproval csr =>
    obtain ⟨b, cond, hb, rfl, hap⟩ := hpre
    rcases write_request h with ⟨rfl, _⟩ | ⟨o, ho, hv, rfl, _⟩
    · exact .inl rfl
    · obtain ⟨rfl, hname⟩ := replaced hI hb rfl rfl ho hv
      by_cases hx : x = t
      · subst hx
        refine .inr ⟨rfl, o, _, hname ▸ ho, stored_store hname, hap.undecided, ?_⟩
        rcases hap.review with ⟨ht, hr⟩ | ⟨ht, hr⟩
        · exact .deny cond hr hap.unapproved ht hap.status rfl
        · exact .approve cond hr hap.unapproved ht hap.status rfl
      · exact .inl (stored_store_ne fun he => hx (he.trans hname))
  | updateStatus csr =>
    obtain ⟨b, hb, hduty⟩ := hpre
    rcases write_request h with ⟨rfl, _⟩ | ⟨o, ho, hv, rfl, _⟩
    · exact .inl rfl
    · rcases hduty with ⟨cond, rfl, hf⟩ | ⟨cert, node, req, rfl, hsig, _⟩
      · obtain ⟨rfl, hname⟩ := replaced hI hb rfl rfl ho hv
        by_cases hx : x = t
        · subst hx
          exact .inr ⟨rfl, o, _, hname ▸ ho, stored_store hname, hf.undecided,
            .fail cond hf.review hf.approved hf.type hf.status rfl⟩
        · exact .inl (stored_store_ne fun he => hx (he.trans hname))
      · obtain ⟨rfl, hname⟩ := replaced hI hb rfl rfl ho hv
        by_cases hx : x = t
        · subst hx
          exact .inr ⟨rfl, o, _, hname ▸ ho, stored_store hname, hsig.undecided,
            .sign cert node req hsig.review hsig.approved hsig.content rfl⟩
        · exact .inl (stored_store_ne fun he => hx (he.trans hname))
  | createPins cm =>
    rcases write_createPins h with ⟨rfl, _⟩ | ⟨_, rfl⟩
    · exact .inl rfl
    · exact .inl rfl
  | updatePins cm =>
    rcases write_updatePins h with ⟨rfl, _⟩ | ⟨o, _, _, rfl⟩
    · exact .inl rfl
    · exact .inl rfl
  | _ =>
    cases h
    exact .inl rfl

/-- **What others do to a stored request**: nothing, a new object, a condition more, or its end. -/
theorem env_stored (hI : Inv s) (h : env cfg e s = some s') (x : String) :
    s'.stored x = s.stored x ∨ s'.stored x = none ∨
      (∃ b, s'.stored x = some b ∧ s.version < b.uid ∧ b.certificate = none) ∨
      ∃ b c v, s.stored x = some b ∧
        s'.stored x = some { b.plus c with resourceVersion := v } := by
  cases e with
  | submit name spec =>
    simp only [env] at h
    split at h
    · cases h
    · cases h
      by_cases hx : x = name
      · subst hx
        exact .inr (.inr (.inl ⟨_, stored_store rfl, Nat.lt_succ_self _, rfl⟩))
      · exact .inl (stored_store_ne hx)
  | addCondition name c =>
    obtain ⟨o, ho, rfl⟩ := Option.map_eq_some_iff.mp h
    have hname : o.name = name := hI.named name o (Versions.mem_of_current ho)
    by_cases hx : x = name
    · subst hx
      exact .inr (.inr (.inr ⟨o, c, _, ho, stored_store hname⟩))
    · exact .inl (stored_store_ne fun he => hx (he.trans hname))
  | remove name =>
    obtain ⟨o, ho, rfl⟩ := Option.map_eq_some_iff.mp h
    by_cases hx : x = name
    · subst hx
      refine .inr (.inl ?_)
      simp only [State.stored, Function.update_self, Versions.current_cons]
    · refine .inl ?_
      simp only [State.stored, Function.update_of_ne hx]
  | setPins data => cases data <;> cases h <;> exact .inl rfl
  | tick d | setNode name addresses | setCA name secret =>
    cases h
    exact .inl rfl

/-! ## 2. A decision stays -/

theorem decided_plus {c : Condition} {v : Nat} (h : decided csr = true) :
    decided { csr.plus c with resourceVersion := v } = true := by
  have hc : ∀ ty, hasCondition csr ty = true →
      hasCondition { csr.plus c with resourceVersion := v } ty = true := by
    intro ty ht
    have hp := hasCondition_plus csr c ty
    rw [ht, Bool.true_or] at hp
    exact hp
  simp only [decided, Bool.or_eq_true] at h ⊢
  rcases h with (h | h) | h
  · exact .inl (.inl h)
  · exact .inl (.inr (hc _ h))
  · exact .inr (hc _ h)

/-- The object of this uid, where it is still stored, is decided. -/
def Settled (x : String) (uid : Nat) (s : State) : Prop :=
  uid ≤ s.version ∧ ∀ o, s.stored x = some o → o.uid = uid → decided o = true

/-- **A decided request stays decided**, as long as it is stored. -/
theorem settled_run {o : CertificateSigningRequest} (hw : Reachable X cfg w)
    (ho : w.shared.stored x = some o) (hd : decided o = true)
    (h : (machine X cfg).Run (fun _ _ => True) w w') : Settled x o.uid w'.shared := by
  have hsafe := reachable_safe hw
  have h0 : Settled x o.uid w.shared := by
    refine ⟨hsafe.inv.uids x o (Versions.mem_of_current ho), fun o' ho' _ => ?_⟩
    rw [ho] at ho'
    cases ho'
    exact hd
  refine (csr_sound X cfg).invariant hsafe h0 ?_ ?_ ?_ h
  · intro w1 e s1 _ hI hset hx _
    refine ⟨Nat.le_trans hset.1 (env_effect hI hx).grows.1.version, fun o' ho' hu => ?_⟩
    rcases env_stored hI hx x with hst | hst | ⟨b, hst, hlt, _⟩ | ⟨b, c, v, hb, hst⟩
    · exact hset.2 o' (hst.symm.trans ho') hu
    · rw [hst] at ho'
      cases ho'
    · -- a new object has a uid of its own
      rw [hst] at ho'
      cases ho'
      have := hset.1
      omega
    · rw [hst] at ho'
      cases ho'
      exact decided_plus (hset.2 b hb hu)
  · intro w1 t f op k a s1 _ _ hI hpre hset hx _
    have hx := Option.some.inj hx
    refine ⟨Nat.le_trans hset.1 (exec_effect hI hpre hx).grows.1.version, fun o' ho' hu => ?_⟩
    rcases exec_stored hI hpre hx x with hst | ⟨_, b, b', hb, hb', hund, hdec⟩
    · exact hset.2 o' (hst.symm.trans ho') hu
    · -- a write replaces an undecided version of the same object
      have hbo : b' = o' := Option.some.inj (hb'.symm.trans ho')
      have huid : b'.uid = b.uid := by
        cases hdec with
        | deny _ _ _ _ _ ho | fail _ _ _ _ _ ho | approve _ _ _ _ _ ho => rw [ho]; rfl
        | sign cert node req _ _ _ ho => rw [ho]
      simp [hset.2 b hb (huid.symm.trans ((congrArg _ hbo).trans hu))] at hund
  · intro s1 _ hset
    exact hset

/-! ## 3. Nothing is signed that fails a check -/

/-- **Nothing is signed that fails a check.** In every run, at every step, for every request `x`:
    a certificate is stored only on a request that is stored approved and not denied and that
    passed every check when it was reviewed, and carries its names; a write of the controller is
    one of `Decides`, so a request that fails a check is denied if it is not approved and marked
    Failed if it is; and a request that was once denied, marked Failed or signed is not written by
    the controller any more. -/
theorem nothing_signed_unchecked (X : X509) (cfg : SignerConfig) (w w' : CsrWorld)
    (a : Act String Choice EnvAct) (hw : Reachable X cfg w)
    (hs : (machine X cfg).step w a = some w') (x : String) :
    (∀ o' cert, w'.shared.stored x = some o' → o'.certificate = some cert →
      (∀ o, w.shared.stored x = some o → o.certificate ≠ some cert) →
      ∃ o node req, w.shared.stored x = some o ∧ o'.spec = o.spec ∧ o'.uid = o.uid ∧
        hasCondition o .approved = true ∧ hasCondition o .denied = false ∧
        Passes X cfg o (w.shared.readings x) node req ∧ CertFor cert node req) ∧
    (∀ t f, a = .exec t f → w'.shared.stored x ≠ w.shared.stored x →
      ∃ o o', w.shared.stored x = some o ∧ w'.shared.stored x = some o' ∧ decided o = false ∧
        Decides X cfg (w.shared.readings x) o o') ∧
    (∀ w0 o0, Reachable X cfg w0 → (machine X cfg).Run (fun _ _ => True) w0 w →
      w0.shared.stored x = some o0 → decided o0 = true → ∀ t f, a = .exec t f →
      (∀ o, w.shared.stored x = some o → o.uid = o0.uid →
        w'.shared.stored x = w.shared.stored x)) := by
  have hsafe := reachable_safe hw
  have hI : Inv w.shared := hsafe.inv
  -- what an operation of the controller did
  have hexec : ∀ t f, a = .exec t f → w'.shared.stored x ≠ w.shared.stored x →
      ∃ o o', w.shared.stored x = some o ∧ w'.shared.stored x = some o' ∧ decided o = false ∧
        Decides X cfg (w.shared.readings x) o o' := by
    rintro t f rfl hne
    rcases (csr_sound X cfg).step_cases hsafe hs with
      ⟨e, ha, _⟩ | ⟨u, g, o, k, r, ha, _, hpre, hx⟩ | he | ⟨ha, _⟩
    · cases ha
    · rcases exec_stored hI hpre (Option.some.inj hx) x with hst | ⟨_, b, b', hb⟩
      · exact absurd hst hne
      · exact ⟨b, b', hb⟩
    · rw [he] at hne
      exact absurd rfl hne
    · cases ha
  refine ⟨?_, hexec, ?_⟩
  · intro o' cert ho' hc hnew
    have hsame : w'.shared.stored x ≠ w.shared.stored x := by
      intro he
      exact hnew o' (he.symm.trans ho') hc
    have hkeep : ∀ {b c v}, w.shared.stored x = some b →
        w'.shared.stored x = some { CertificateSigningRequest.plus b c with
          resourceVersion := v } → False := by
      intro b c v hb hst
      rw [hst] at ho'
      cases ho'
      exact hnew b hb hc
    rcases (csr_sound X cfg).step_cases hsafe hs with ⟨e, _, hx⟩ | ⟨t, f, _, _, _, ha, _, _, _⟩ |
      he | ⟨_, he⟩
    · -- others store no certificate
      rcases env_stored hI hx x with hst | hst | ⟨b, hst, _, hnone⟩ | ⟨b, c, v, hb, hst⟩
      · exact absurd hst hsame
      · rw [hst] at ho'
        cases ho'
      · rw [hst] at ho'
        cases ho'
        rw [hnone] at hc
        cases hc
      · exact (hkeep hb hst).elim
    · obtain ⟨o, o1, ho, ho1, hund, hdec⟩ := hexec t f ha hsame
      rw [ho1] at ho'
      cases ho'
      have hden : hasCondition o .denied = false := by
        simp only [decided, Bool.or_eq_false_iff] at hund
        exact hund.2
      cases hdec with
      | deny c _ _ _ _ he => exact (hkeep ho (he ▸ ho1)).elim
      | fail c _ _ _ _ he => exact (hkeep ho (he ▸ ho1)).elim
      | approve c _ _ _ _ he => exact (hkeep ho (he ▸ ho1)).elim
      | sign cert' node req hr happ hcert he =>
        rw [he] at hc ⊢
        cases hc
        exact ⟨o, node, req, ho, rfl, rfl, happ, hden, hr, hcert⟩
    · rw [he] at hsame
      exact absurd rfl hsame
    · rw [he] at hsame
      exact absurd rfl hsame
  · intro w0 o0 hw0 hrun ho0 hd0 t f ha o ho hu
    by_contra hne
    obtain ⟨b, b', hb, _, hund, _⟩ := hexec t f ha hne
    have hset := (settled_run hw0 ho0 hd0 hrun).2 o ho hu
    rw [ho] at hb
    cases hb
    rw [hset] at hund
    cases hund

/-- Codecs, a configuration and requests for the runs below: a request is a PEM block of one byte,
    the number of its Node. -/
def someX509 : X509 where
  pemDecode data := data.head?.map fun b => (⟨"CERTIFICATE REQUEST", [b]⟩, [])
  parseCertificateRequest bytes :=
    .ok (match bytes with
      | [1] => ⟨[], [], [.four ⟨10, 0, 0, 1⟩], ["spiffe://td/flintlock/host/n1"]⟩
      | _ => ⟨[], [], [.four ⟨10, 0, 0, 2⟩], ["spiffe://td/flintlock/host/n2"]⟩)
  checkSignature _ := none
  parseCertsPEM _ := .ok (⟨true, 0, 3600 * second⟩, [])
  parsePrivateKeyPEM _ := .ok true

def someConfig : SignerConfig where
  trustDomain := "td"
  maxDuration := 60 * second
  namespace_ := "battery"
  servingCASecret := "serving-ca"
  clientCASecret := "client-ca"
  execAgentNamespace := "battery"
  execAgentServiceAccount := "exec-agent"

/-- A request of the Exec Agent on a Node. -/
def someRequest (byte : UInt8) (node : String) : RequestSpec where
  request := [byte]
  signerName := servingSigner
  expirationSeconds := none
  usages := [usageServerAuth, usageDigitalSignature, usageKeyEncipherment]
  username := "system:serviceaccount:battery:exec-agent"
  extra := AList.insert nodeNameExtra [node] ∅

/-- Two Nodes, the serving CA and a request for each Node. -/
def someSetup : List (Act String Choice EnvAct) :=
  [.env (.setNode "n1" (some [(.internalIP, "10.0.0.1")])),
    .env (.setNode "n2" (some [(.internalIP, "10.0.0.2")])),
    .env (.setCA "serving-ca" (some ⟨[], []⟩)),
    .env (.submit "r1" (someRequest 1 "n1")),
    .env (.submit "r2" (someRequest 2 "n2"))]

/-- So many operations of a reconcile. -/
def someReconcile (name : String) (n : Nat) : List (Act String Choice EnvAct) :=
  .spawn name :: List.replicate n (.exec name {})

theorem exists_own (acts : List (Act String Choice EnvAct)) (P : CsrWorld → Prop)
    [DecidablePred P] (h : ((machine someX509 someConfig).replay
      (fun w a => OnlyOperatorPins w a = true) start acts).any (fun w => decide (P w)) = true) :
    ∃ w, OwnRun someX509 someConfig start w ∧ P w :=
  exists_run _ acts P h

/-- The first request is approved and its Node pinned; the next operation stores its certificate,
    which is for a request that is stored approved. -/
theorem nothing_signed_unchecked_signed :
    ∃ (w w' : CsrWorld) (o' : CertificateSigningRequest) (cert : Certificate),
      Reachable someX509 someConfig w ∧
      (machine someX509 someConfig).step w (.exec "r1" {}) = some w' ∧
      w'.shared.stored "r1" = some o' ∧ o'.certificate = some cert ∧
      ∃ o node req, w.shared.stored "r1" = some o ∧ hasCondition o .approved = true ∧
        hasCondition o .denied = false ∧
        Passes someX509 someConfig o (w.shared.readings "r1") node req ∧
        CertFor cert node req := by
  obtain ⟨w, hown, hbefore, hafter⟩ := exists_own (someSetup ++ someReconcile "r1" 11)
    (fun w => (w.shared.stored "r1").all (fun o => o.certificate.isNone) = true ∧
      ((machine someX509 someConfig).step w (.exec "r1" {})).any
        (fun w' => (w'.shared.stored "r1").any fun o => o.certificate.isSome) = true)
    (by decide +kernel)
  have hr : Reachable someX509 someConfig w := Machine.Run.mono (fun _ _ _ => trivial) hown
  obtain ⟨w', hs, hst⟩ := (Option.any_eq_true ..).mp hafter
  obtain ⟨o', ho', hc⟩ := (Option.any_eq_true ..).mp hst
  obtain ⟨cert, hcert⟩ := Option.isSome_iff_exists.mp hc
  have hnew : ∀ o, w.shared.stored "r1" = some o → o.certificate ≠ some cert := by
    intro o ho hsome
    simp [ho, Option.all_some, hsome] at hbefore
  obtain ⟨o, node, req, ho, _, _, happ, hden, hp, hfor⟩ :=
    (nothing_signed_unchecked someX509 someConfig w w' _ hr hs "r1").1 o' cert ho' hcert hnew
  exact ⟨w, w', o', cert, hr, hs, ho', hcert, o, node, req, ho, happ, hden, hp, hfor⟩

/-! ## 4. The pins -/

/-- A serving certificate that was stored names one address, which its Node is pinned to. -/
structure IssuedFor (i : Issue) (node : String) (ip : IP) : Prop where
  requester : i.request.spec.extra.lookup nodeNameExtra = some [node]
  commonName : i.certificate.commonName = node
  address : i.certificate.ipAddresses = [ip]
  pinned : ∃ a, entryOf i.pins node = some a ∧ canonicalAddress a = ip.string

/-- What holds of the pins, where the controller alone writes them. -/
structure PinsInv (s : State) : Prop where
  /-- What a version of the pins says is still said. -/
  kept : ∀ cm, some cm ∈ s.pins → ∀ node a, cm.data.lookup node = some a → s.pinOf node = some a
  apart : ∀ m n a b, m ≠ n → s.pinOf m = some a → s.pinOf n = some b →
    canonicalAddress a ≠ canonicalAddress b
  issued : ∀ i ∈ s.issued, isServing i.request.spec.signerName = true →
    ∃ node ip, IssuedFor i node ip
  /-- The pins at the time are pins still. -/
  held : ∀ i ∈ s.issued, ∀ node a, entryOf i.pins node = some a → s.pinOf node = some a

/-- What an operation does to the pins and to the certificates that were stored. -/
inductive PinEffect (s s' : State) : Prop where
  | none (hp : s'.pins = s.pins) (hi : s'.issued = s.issued)
  /-- A certificate is stored. -/
  | issue (i : Issue) (hp : s'.pins = s.pins) (hi : s'.issued = i :: s.issued)
      (hc : i.pins = s.pins.current)
      (h : isServing i.request.spec.signerName = true → ∃ node ip,
        i.request.spec.extra.lookup nodeNameExtra = some [node] ∧
        i.certificate.commonName = node ∧ i.certificate.ipAddresses = [ip] ∧ HasPin s node ip)
  /-- A Node is pinned. -/
  | pin (cm : ConfigMap) (node : String) (ip : IP) (hp : s'.pins = some cm :: s.pins)
      (hi : s'.issued = s.issued) (hfree : s.pinOf node = none)
      (hapart : ∀ m a, s.pinOf m = some a → canonicalAddress a ≠ ip.string)
      (hl : ∀ m, cm.data.lookup m = if m = node then some ip.string else s.pinOf m)

theorem exec_pins {c : Choice} {o : CsrOp} {a : o.Ans} (hI : Inv s) (hpre : Pre X cfg t s o)
    (h : exec t c o s = (a, s')) : PinEffect s s' := by
  cases o with
  | updateApproval csr =>
    rcases write_request h with ⟨rfl, _⟩ | ⟨o, _, _, rfl, _⟩
    · exact .none rfl rfl
    · exact .none rfl rfl
  | updateStatus csr =>
    obtain ⟨b, hb, hduty⟩ := hpre
    rcases write_request h with ⟨rfl, _⟩ | ⟨o, ho, hv, rfl, _⟩
    · exact .none rfl rfl
    · rcases hduty with ⟨cond, rfl, hf⟩ | ⟨cert, node, req, rfl, hsig, hpin⟩
      · -- the request has no certificate, so none is stored with the condition
        have hn : b.certificate = none := by
          have hu := hf.undecided
          simp only [decided, Bool.or_eq_false_iff, Option.isSome_eq_false_iff,
            Option.isNone_iff_eq_none] at hu
          exact hu.1.1
        refine .none rfl ?_
        have hnone : s.issues (b.plus cond) = [] := by
          have hp : (b.plus cond).certificate = none := hn
          simp only [State.issues, ho, hp]
        show s.issues (b.plus cond) ++ s.issued = s.issued
        rw [hnone, List.nil_append]
      · obtain ⟨rfl, hname⟩ := replaced hI hb rfl rfl ho hv
        have hone : s.issues { o with certificate := some cert } =
            [⟨o, cert, s.pins.current⟩] := by
          have ho' : s.stored o.name = some o := ho
          simp only [State.issues, ho']
        refine .issue ⟨o, cert, s.pins.current⟩ rfl ?_ rfl fun hs => ?_
        · show s.issues _ ++ s.issued = _
          rw [hone]
          rfl
        · obtain ⟨ip, nd, hip, _⟩ := hsig.review.serving hs
          refine ⟨node, ip, hsig.review.single, hsig.content.commonName,
            hsig.content.ipAddresses.trans hip, hpin hs ip ?_⟩
          rw [hip]
          exact List.mem_singleton_self ip
  | createPins cm =>
    obtain ⟨node, ip, ha⟩ := hpre
    rcases write_createPins h with ⟨rfl, _⟩ | ⟨hc, rfl⟩
    · exact .none rfl rfl
    · have hno : ∀ m, s.pinOf m = none := by
        intro m
        rw [State.pinOf, hc]
        rfl
      refine .pin _ node ip rfl rfl (hno node) (fun m a hm => ?_) fun m => ?_
      · simp [hno m] at hm
      · show cm.data.lookup m = _
        rw [ha.lookup m, hno m]
        rfl
  | updatePins cm =>
    obtain ⟨base, node, ip, hb, hv, ha⟩ := hpre
    rcases write_updatePins h with ⟨rfl, _⟩ | ⟨o, hc, hv', rfl⟩
    · exact .none rfl rfl
    · have heq : o = base := hI.pins.current_eq hc hb (hv'.trans hv.symm)
      subst heq
      have hpin : ∀ m, s.pinOf m = o.data.lookup m := by
        intro m
        rw [State.pinOf, hc]
        rfl
      refine .pin _ node ip rfl rfl ((hpin node).trans ha.free) (fun m a hm => ?_) fun m => ?_
      · exact ha.apart m a ((hpin m).symm.trans hm)
      · show cm.data.lookup m = _
        rw [ha.lookup m, hpin m]
  | _ =>
    cases h
    exact .none rfl rfl

theorem pinOf_of_pins (h : s'.pins = s.pins) (node : String) : s'.pinOf node = s.pinOf node := by
  unfold State.pinOf
  rw [h]

theorem PinsInv.same (hP : PinsInv s) (hp : s'.pins = s.pins) (hi : s'.issued = s.issued) :
    PinsInv s' where
  kept cm hm node a hl := by
    rw [hp] at hm
    rw [pinOf_of_pins hp]
    exact hP.kept cm hm node a hl
  apart m n a b hne ha hb := by
    rw [pinOf_of_pins hp] at ha hb
    exact hP.apart m n a b hne ha hb
  issued i h := by
    rw [hi] at h
    exact hP.issued i h
  held i h node a he := by
    rw [hi] at h
    rw [pinOf_of_pins hp]
    exact hP.held i h node a he

/-- After a Node is pinned, the pins are what they were, and its own. -/
theorem pinOf_pin {cm : ConfigMap} {ip : IP} (hp : s'.pins = some cm :: s.pins)
    (hl : ∀ m, cm.data.lookup m = if m = node then some ip.string else s.pinOf m) (m : String) :
    s'.pinOf m = if m = node then some ip.string else s.pinOf m := by
  rw [← hl m]
  unfold State.pinOf
  rw [hp, Versions.current_cons]
  rfl

/-- **An entry stays**, whatever an operation does. -/
theorem PinEffect.keeps (h : PinEffect s s') {a : String} (ha : s.pinOf node = some a) :
    s'.pinOf node = some a := by
  cases h with
  | none hp | issue _ hp => rw [pinOf_of_pins hp, ha]
  | pin cm n ip hp _ hfree _ hl =>
    rw [pinOf_pin hp hl, if_neg, ha]
    rintro rfl
    simp [hfree] at ha

/-- **One operation keeps what holds of the pins.** -/
theorem PinEffect.inv (hP : PinsInv s) (h : PinEffect s s') : PinsInv s' := by
  have hkeeps : ∀ {node a}, s.pinOf node = some a → s'.pinOf node = some a := fun ha => h.keeps ha
  cases h with
  | none hp hi => exact hP.same hp hi
  | issue i hp hi hc hi' =>
    refine ⟨?_, ?_, ?_, ?_⟩
    · intro cm hm node a hl
      rw [hp] at hm
      exact hkeeps (hP.kept cm hm node a hl)
    · intro m n a b hne ha hb
      rw [pinOf_of_pins hp] at ha hb
      exact hP.apart m n a b hne ha hb
    · intro j hj hs
      rw [hi] at hj
      rcases List.mem_cons.mp hj with rfl | hj
      · obtain ⟨node, ip, hreq, hcn, hip, cm, a, hm, hl, hca⟩ := hi' hs
        refine ⟨node, ip, hreq, hcn, hip, a, ?_, hca⟩
        rw [hc]
        exact hP.kept cm hm node a hl
      · exact hP.issued j hj hs
    · intro j hj node a he
      rw [hi] at hj
      rcases List.mem_cons.mp hj with rfl | hj
      · rw [hc] at he
        exact hkeeps he
      · exact hkeeps (hP.held j hj node a he)
  | pin cm node ip hp hi hfree hapart hl =>
    have hpin := pinOf_pin hp hl
    refine ⟨?_, ?_, ?_, ?_⟩
    · intro cm' hm m a hl'
      rw [hp] at hm
      rcases List.mem_cons.mp hm with he | hm
      · cases he
        rw [hpin, ← hl m]
        exact hl'
      · exact hkeeps (hP.kept cm' hm m a hl')
    · intro m n a b hne ha hb
      rw [hpin] at ha hb
      by_cases hm : m = node
      · rw [if_pos hm] at ha
        cases ha
        rw [if_neg fun hn => hne (hm.trans hn.symm)] at hb
        rw [canonicalAddress_string]
        exact (hapart n b hb).symm
      · rw [if_neg hm] at ha
        by_cases hn : n = node
        · rw [if_pos hn] at hb
          cases hb
          rw [canonicalAddress_string]
          exact hapart m a ha
        · rw [if_neg hn] at hb
          exact hP.apart m n a b hne ha hb
    · intro i h
      rw [hi] at h
      exact hP.issued i h
    · intro i h m a he
      rw [hi] at h
      exact hkeeps (hP.held i h m a he)

/-- Where others leave the pins alone, they keep what holds of them. -/
theorem env_pins (h : env cfg e s = some s') (he : ∀ data, e ≠ .setPins data) :
    s'.pins = s.pins ∧ s'.issued = s.issued := by
  cases e with
  | submit name spec =>
    simp only [env] at h
    split at h
    · cases h
    · cases h
      exact ⟨rfl, rfl⟩
  | addCondition | remove =>
    obtain ⟨o, _, rfl⟩ := Option.map_eq_some_iff.mp h
    exact ⟨rfl, rfl⟩
  | setPins data => exact absurd rfl (he data)
  | tick d | setNode name addresses | setCA name secret =>
    cases h
    exact ⟨rfl, rfl⟩

theorem not_setPins (h : OnlyOperatorPins w (.env e) = true) : ∀ data, e ≠ .setPins data := by
  rintro data rfl
  cases h

theorem OwnRun.safe (h : OwnRun X cfg start w) : Safe (machine X cfg) (spec X cfg) w :=
  (csr_sound X cfg).reach (start_safe X cfg) h

theorem pinsInv_run (hw : Safe (machine X cfg) (spec X cfg) w) (h0 : PinsInv w.shared)
    (h : OwnRun X cfg w w') : PinsInv w'.shared := by
  refine (csr_sound X cfg).invariant hw h0 ?_ ?_ ?_ h
  · intro w1 e s1 hok _ hP hx _
    obtain ⟨hp, hi⟩ := env_pins hx (not_setPins hok)
    exact hP.same hp hi
  · intro w1 t f o k a s1 _ _ hI hpre hP hx _
    exact (exec_pins hI hpre (Option.some.inj hx)).inv hP
  · intro s1 _ hP
    exact hP.same rfl rfl

theorem start_pinsInv : PinsInv start.shared where
  kept _ h := nomatch h
  apart _ _ _ _ _ h := nomatch h
  issued _ h := nomatch h
  held _ h := nomatch h

/-- An entry stays for good. -/
theorem pin_run (hw : Safe (machine X cfg) (spec X cfg) w) {a : String}
    (ha : w.shared.pinOf node = some a) (h : OwnRun X cfg w w') :
    w'.shared.pinOf node = some a := by
  refine (csr_sound X cfg).invariant (C := fun s => s.pinOf node = some a) hw ha ?_ ?_ ?_ h
  · intro w1 e s1 hok _ hp hx _
    rw [pinOf_of_pins (env_pins hx (not_setPins hok)).1]
    exact hp
  · intro w1 t f o k r s1 _ _ hI hpre hp hx _
    exact (exec_pins hI hpre (Option.some.inj hx)).keeps hp
  · intro s1 _ hp
    exact hp

/-- The index a reconcile is given is the one rebuilt from the version it has read. -/
theorem index_rebuilt (hw : Safe (machine X cfg) (spec X cfg) w) {t : String}
    {cm : Option ConfigMap} {k : AddressPins → CsrM Unit} {f : Choice}
    (hr : w.running t = some (.op (.indexPins cm) k))
    (hs : (machine X cfg).step w (.exec t f) = some w') :
    w'.running t = some (k (newAddressPins cm)) := by
  have hpre : Pre X cfg t w.shared (.indexPins cm) :=
    (hw.safe t _ hr _ (rely_refl _) hw.inv).1
  have hI : Inv w.shared := hw.inv
  have heq := (PinIndex.of_eq hI.pins hI.index hpre).1
  rcases step_exec hs with ⟨o, k', r, s1, hr', hx, rfl⟩ | ⟨hr', _⟩
  · rw [hr] at hr'
    cases hr'
    have hx := Prod.mk.inj (Option.some.inj hx)
    simp only [Function.update_self]
    rw [← hx.1]
    exact congrArg (fun p => some (k p)) heq
  · simp [hr] at hr'

/-- **The pins isolate the Hosts.** In every run in which the controller alone writes the pins: an
    entry stays as it is for good; two Nodes are never pinned to one address; a serving certificate
    names one address, the one its Node was pinned to when it was stored; serving certificates of
    two Nodes never name one address; and the index that is kept is that of the version asked
    for. -/
theorem pins_isolate_hosts (X : X509) (cfg : SignerConfig) (w : CsrWorld)
    (hw : OwnRun X cfg start w) :
    (∀ w' node a, OwnRun X cfg w w' → w.shared.pinOf node = some a →
      w'.shared.pinOf node = some a) ∧
    (∀ m n a b, m ≠ n → w.shared.pinOf m = some a → w.shared.pinOf n = some b →
      canonicalAddress a ≠ canonicalAddress b) ∧
    (∀ i ∈ w.shared.issued, isServing i.request.spec.signerName = true → ∃ node ip a,
      i.request.spec.extra.lookup nodeNameExtra = some [node] ∧
      i.certificate.commonName = node ∧ i.certificate.ipAddresses = [ip] ∧
      entryOf i.pins node = some a ∧ canonicalAddress a = canonicalAddress ip.string) ∧
    (∀ i ∈ w.shared.issued, ∀ j ∈ w.shared.issued, isServing i.request.spec.signerName = true →
      isServing j.request.spec.signerName = true →
      i.certificate.commonName ≠ j.certificate.commonName →
      ∀ ip ∈ i.certificate.ipAddresses, ∀ jp ∈ j.certificate.ipAddresses, ip.equal jp = false) ∧
    (∀ t cm k f w', w.running t = some (.op (.indexPins cm) k) →
      (machine X cfg).step w (.exec t f) = some w' →
      w'.running t = some (k (newAddressPins cm))) := by
  have hsafe := hw.safe
  have hP : PinsInv w.shared := pinsInv_run (start_safe X cfg) start_pinsInv hw
  refine ⟨fun w' node a hrun ha => pin_run hsafe ha hrun, hP.apart, fun i hi hs => ?_,
    fun i hi j hj hsi hsj hne ip hip jp hjp => ?_,
    fun t cm k f w' hr hs => index_rebuilt hsafe hr hs⟩
  · obtain ⟨node, ip, h⟩ := hP.issued i hi hs
    obtain ⟨a, ha, hc⟩ := h.pinned
    refine ⟨node, ip, a, h.requester, h.commonName, h.address, ha, ?_⟩
    rw [canonicalAddress_string]
    exact hc
  · obtain ⟨m, ip', hi'⟩ := hP.issued i hi hsi
    obtain ⟨n, jp', hj'⟩ := hP.issued j hj hsj
    obtain ⟨a, ha, hca⟩ := hi'.pinned
    obtain ⟨b, hb, hcb⟩ := hj'.pinned
    rw [hi'.address] at hip
    rw [hj'.address] at hjp
    have hmn : m ≠ n := by
      rw [← hi'.commonName, ← hj'.commonName]
      exact hne
    have hab := hP.apart m n a b hmn (hP.held i hi m a ha) (hP.held j hj n b hb)
    rw [Bool.eq_false_iff]
    intro heq
    rw [List.mem_singleton.mp hip, List.mem_singleton.mp hjp, equal_iff_string] at heq
    exact hab (by rw [hca, hcb, heq])

/-- Both requests are signed: each Node has its pin, of an address of its own, and the certificates
    do not name one address. -/
theorem pins_isolate_hosts_two :
    ∃ (w : CsrWorld) (i j : Issue), OwnRun someX509 someConfig start w ∧
      w.shared.pinOf "n1" = some "10.0.0.1" ∧ w.shared.pinOf "n2" = some "10.0.0.2" ∧
      canonicalAddress "10.0.0.1" ≠ canonicalAddress "10.0.0.2" ∧
      w.shared.issued = [i, j] ∧ i.certificate.commonName = "n2" ∧
      j.certificate.commonName = "n1" ∧
      ∀ ip ∈ i.certificate.ipAddresses, ∀ jp ∈ j.certificate.ipAddresses, ip.equal jp = false := by
  obtain ⟨w, hr, h1, h2, hi⟩ := exists_own
    (someSetup ++ someReconcile "r1" 13 ++ someReconcile "r2" 13)
    (fun w => w.shared.pinOf "n1" = some "10.0.0.1" ∧ w.shared.pinOf "n2" = some "10.0.0.2" ∧
      w.shared.issued.map (fun i => (i.certificate.commonName,
        isServing i.request.spec.signerName)) = [("n2", true), ("n1", true)])
    (by decide +kernel)
  obtain ⟨_, hapart, _, hdiff, _⟩ := pins_isolate_hosts someX509 someConfig w hr
  obtain ⟨i, l, hw, hci, hl⟩ := List.map_eq_cons_iff.mp hi
  obtain ⟨j, l', rfl, hcj, hnil⟩ := List.map_eq_cons_iff.mp hl
  rw [List.map_eq_nil_iff] at hnil
  subst hnil
  rw [Prod.mk.injEq] at hci hcj
  refine ⟨w, i, j, hr, h1, h2, hapart "n1" "n2" _ _ (by decide) h1 h2, hw, hci.1, hcj.1, ?_⟩
  refine hdiff i (by rw [hw]; simp) j (by rw [hw]; simp) hci.2 hcj.2 ?_
  rw [hci.1, hcj.1]
  decide

end BatteryOperator.Csr
