/-
  Subject:   One reconcile of one CertificateSigningRequest
             (internal/controller/csr_subreconcilers.go, csr_scope.go, csr_review.go, csr_pins.go,
             csr_sign.go and certificatesigningrequest_controller.go).

  The chain reviews the request and decides, in the scope alone; `write` stores the decision: a
  condition through the approval subresource first, then a Failed condition, or the pin and the
  certificate. It runs even when the chain failed.

  A certificate is kept as what it was issued for; its encoding is left out, as are the log lines.
-/
import BatteryOperator.Csr.Pins
import BatteryOperator.Faults
import BatteryOperator.Lib.Program

namespace BatteryOperator.Csr

open Lib

/-! ## 1. Operations and the scope -/

/-- A CA Secret: its `tls.crt` and `tls.key`, empty where it has none. -/
structure CASecret where
  tlsCrt : List UInt8
  tlsKey : List UInt8
  deriving DecidableEq

/-- What the signer's code does outside the scope of one reconcile. -/
inductive CsrOp where
  /-- The request from the manager's cache. -/
  | get (name : String)
  /-- `Clock.Now`. -/
  | now
  /-- The Node from the API server (`APIReader`). -/
  | getNode (name : String)
  /-- The pins ConfigMap from its cache. -/
  | getPins (key : ObjectKey)
  /-- `pinIndex.of`. -/
  | indexPins (cm : Option ConfigMap)
  /-- A CA Secret from its cache. -/
  | getCA (key : ObjectKey)
  /-- `rand.Int`, of 128 bits. -/
  | randInt
  /-- `x509.CreateCertificate`. -/
  | createCertificate (tmpl : Certificate)
  /-- `SubResource("approval").Update`. -/
  | updateApproval (csr : CertificateSigningRequest)
  /-- `Status().Update`. -/
  | updateStatus (csr : CertificateSigningRequest)
  | createPins (cm : ConfigMap)
  | updatePins (cm : ConfigMap)

/-- How an operation is answered. -/
abbrev CsrOp.Ans : CsrOp → Type
  | .get _ => Except ApiError CertificateSigningRequest
  | .now => Time
  | .getNode _ => Except ApiError Node
  | .getPins _ => Except ApiError ConfigMap
  | .indexPins _ => AddressPins
  | .getCA _ => Except ApiError CASecret
  | .randInt => Except String Nat
  | .createCertificate _ => Except String Certificate
  | .updateApproval _ => Except ApiError CertificateSigningRequest
  | .updateStatus _ => Except ApiError CertificateSigningRequest
  | .createPins _ => Except ApiError ConfigMap
  | .updatePins _ => Except ApiError ConfigMap

/-- The signer's programs. -/
abbrev CsrM := Prog CsrOp CsrOp.Ans

/-- Ask for one operation. -/
def ask (o : CsrOp) : CsrM o.Ans := Prog.call o

/-- `csrScope`. -/
structure CsrScope where
  object : CertificateSigningRequest
  node : String := ""
  req : Option CertificateRequest := none
  denial : Option Denial := none
  pin : Option ConfigMap := none
  approval : Option Condition := none
  failure : Option Condition := none
  certificate : Option Certificate := none

abbrev Step := SubReconciler CsrM CsrScope

/-- The chain goes on. -/
def goOn (sc : CsrScope) : CsrM (Outcome CsrScope) := pure { scope := sc }

/-- The chain stops. -/
def stop (sc : CsrScope) : CsrM (Outcome CsrScope) :=
  pure { scope := sc, result := { stop := true } }

/-- The step failed. -/
def failed (sc : CsrScope) (e : String) : CsrM (Outcome CsrScope) :=
  pure { scope := sc, err := some e }

/-- `csrScope.deny`. -/
def deny (sc : CsrScope) (d : Denial) : CsrM (Outcome CsrScope) :=
  stop { sc with denial := some d }

/-- `csrScope.condition`. -/
def condition (t : ConditionType) (reason message : String) : CsrM Condition := do
  let now ← ask .now
  pure ⟨t, .isTrue, reason, message, now⟩

/-! ## 2. The review -/

section Review

variable (X : X509) (cfg : SignerConfig)

/-- `csrRequester.Reconcile`. -/
def csrRequester : Step := fun sc =>
  let csr := sc.object
  if csr.spec.username ≠ cfg.execAgentUsername then
    deny sc ⟨reasonRequester, "The requester " ++ quote csr.spec.username ++
      " is not the Exec Agent's ServiceAccount " ++ quote cfg.execAgentUsername⟩
  else
    match (csr.spec.extra.lookup nodeNameExtra).getD [] with
    | [node] => if node = "" then deny sc noSingleNode else goOn { sc with node := node }
    | _ => deny sc noSingleNode
where
  noSingleNode : Denial :=
    ⟨reasonNodeName, "The requester's " ++ nodeNameExtra ++ " names no single Node"⟩

/-- `csrRequest.Reconcile`. -/
def csrRequest : Step := fun sc =>
  match parseRequest X sc.object.spec.request with
  | .error e => deny sc ⟨reasonInvalidRequest, e⟩
  | .ok req => goOn { sc with req := some req }

/-- `csrUsages.Reconcile`. -/
def csrUsages : Step := fun sc =>
  let csr := sc.object
  let want := signerUsages csr.spec.signerName
  if sameUsages csr.spec.usages want then goOn sc
  else deny sc ⟨reasonKeyUsages, "The key usages " ++ listed csr.spec.usages ++ " are not " ++
    listed want⟩

/-- `internalAddresses`. -/
def internalAddresses (name : String) : CsrM (Except String (Except Denial (List IP))) := do
  match ← ask (.getNode name) with
  | .error e =>
    if e.isNotFound then
      pure (.ok (.error ⟨reasonNodeNotFound,
        "The requester's Node " ++ quote name ++ " does not exist"⟩))
    else pure (.error ("reading Node " ++ name ++ ": " ++ e.text))
  | .ok node =>
    let addrs := internalIPs node
    if addrs = [] then
      pure (.ok (.error ⟨reasonSubjectAltNames,
        "The Node " ++ quote name ++ " has no internal address"⟩))
    else pure (.ok (.ok addrs))

/-- The URI a certificate of a serving signer has to name. -/
def servingURI (signer node : String) : String :=
  if signer = execAgentServingSigner then execAgentID cfg.trustDomain node
  else hostID cfg.trustDomain node

/-- Goes on, or denies. -/
def verdict (sc : CsrScope) : Option Denial → CsrM (Outcome CsrScope)
  | some d => deny sc d
  | none => goOn sc

/-- The parsed request, which csrRequest has set before it is read. -/
def CsrScope.request (sc : CsrScope) : CertificateRequest := sc.req.getD ⟨[], [], [], []⟩

/-- `csrSubjectAltNames.Reconcile`. -/
def csrSubjectAltNames : Step := fun sc => do
  let signer := sc.object.spec.signerName
  if signer = clientSigner then
    verdict sc (checkSANs sc.request (execAgentID cfg.trustDomain sc.node) [])
  else if isServing signer then
    match ← internalAddresses sc.node with
    | .error e => failed sc e
    | .ok (.error d) => deny sc d
    | .ok (.ok addrs) => verdict sc (checkSANs sc.request (servingURI cfg signer sc.node) addrs)
  else
    deny sc ⟨reasonSigner, "The signer name " ++ quote signer ++ " is not the Operator's"⟩

/-- The key of the pins ConfigMap. -/
def pinsKey : ObjectKey := ⟨cfg.namespace_, addressPinsConfigMap⟩

/-- `readPins`. -/
def readPins : CsrM (Except String AddressPins) := do
  match ← ask (.getPins (pinsKey cfg)) with
  | .error e =>
    if e.isNotFound then
      let pins ← ask (.indexPins none)
      pure (.ok pins)
    else pure (.error ("reading ConfigMap " ++ (pinsKey cfg).string ++ ": " ++ e.text))
  | .ok cm =>
    let pins ← ask (.indexPins (some cm))
    pure (.ok pins)

/-- The pins with the new entry: the ConfigMap as it was read, or a new one. -/
def withPin (configMap : Option ConfigMap) (node addr : String) : ConfigMap :=
  let cm := configMap.getD { key := pinsKey cfg, data := ∅ }
  { cm with data := cm.data.insert node addr }

/-- The check of csrAddressPin, once the pins are read: a denial, or the new pin if there is one. -/
def checkPin (pins : AddressPins) (node addr : String) : Except Denial (Option ConfigMap) :=
  match pins.pinned node with
  | some pinned =>
    if canonicalAddress pinned ≠ addr then
      .error ⟨reasonAddressPinned, "The Node " ++ quote node ++ "'s address is pinned to " ++
        pinned ++ ", not " ++ addr ++ "; an administrator clears the pin in ConfigMap " ++
        cfg.namespace_ ++ "/" ++ addressPinsConfigMap ++ " when the Host changes address"⟩
    else .ok none
  | none =>
    match nodesOf pins.byAddress addr with
    | other :: _ =>
      .error ⟨reasonAddressPinned, "The address " ++ addr ++ " is pinned to the Node " ++
        quote other ++ "; an administrator clears the pin in ConfigMap " ++
        cfg.namespace_ ++ "/" ++ addressPinsConfigMap ++ " when the address moves"⟩
    | [] => .ok (some (withPin cfg pins.configMap node addr))

/-- `csrAddressPin.Reconcile`. csrSubjectAltNames has checked that there is an address. -/
def csrAddressPin : Step := fun sc => do
  if isServing sc.object.spec.signerName then
    match ← readPins cfg with
    | .error e => failed sc e
    | .ok pins =>
      match sc.request.ipAddresses with
      | [] => failed sc "panic: runtime error: index out of range [0] with length 0 [recovered]"
      | ip :: _ =>
        match checkPin cfg pins sc.node ip.string with
        | .error d => deny sc d
        | .ok none => goOn sc
        | .ok (some cm) => goOn { sc with pin := some cm }
  else goOn sc

/-- `csrChecks`. -/
def csrChecks : Chain CsrM CsrScope :=
  Chain.ofSteps
    [csrRequester cfg, csrRequest X, csrUsages, csrSubjectAltNames cfg, csrAddressPin cfg]

/-- `csrReview.Reconcile`. -/
def csrReview : Step := (csrChecks X cfg).group

/-! ## 3. The decision -/

/-- `csrUndecided.Reconcile`. -/
def csrUndecided : Step := fun sc =>
  let csr := sc.object
  if !isOurSigner csr.spec.signerName then stop sc
  else if csr.certificate.isSome || hasCondition csr .failed then stop sc
  else goOn sc

/-- `csrNotDenied.Reconcile`. -/
def csrNotDenied : Step := fun sc =>
  if hasCondition sc.object .denied then stop sc else goOn sc

/-- `csrDeny.Reconcile`. -/
def csrDeny : Step := fun sc =>
  match sc.denial with
  | some d =>
    if hasCondition sc.object .approved then goOn sc
    else do
      let c ← condition .denied d.reason d.message
      stop { sc with approval := some c }
  | none => goOn sc

/-- `csrFail.Reconcile`. -/
def csrFail : Step := fun sc =>
  match sc.denial with
  | some d =>
    if hasCondition sc.object .approved then do
      let c ← condition .failed d.reason
        ("Approved, but failed a check, so it is not signed: " ++ d.message)
      stop { sc with failure := some c }
    else goOn sc
  | none => goOn sc

/-- `csrApprove.Reconcile`. -/
def csrApprove : Step := fun sc =>
  if sc.denial.isSome || hasCondition sc.object .approved then goOn sc
  else do
    let c ← condition .approved "ExecAgentOwnNode"
      "The Exec Agent requested a certificate for its own Node"
    goOn { sc with approval := some c }

/-! ## 4. Signing -/

/-- `backdate`. -/
def backdate : Duration := 5 * 60 * second

/-- `loadCA`. -/
def loadCA (secret : CASecret) : Except String CACertificate :=
  match X.parseCertsPEM secret.tlsCrt with
  | .error e => .error ("parsing tls.crt: " ++ e)
  | .ok (cert, _) =>
    if !cert.isCA then .error "the first certificate in tls.crt is not a CA"
    else
      match X.parsePrivateKeyPEM secret.tlsKey with
      | .error e => .error ("parsing tls.key: " ++ e)
      | .ok false => .error "the key in tls.key cannot sign"
      | .ok true => .ok cert

/-- `certificateDuration`. -/
def certificateDuration (csr : CertificateSigningRequest) (maxDuration : Duration) : Duration :=
  match csr.spec.expirationSeconds with
  | some s => min maxDuration (s * second)
  | none => maxDuration

/-- `x509Usages`. -/
def x509Usages : List KeyUsage → X509Usages → List ExtKeyUsage →
    Except String (X509Usages × List ExtKeyUsage)
  | [], ku, eku => .ok (ku, eku)
  | u :: us, ku, eku =>
    if u = usageDigitalSignature then x509Usages us { ku with digitalSignature := true } eku
    else if u = usageKeyEncipherment then x509Usages us { ku with keyEncipherment := true } eku
    else if u = usageServerAuth then x509Usages us ku (eku ++ [.serverAuth])
    else if u = usageClientAuth then x509Usages us ku (eku ++ [.clientAuth])
    else .error ("the key usage " ++ quote u ++ " is not issued")

/-- The template of `sign`. -/
def template (ca : CACertificate) (serial : Nat) (ku : X509Usages) (eku : List ExtKeyUsage)
    (req : CertificateRequest) (node : String) (now : Time) (d : Duration) : Certificate where
  serialNumber := serial
  commonName := node
  notBefore := if now - backdate < ca.notBefore then ca.notBefore else now - backdate
  notAfter := if ca.notAfter < now + d then ca.notAfter else now + d
  keyUsage := ku
  extKeyUsage := eku
  dnsNames := req.dnsNames
  ipAddresses := req.ipAddresses
  uris := req.uris
  emailAddresses := req.emailAddresses

/-- `signingCA.sign`. -/
def sign (ca : CACertificate) (req : CertificateRequest) (node : String) (usages : List KeyUsage)
    (now : Time) (d : Duration) : CsrM (Except String Certificate) := do
  if ca.notAfter ≤ now then pure (.error ("the CA expired at " ++ rfc3339 ca.notAfter))
  else
    match ← ask .randInt with
    | .error e => pure (.error e)
    | .ok serial =>
      match x509Usages usages {} [] with
      | .error e => pure (.error e)
      | .ok (ku, eku) => ask (.createCertificate (template ca serial ku eku req node now d))

/-- The CA Secret of a signer. -/
def caSecretKey (signer : String) : ObjectKey :=
  ⟨cfg.namespace_, if signer = clientSigner then cfg.clientCASecret else cfg.servingCASecret⟩

/-- `csrSign.Reconcile`. -/
def csrSign : Step := fun sc =>
  if sc.denial.isSome then goOn sc
  else do
    let csr := sc.object
    let key := caSecretKey cfg csr.spec.signerName
    match ← ask (.getCA key) with
    | .error e => failed sc ("reading CA Secret " ++ key.string ++ ": " ++ e.text)
    | .ok secret =>
      match loadCA X secret with
      | .error e => failed sc ("loading CA Secret " ++ key.string ++ ": " ++ e)
      | .ok ca =>
        let now ← ask .now
        match ← sign ca sc.request sc.node csr.spec.usages now
            (certificateDuration csr cfg.maxDuration) with
        | .error e =>
          failed sc ("signing CertificateSigningRequest " ++ csr.name ++ " with CA Secret " ++
            key.string ++ ": " ++ e)
        | .ok cert => goOn { sc with certificate := some cert }

/-- `csrChain`. -/
def csrChain : Chain CsrM CsrScope :=
  Chain.ofSteps
    [csrUndecided, csrNotDenied, csrReview X cfg, csrDeny, csrFail, csrApprove, csrSign X cfg]

end Review

/-! ## 5. The write -/

/-- The error of a write that sets a condition. -/
def conditionError (t : ConditionType) (csr : CertificateSigningRequest) (e : ApiError) : String :=
  "setting condition " ++ t.text ++ " on CertificateSigningRequest " ++ csr.name ++ ": " ++ e.text

/-- The request with a condition more. -/
def CertificateSigningRequest.plus (csr : CertificateSigningRequest) (c : Condition) :
    CertificateSigningRequest :=
  { csr with conditions := csr.conditions ++ [c] }

/-- `csrScope.writePin`. -/
def writePin (cm : ConfigMap) : CsrM (Option String) := do
  if cm.resourceVersion = 0 then
    match ← ask (.createPins cm) with
    | .error e => pure (some ("creating ConfigMap " ++ cm.key.string ++ ": " ++ e.text))
    | .ok _ => pure none
  else
    match ← ask (.updatePins cm) with
    | .error e => pure (some ("updating ConfigMap " ++ cm.key.string ++ ": " ++ e.text))
    | .ok _ => pure none

/-- The certificate, on the request as it was last read or written. -/
def writeCertificate (csr : CertificateSigningRequest) (cert : Certificate) :
    CsrM (Option String) := do
  match ← ask (.updateStatus { csr with certificate := some cert }) with
  | .error e =>
    pure (some ("writing the certificate of CertificateSigningRequest " ++ csr.name ++ ": " ++
      e.text))
  | .ok _ => pure none

/-- The second half of `csrScope.write`: a Failed condition, or the pin and the certificate. -/
def writeStatus (sc : CsrScope) (csr : CertificateSigningRequest) : CsrM (Option String) :=
  match sc.failure with
  | some c => do
      match ← ask (.updateStatus (csr.plus c)) with
      | .error e => pure (some (conditionError c.type csr e))
      | .ok _ => pure none
  | none =>
    match sc.certificate with
    | none => pure none
    | some cert =>
      match sc.pin with
      | none => writeCertificate csr cert
      | some cm => do
          match ← writePin cm with
          | some e => pure (some e)
          | none => writeCertificate csr cert

/-- `csrScope.write`. -/
def write (sc : CsrScope) : CsrM (Option String) :=
  match sc.approval with
  | none => writeStatus sc sc.object
  | some c => do
      match ← ask (.updateApproval (sc.object.plus c)) with
      | .error e => pure (some (conditionError c.type sc.object e))
      | .ok csr =>
        if c.type = .denied then pure none
        -- the request as it is stored now
        else if !hasCondition csr .approved || hasCondition csr .denied then pure none
        else writeStatus sc csr

/-- `CertificateSigningRequestReconciler.Reconcile`: when to come back, and the error. -/
def reconcile (X : X509) (cfg : SignerConfig) (name : String) :
    CsrM (Duration × Option String) := do
  match ← ask (.get name) with
  | .error e => pure (0, if e.isNotFound then none else some e.text)
  | .ok csr =>
    let o ← (csrChain X cfg).run { object := csr }
    let werr ← write o.scope
    match joinErrors (o.err.toList ++ werr.toList) with
    | some e => pure (0, some e)
    | none => pure (o.result.requeueAfter, none)

end BatteryOperator.Csr
