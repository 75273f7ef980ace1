/-
  Subject:   What a CertificateSigningRequest has to satisfy (internal/controller/csr_review.go,
             internal/hostcert/hostcert.go and internal/controller/signer_config.go).

  The PEM and X.509 codecs are parameters (`X509`): nothing is assumed about them here. Of a parsed
  request the model has its subject alternative names, with each URI as its text, and of an object
  of the API server what the signer reads.
-/
import BatteryOperator.Claim.Scope
import BatteryOperator.Lib.Dict
import BatteryOperator.Lib.IpAddress
import BatteryOperator.Text

namespace BatteryOperator.Csr

open Lib

/-! ## 1. Signer names and identities -/

/-- `ServingSigner`. -/
def servingSigner : String := "battery.liquidmetal-x.dev/flintlockd-serving"

/-- `ClientSigner`. -/
def clientSigner : String := "battery.liquidmetal-x.dev/flintlockd-client"

/-- `ExecAgentServingSigner`. -/
def execAgentServingSigner : String := "battery.liquidmetal-x.dev/exec-agent-serving"

/-- `NodeNameExtra`. -/
def nodeNameExtra : String := "authentication.kubernetes.io/node-name"

/-- `HostID`. -/
def hostID (trustDomain node : String) : String :=
  "spiffe://" ++ trustDomain ++ "/flintlock/host/" ++ node

/-- `ExecAgentID`. -/
def execAgentID (trustDomain node : String) : String :=
  "spiffe://" ++ trustDomain ++ "/flintlock/client/exec-agent/" ++ node

/-- `isOurSigner`. -/
def isOurSigner (name : String) : Bool :=
  name = servingSigner || name = clientSigner || name = execAgentServingSigner

/-- One of the two signers of serving certificates. -/
def isServing (name : String) : Bool := name = servingSigner || name = execAgentServingSigner

/-- `SignerConfig`. -/
structure SignerConfig where
  trustDomain : String
  maxDuration : Duration
  namespace_ : String
  servingCASecret : String
  clientCASecret : String
  execAgentNamespace : String
  execAgentServiceAccount : String
  deriving DecidableEq

/-- `execAgentUsername`. -/
def SignerConfig.execAgentUsername (c : SignerConfig) : String :=
  "system:serviceaccount:" ++ c.execAgentNamespace ++ ":" ++ c.execAgentServiceAccount

/-! ## 2. Objects -/

/-- `certificatesv1.KeyUsage`: any text, of which these four are the signers'. -/
abbrev KeyUsage := String

def usageDigitalSignature : KeyUsage := "digital signature"
def usageKeyEncipherment : KeyUsage := "key encipherment"
def usageServerAuth : KeyUsage := "server auth"
def usageClientAuth : KeyUsage := "client auth"

/-- `RequestConditionType`. -/
inductive ConditionType where
  | approved
  | denied
  | failed
  | other (name : String)
  deriving DecidableEq

/-- A condition type as it is printed. -/
def ConditionType.text : ConditionType → String
  | .approved => "Approved"
  | .denied => "Denied"
  | .failed => "Failed"
  | .other name => name

/-- `corev1.ConditionStatus`. -/
inductive ConditionStatus where
  | isTrue
  | isFalse
  | unknown
  deriving DecidableEq

/-- `CertificateSigningRequestCondition`. -/
structure Condition where
  type : ConditionType
  status : ConditionStatus
  reason : String
  message : String
  lastUpdateTime : Time
  deriving DecidableEq

/-- `CertificateSigningRequestSpec`. -/
structure RequestSpec where
  request : List UInt8
  signerName : String
  expirationSeconds : Option Int
  usages : List KeyUsage
  username : String
  extra : Dict String (List String)

/-- `x509.CertificateRequest`. -/
structure CertificateRequest where
  dnsNames : List String
  emailAddresses : List String
  ipAddresses : List IP
  uris : List String
  deriving DecidableEq

/-- The key usages of a certificate. -/
structure X509Usages where
  digitalSignature : Bool := false
  keyEncipherment : Bool := false
  deriving DecidableEq

/-- `x509.ExtKeyUsage`. -/
inductive ExtKeyUsage where
  | serverAuth
  | clientAuth
  deriving DecidableEq

/-- `x509.Certificate`, as it is issued. -/
structure Certificate where
  serialNumber : Nat
  commonName : String
  notBefore : Time
  notAfter : Time
  keyUsage : X509Usages
  extKeyUsage : List ExtKeyUsage
  dnsNames : List String
  ipAddresses : List IP
  uris : List String
  emailAddresses : List String
  deriving DecidableEq

/-- `CertificateSigningRequest`. -/
structure CertificateSigningRequest where
  name : String
  uid : Nat
  resourceVersion : Nat
  spec : RequestSpec
  conditions : List Condition
  certificate : Option Certificate

/-- `hasCondition`: a condition of that type that is not False. -/
def hasCondition (csr : CertificateSigningRequest) (t : ConditionType) : Bool :=
  csr.conditions.any fun c => c.type = t && c.status ≠ .isFalse

/-- `corev1.NodeAddressType`. -/
inductive NodeAddressType where
  | internalIP
  | other (name : String)
  deriving DecidableEq

/-- A Node, as far as the signer reads it. -/
structure Node where
  name : String
  addresses : List (NodeAddressType × String)
  deriving DecidableEq

/-! ## 3. The codecs -/

/-- `pem.Block`. -/
structure PemBlock where
  type : String
  bytes : List UInt8
  deriving DecidableEq

/-- A CA certificate, as far as signing reads it. -/
structure CACertificate where
  isCA : Bool
  notBefore : Time
  notAfter : Time
  deriving DecidableEq

/-- The functions of `encoding/pem`, `crypto/x509`, `util/cert` and `util/keyutil` that the signer
    calls. `ParseCertsPEM` finds at least one certificate, or fails. -/
structure X509 where
  pemDecode : List UInt8 → Option (PemBlock × List UInt8)
  parseCertificateRequest : List UInt8 → Except String CertificateRequest
  /-- `CheckSignature`: the error, if the signature does not verify. -/
  checkSignature : CertificateRequest → Option String
  parseCertsPEM : List UInt8 → Except String (CACertificate × List CACertificate)
  /-- `ParsePrivateKeyPEM`: whether the key is a `crypto.Signer`. -/
  parsePrivateKeyPEM : List UInt8 → Except String Bool

/-! ## 4. The checks -/

/-- `denial`. -/
structure Denial where
  reason : String
  message : String
  deriving DecidableEq

def reasonRequester : String := "RequesterNotExecAgent"
def reasonNodeName : String := "RequesterNodeMissing"
def reasonNodeNotFound : String := "NodeNotFound"
def reasonInvalidRequest : String := "InvalidRequest"
def reasonKeyUsages : String := "KeyUsagesMismatch"
def reasonSubjectAltNames : String := "SubjectAltNamesMismatch"
def reasonSigner : String := "UnknownSignerName"

def serverUsages : List KeyUsage := [usageDigitalSignature, usageKeyEncipherment, usageServerAuth]

def clientAuthUsages : List KeyUsage :=
  [usageDigitalSignature, usageKeyEncipherment, usageClientAuth]

/-- `signerUsages`, of a signer name it does not hold: none. -/
def signerUsages (signer : String) : List KeyUsage :=
  if signer = servingSigner ∨ signer = execAgentServingSigner then serverUsages
  else if signer = clientSigner then clientAuthUsages
  else []

/-- The verb `%v` of a list of texts. -/
def listed (texts : List String) : String := "[" ++ " ".intercalate texts ++ "]"

/-- `slices.Compact`. -/
def compact : List String → List String
  | [] => []
  | [a] => [a]
  | a :: b :: l => if a = b then compact (b :: l) else a :: compact (b :: l)

/-- `sameUsages`. -/
def sameUsages (got want : List KeyUsage) : Bool :=
  let g := compact (got.insertionSort (· ≤ ·))
  g.length = got.length && g = want.insertionSort (· ≤ ·)

/-- `parseRequest`. -/
def parseRequest (X : X509) (data : List UInt8) : Except String CertificateRequest :=
  match X.pemDecode data with
  | none => .error "the request is not a PEM CERTIFICATE REQUEST"
  | some (block, rest) =>
    if block.type ≠ "CERTIFICATE REQUEST" then
      .error "the request is not a PEM CERTIFICATE REQUEST"
    else if rest ≠ [] ∧ (X.pemDecode rest).isSome then
      .error "the request holds more than one PEM block"
    else
      match X.parseCertificateRequest block.bytes with
      | .error e => .error ("the request does not parse: " ++ e)
      | .ok req =>
        match X.checkSignature req with
        | some e => .error ("the request's signature does not verify: " ++ e)
        | none => .ok req

/-- `checkSANs`. -/
def checkSANs (req : CertificateRequest) (uri : String) (ips : List IP) : Option Denial :=
  if req.dnsNames ≠ [] ∨ req.emailAddresses ≠ [] then
    some ⟨reasonSubjectAltNames, "The request names DNS names " ++ listed req.dnsNames ++
      " or email addresses " ++ listed req.emailAddresses ++ ", which are not allowed"⟩
  else if req.uris ≠ [uri] then
    some ⟨reasonSubjectAltNames, "The request names the URIs " ++ listed req.uris ++
      ", not exactly " ++ uri⟩
  else if ips = [] then
    if req.ipAddresses ≠ [] then
      some ⟨reasonSubjectAltNames, "The request names the IP addresses " ++
        listed (req.ipAddresses.map IP.string) ++ ", which are not allowed"⟩
    else none
  else
    match req.ipAddresses with
    | [ip] =>
      if ips.any ip.equal then none
      else some (outside req ips)
    | _ => some (outside req ips)
where
  /-- The address is not one of the Node's. -/
  outside (req : CertificateRequest) (ips : List IP) : Denial :=
    ⟨reasonSubjectAltNames, "The request names the IP addresses " ++
      listed (req.ipAddresses.map IP.string) ++
      ", not exactly one of the Node's internal addresses " ++ listed (ips.map IP.string)⟩

/-- The addresses `internalAddresses` finds on a Node. -/
def internalIPs (node : Node) : List IP :=
  node.addresses.filterMap fun a => if a.1 = .internalIP then parseIP a.2 else none

/-! ## 5. What the checks say -/

theorem compact_length_le (l : List String) : (compact l).length ≤ l.length := by
  induction l using compact.induct with
  | case1 | case2 => exact Nat.le_refl _
  | case3 b l ih =>
    rw [compact, if_pos rfl]
    exact Nat.le_trans ih (Nat.le_succ _)
  | case4 a b l hne ih =>
    rw [compact, if_neg hne, List.length_cons, List.length_cons]
    omega

/-- Nothing is dropped exactly if nothing stands twice in a row. -/
theorem compact_eq_of_length {l : List String} (h : (compact l).length = l.length) :
    compact l = l := by
  induction l using compact.induct with
  | case1 => rfl
  | case2 a => rfl
  | case3 b l ih =>
    rw [compact, if_pos rfl, List.length_cons] at h
    have hle := compact_length_le (b :: l)
    omega
  | case4 a b l hne ih =>
    rw [compact, if_neg hne, List.length_cons, List.length_cons] at h
    rw [compact, if_neg hne, ih (Nat.succ.inj h)]

/-- **The usages are the wanted ones, in any order.** -/
theorem perm_of_sameUsages {got want : List KeyUsage} (h : sameUsages got want = true) :
    got.Perm want := by
  simp only [sameUsages, Bool.and_eq_true, decide_eq_true_eq] at h
  obtain ⟨hlen, heq⟩ := h
  rw [← (List.perm_insertionSort (· ≤ ·) got).length_eq] at hlen
  rw [compact_eq_of_length hlen] at heq
  exact (List.perm_insertionSort (· ≤ ·) got).symm.trans
    (heq ▸ List.perm_insertionSort (· ≤ ·) want)

theorem compact_eq_self {l : List String} (h : l.Nodup) : compact l = l := by
  induction l using compact.induct with
  | case1 => rfl
  | case2 a => rfl
  | case3 b l ih => exact absurd h (by simp)
  | case4 a b l hne ih => rw [compact, if_neg hne, ih (List.nodup_cons.mp h).2]

/-- A signer's usages, in any order, are the wanted ones. -/
theorem sameUsages_of_perm {got want : List KeyUsage} (hnd : want.Nodup) (h : got.Perm want) :
    sameUsages got want = true := by
  have hsorted : got.insertionSort (· ≤ ·) = want.insertionSort (· ≤ ·) := by
    apply List.Perm.eq_of_pairwise' (r := (· ≤ ·))
    · exact List.pairwise_insertionSort (· ≤ ·) got
    · exact List.pairwise_insertionSort (· ≤ ·) want
    · exact ((List.perm_insertionSort (· ≤ ·) got).trans h).trans
        (List.perm_insertionSort (· ≤ ·) want).symm
  have hnd' : (want.insertionSort (· ≤ ·)).Nodup :=
    (List.perm_insertionSort (· ≤ ·) want).nodup_iff.mpr hnd
  simp only [sameUsages, Bool.and_eq_true, decide_eq_true_eq]
  rw [hsorted, compact_eq_self hnd']
  exact ⟨by rw [(List.perm_insertionSort (· ≤ ·) want).length_eq, h.length_eq], rfl⟩

theorem signerUsages_nodup (signer : String) : (signerUsages signer).Nodup := by
  unfold signerUsages
  split
  · decide
  · split
    · decide
    · exact List.nodup_nil

/-- **The key usages are exactly the signer's.** -/
theorem sameUsages_iff {got : List KeyUsage} {signer : String} :
    sameUsages got (signerUsages signer) = true ↔ got.Perm (signerUsages signer) :=
  ⟨perm_of_sameUsages, sameUsages_of_perm (signerUsages_nodup signer)⟩

/-- **What `checkSANs` lets pass.** -/
theorem checkSANs_eq_none {req : CertificateRequest} {uri : String} {ips : List IP} :
    checkSANs req uri ips = none ↔ req.dnsNames = [] ∧ req.emailAddresses = [] ∧
      req.uris = [uri] ∧ (ips = [] → req.ipAddresses = []) ∧
      (ips ≠ [] → ∃ ip, req.ipAddresses = [ip] ∧ ∃ x ∈ ips, ip.equal x = true) := by
  unfold checkSANs
  split
  next hd =>
    refine ⟨nofun, fun h => ?_⟩
    rcases hd with hd | hd
    · exact absurd h.1 hd
    · exact absurd h.2.1 hd
  next hd =>
    simp only [not_or, ne_eq, not_not] at hd
    split
    next hu => exact ⟨nofun, fun h => absurd h.2.2.1 hu⟩
    next hu =>
      rw [not_not] at hu
      split
      next hi =>
        split
        next hr => exact ⟨nofun, fun h => absurd (h.2.2.2.1 hi) hr⟩
        next hr =>
          exact ⟨fun _ => ⟨hd.1, hd.2, hu, fun _ => not_not.mp hr, absurd hi⟩, fun _ => rfl⟩
      next hi =>
        split
        next ip hip =>
          split
          next ha =>
            exact ⟨fun _ => ⟨hd.1, hd.2, hu, (absurd · hi), fun _ =>
              ⟨ip, hip, List.any_eq_true.mp ha⟩⟩, fun _ => rfl⟩
          next ha =>
            refine ⟨nofun, fun h => ?_⟩
            obtain ⟨ip', hone, hx⟩ := h.2.2.2.2 hi
            cases hip.symm.trans hone
            exact absurd (List.any_eq_true.mpr hx) ha
        next hne =>
          refine ⟨nofun, fun h => ?_⟩
          obtain ⟨ip, hone, _⟩ := h.2.2.2.2 hi
          exact absurd hone (hne ip)

/-- **A single well-formed request that is signed with its own key.** -/
structure WellFormed (X : X509) (data : List UInt8) (req : CertificateRequest) : Prop where
  single : ∃ block rest, X.pemDecode data = some (block, rest) ∧
    block.type = "CERTIFICATE REQUEST" ∧ (rest = [] ∨ X.pemDecode rest = none) ∧
    X.parseCertificateRequest block.bytes = .ok req
  signed : X.checkSignature req = none

/-- What `parseRequest` accepts. -/
theorem parseRequest_eq_ok {X : X509} {data : List UInt8} {req : CertificateRequest} :
    parseRequest X data = .ok req ↔ WellFormed X data req := by
  unfold parseRequest
  constructor
  · intro h
    split at h
    · cases h
    next block rest hpem =>
      split at h
      · cases h
      next htype =>
        split at h
        · cases h
        next hrest =>
          split at h
          · cases h
          next req' hparse =>
            split at h
            · cases h
            next hsig =>
              cases h
              refine ⟨⟨block, rest, hpem, not_not.mp htype, ?_, hparse⟩, hsig⟩
              by_cases hr : rest = []
              · exact .inl hr
              · cases hd : X.pemDecode rest with
                | none => exact .inr rfl
                | some b => exact absurd ⟨hr, by rw [hd]; rfl⟩ hrest
  · rintro ⟨⟨block, rest, hpem, htype, hrest, hparse⟩, hsig⟩
    have hone : ¬ (rest ≠ [] ∧ (X.pemDecode rest).isSome = true) := by
      rintro ⟨hne, hsome⟩
      rcases hrest with h | h
      · exact hne h
      · simp [h] at hsome
    simp only [hpem, htype, ne_eq, not_true_eq_false, if_false, hone, hparse, hsig]

/-- **What the requester's check lets pass**: one Node name, which is not empty. -/
theorem singleNode_iff {extra : Dict String (List String)} {node : String} :
    (extra.lookup nodeNameExtra).getD [] = [node] ↔
      extra.lookup nodeNameExtra = some [node] := by
  cases extra.lookup nodeNameExtra with
  | none | some => simp

end BatteryOperator.Csr
