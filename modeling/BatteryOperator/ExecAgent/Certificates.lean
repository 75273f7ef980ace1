/-
  Subject:   How the Exec Agent renews its certificates and writes flintlockd's serving pair to
             the Host (internal/execagent/certificates.go).

  One goroutine obtains the certificates and then keeps them renewed. Every call of it is one
  operation that may fail, before or after it took effect, and the agent may crash between any two.

  * A key is the number under which it was generated, so every renewal has a key of its own, and
    a certificate block is what `x509.ParseCertificate` reads of it: the key it is for.
  * A temporary file is told apart by a number, and a rename replaces a file at once.
  * When a certificate is due, and what the API server, the signer and `x509.Verify` answer, is
    open. `obtain` is made of the same steps as the rounds of `keepRenewed`, which are kept.
-/
import BatteryOperator.Csr.Review
import BatteryOperator.Lib.Program

namespace BatteryOperator.ExecAgent.Certificates

open Lib Csr

/-! ## 1. Files and certificates -/

/-- `certKind`. -/
inductive CertKind where
  | flintlockdServing
  | flintlockdClient
  | agentServing
  deriving DecidableEq

/-- The signer each certificate is requested from. -/
def CertKind.signer : CertKind → String
  | .flintlockdServing => servingSigner
  | .flintlockdClient => clientSigner
  | .agentServing => execAgentServingSigner

def certKinds : List CertKind := [.flintlockdServing, .flintlockdClient, .agentServing]

/-- The files the agent writes for flintlockd. -/
inductive HostFile where
  | cert
  | key
  | clientCA
  deriving DecidableEq

/-- `FlintlockdCertFile`, `FlintlockdKeyFile`, `FlintlockdClientCAFile`. -/
def HostFile.name : HostFile → String
  | .cert => "tls.crt"
  | .key => "tls.key"
  | .clientCA => "client-ca.crt"

/-- A certificate block: the key it is for, or why it cannot be parsed. -/
inductive Block where
  | leaf (key : Nat)
  | unparsable (text : String)
  deriving DecidableEq

/-- What a file holds: a private key, a certificate chain, a CA bundle, or no whole text. -/
inductive Data where
  | privateKey (key : Nat)
  | chain (blocks : List Block)
  | bundle (text : String)
  | incomplete
  deriving DecidableEq

/-- The key of a chain's first certificate. -/
def leafKey : List Block → Option Nat
  | .leaf key :: _ => some key
  | _ => none

/-- A file with its mode. -/
structure Stored where
  mode : Nat
  data : Data
  deriving DecidableEq

/-! ## 2. The code -/

/-- What the agent's code does outside its own variables. -/
inductive Op where
  | refreshCAs
  | clientCAPEM
  | due (k : CertKind)
  | generateKey
  | createCertificateRequest (key : Nat)
  | createRequest (k : CertKind) (key : Nat)
  | awaitSigned (name : String)
  /-- `leaf.Verify`, and that the certificate names what was asked for. -/
  | verify (k : CertKind) (chain : List Block)
  | set (k : CertKind) (chain : List Block)
  | readFile (f : HostFile)
  | mkdirAll
  | createTemp (f : HostFile)
  | chmod (tmp mode : Nat)
  | write (tmp : Nat) (data : Data)
  | sync (tmp : Nat)
  | close (tmp : Nat)
  | rename (tmp : Nat) (f : HostFile)
  | remove (tmp : Nat)
  deriving DecidableEq

abbrev Op.Ans : Op → Type
  | .refreshCAs => Except String Unit
  | .clientCAPEM => String
  | .due _ => Bool
  | .generateKey => Except String Nat
  | .createCertificateRequest _ => Except String Unit
  | .createRequest _ _ => Except String String
  | .awaitSigned _ => Except String (List Block)
  | .verify _ _ => Except String Unit
  | .set _ _ => Unit
  | .readFile _ => Except String Data
  | .mkdirAll => Except String Unit
  | .createTemp _ => Except String Nat
  | .chmod _ _ => Except String Unit
  | .write _ _ => Except String Unit
  | .sync _ => Except String Unit
  | .close _ => Except String Unit
  | .rename _ _ => Except String Unit
  | .remove _ => Unit

abbrev Code := Prog Op Op.Ans

def ask (o : Op) : Code o.Ans := Prog.call o

/-- The deferred part of `writeAtomic` after a failure: the temporary file is closed and removed. -/
def discard (tmp : Nat) (f : HostFile) (e : String) : Code (Option String) := do
  let _ ← ask (.close tmp)
  ask (.remove tmp)
  pure (some ("writing " ++ f.name ++ ": " ++ e))

/-- `writeAtomic` once there is a temporary file: its mode, its data, and the rename. -/
def replace (tmp : Nat) (f : HostFile) (data : Data) (mode : Nat) : Code (Option String) := do
  match ← ask (.chmod tmp mode) with
  | .error e => discard tmp f e
  | .ok _ =>
  match ← ask (.write tmp data) with
  | .error e => discard tmp f e
  | .ok _ =>
  match ← ask (.sync tmp) with
  | .error e => discard tmp f e
  | .ok _ =>
  match ← ask (.close tmp) with
  | .error e => discard tmp f e
  | .ok _ =>
  match ← ask (.rename tmp f) with
  | .error e => discard tmp f e
  | .ok _ => pure none

/-- `writeAtomic`, in the directory `dir`. -/
def writeAtomic (dir : String) (f : HostFile) (data : Data) (mode : Nat) :
    Code (Option String) := do
  match ← ask .mkdirAll with
  | .error e => pure (some ("creating " ++ dir ++ ": " ++ e))
  | .ok _ =>
  match ← ask (.createTemp f) with
  | .error e => pure (some ("writing " ++ f.name ++ ": " ++ e))
  | .ok tmp => replace tmp f data mode

/-- `writeFlintlockdServing`: the key first. -/
def writeFlintlockdServing (dir : String) (chain : List Block) (key : Nat) :
    Code (Option String) := do
  match ← writeAtomic dir .key (.privateKey key) 0o600 with
  | some e => pure (some e)
  | none => writeAtomic dir .cert (.chain chain) 0o644

/-- `writeClientCA`: the bundle is replaced when it differs from the one on the Host. -/
def writeClientCA (dir : String) : Code (Option String) := do
  let bundle ← ask .clientCAPEM
  let old ← ask (.readFile .clientCA)
  if old.toOption = some (.bundle bundle) then pure none
  else writeAtomic dir .clientCA (.bundle bundle) 0o644

/-- `check`: refuses a chain unless it is for `key`, verifies and names what was asked for. -/
def check (k : CertKind) (chain : List Block) (key : Nat) : Code (Except String Unit) := do
  match chain with
  | [] => pure (.error "no certificate")
  | .unparsable e :: _ => pure (.error e)
  | .leaf pub :: rest =>
    if pub ≠ key then pure (.error "it is not for the key the agent generated")
    else ask (.verify k (.leaf pub :: rest))

/-- The end of `renew`: a certificate that was checked is put in use. -/
def install (dir : String) (k : CertKind) (chain : List Block) (key : Nat) :
    Code (Option String) := do
  if k = .flintlockdServing then
    match ← writeFlintlockdServing dir chain key with
    | some e => pure (some e)
    | none =>
      ask (.set k chain)
      pure none
  else
    ask (.set k chain)
    pure none

/-- `renew`: requests a new certificate of kind `k`, waits until it is signed, checks it and puts
    it in use. -/
def renew (dir : String) (k : CertKind) : Code (Option String) := do
  match ← ask .generateKey with
  | .error e => pure (some ("generating a key: " ++ e))
  | .ok key =>
  match ← ask (.createCertificateRequest key) with
  | .error e => pure (some ("creating a certificate request: " ++ e))
  | .ok _ =>
  match ← ask (.createRequest k key) with
  | .error e =>
    pure (some ("creating a CertificateSigningRequest for " ++ k.signer ++ ": " ++ e))
  | .ok name =>
  match ← ask (.awaitSigned name) with
  | .error e => pure (some e)
  | .ok chain =>
  match ← check k chain key with
  | .error e => pure (some ("the certificate of CertificateSigningRequest " ++ name ++ ": " ++ e))
  | .ok _ => install dir k chain key

/-- A certificate is renewed if it is due. -/
def renewDue (dir : String) (_ : Unit) (k : CertKind) : Code Unit := do
  if ← ask (.due k) then
    let _ ← renew dir k
    pure ()
  else pure ()

/-- One round of `keepRenewed`: the published CA certificates are read and flintlockd's bundle is
    written, then each certificate that is due is renewed. -/
def keepRenewed (dir : String) : Code Unit := do
  match ← ask .refreshCAs with
  | .error _ => pure ()
  | .ok _ =>
    let _ ← writeClientCA dir
    pure ()
  certKinds.foldlM (renewDue dir) ()

/-! ## 3. The Host -/

/-- The Host's files, and what the agent holds in memory. -/
structure Host where
  files : HostFile → Option Stored
  temps : Nat → Option Stored
  nextTemp : Nat
  nextKey : Nat
  /-- `clientCAPEM`. -/
  bundle : String
  held : CertKind → Option (List Block)

/-- How an operation ends: it succeeds, it succeeds with a value the world gives, or it fails
    after or before it took effect. -/
inductive Choice where
  | ok
  | text (value : String)
  | signed (chain : List Block)
  | fails (applied : Bool) (text : String)
  deriving DecidableEq

/-- The answer and the state of an operation that has an effect. -/
def Choice.apply {α : Type} (value : α) (done s : Host) : Choice → Option (Except String α × Host)
  | .ok => some (.ok value, done)
  | .fails true e => some (.error e, done)
  | .fails false e => some (.error e, s)
  | _ => none

/-- The answer of an operation that has none. -/
def Choice.answer {α : Type} (value : α) (s : Host) (f : Choice) :
    Option (Except String α × Host) := f.apply value s s

/-- A rename: the file is the temporary one from now on. -/
def Host.renamed (s : Host) (tmp : Nat) (f : HostFile) : Host :=
  match s.temps tmp with
  | none => s
  | some file =>
    { s with
      files := Function.update s.files f (some file)
      temps := Function.update s.temps tmp none }

/-- A temporary file after a change. -/
def Host.changed (s : Host) (tmp : Nat) (change : Stored → Stored) : Host :=
  { s with temps := Function.update s.temps tmp ((s.temps tmp).map change) }

/-- One operation of the agent. -/
def exec (f : Choice) : (o : Op) → Host → Option (o.Ans × Host)
  | .refreshCAs, s =>
    match f with
    | .text bundle => some (.ok (), { s with bundle := bundle })
    | .fails _ e => some (.error e, s)
    | _ => none
  | .clientCAPEM, s => some (s.bundle, s)
  | .due _, s => some (f = .ok, s)
  | .generateKey, s => f.apply s.nextKey { s with nextKey := s.nextKey + 1 } s
  | .createCertificateRequest _, s => f.answer () s
  | .createRequest _ _, s =>
    match f with
    | .text name => some (.ok name, s)
    | .fails _ e => some (.error e, s)
    | _ => none
  | .awaitSigned _, s =>
    match f with
    | .signed chain => some (.ok chain, s)
    | .fails _ e => some (.error e, s)
    | _ => none
  | .verify _ _, s => f.answer () s
  | .set k chain, s => some ((), { s with held := Function.update s.held k (some chain) })
  | .readFile file, s =>
    match f, s.files file with
    | .ok, some stored => some (.ok stored.data, s)
    | .ok, none => some (.error "no such file or directory", s)
    | .fails _ e, _ => some (.error e, s)
    | _, _ => none
  | .mkdirAll, s => f.answer () s
  | .createTemp _, s =>
    f.apply s.nextTemp
      { s with
        temps := Function.update s.temps s.nextTemp (some ⟨0o600, .incomplete⟩)
        nextTemp := s.nextTemp + 1 } s
  | .chmod tmp mode, s => f.apply () (s.changed tmp fun file => { file with mode := mode }) s
  | .write tmp data, s => f.apply () (s.changed tmp fun file => { file with data := data }) s
  | .sync _, s => f.answer () s
  | .close _, s => f.answer () s
  | .rename tmp file, s => f.apply () (s.renamed tmp file) s
  | .remove tmp, s =>
    match f with
    | .fails false _ => some ((), s)
    | _ => some ((), { s with temps := Function.update s.temps tmp none })

/-- The agent of one Host. A crash leaves the Host's files and nothing of the memory. -/
def machine (dir : String) : Machine Unit Choice Empty Op Op.Ans Host where
  exec _ := exec
  env a := nomatch a
  prog _ := keepRenewed dir
  crash s := { s with held := fun _ => none }

/-- A Host on which nothing was written yet. -/
def fresh : World Unit Op Op.Ans Host where
  shared :=
    { files := fun _ => none, temps := fun _ => none, nextTemp := 0, nextKey := 0, bundle := ""
      held := fun _ => none }
  running _ := none

/-- The worlds an agent reaches on a fresh Host. -/
def Reachable (dir : String) (w : World Unit Op Op.Ans Host) : Prop :=
  (machine dir).Run (fun _ _ => True) fresh w

end BatteryOperator.ExecAgent.Certificates
