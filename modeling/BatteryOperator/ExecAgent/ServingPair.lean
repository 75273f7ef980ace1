/-
  Subject:   flintlockd's certificate and key on the Host belong together.

  Only a rename replaces a file, so the argument is about what a rename puts in place (`Fits`): a
  key that the certificate on the Host is not for, or a certificate for the key that is there.

  The pair is the certificate and the key of one renewal at every moment of a run in which no
  `tls.key` is replaced once a certificate stands beside it, and of no other run: between the two
  renames of a later renewal, and after one that ended there, the old certificate stands beside the
  new key.
-/
import BatteryOperator.ExecAgent.Certificates
import BatteryOperator.Lib.RelyGuarantee

namespace BatteryOperator.ExecAgent.Certificates

open Lib Machine

/-! ## 1. What an operation does to the files -/

/-- What the pair on the Host depends on. -/
structure Disk where
  files : HostFile → Option Stored
  nextKey : Nat

def Host.disk (s : Host) : Disk := ⟨s.files, s.nextKey⟩

/-- The data of a temporary file. -/
def Host.content (s : Host) (tmp : Nat) : Option Data := (s.temps tmp).map (·.data)

/-- The private key a file holds. -/
def Data.privateKey? : Data → Option Nat
  | .privateKey key => some key
  | _ => none

/-- The key that the certificate in a file is for. -/
def Data.certFor? : Data → Option Nat
  | .chain blocks => leafKey blocks
  | _ => none

/-- The key in `tls.key`. -/
def Disk.key (d : Disk) : Option Nat := (d.files .key).bind (·.data.privateKey?)

/-- The key that the certificate in `tls.crt` is for. -/
def Disk.certFor (d : Disk) : Option Nat := (d.files .cert).bind (·.data.certFor?)

/-- **The files on the Host are the certificate and the key of one renewal.** -/
def Disk.Matches (d : Disk) : Prop := ∃ m, d.key = some m ∧ d.certFor = some m

/-- The disk after a file was replaced. -/
def Disk.put (d : Disk) (f : HostFile) (file : Stored) : Disk :=
  { d with files := Function.update d.files f (some file) }

variable {f : HostFile} {s s' : Host} {o : Op} {tmp key : Nat} {file : Stored} {d : Disk}
  {chain : List Block} {k : CertKind}

theorem apply_cases {α : Type} {value : α} {done : Host} {f : Choice} {r : Except String α}
    (h : f.apply value done s = some (r, s')) :
    (r = .ok value ∧ s' = done) ∨ (∃ e, r = .error e ∧ (s' = done ∨ s' = s)) := by
  cases f with
  | ok =>
    cases h
    exact .inl ⟨rfl, rfl⟩
  | fails applied e =>
    cases applied with
    | true =>
      cases h
      exact .inr ⟨_, rfl, .inl rfl⟩
    | false =>
      cases h
      exact .inr ⟨_, rfl, .inr rfl⟩
  | text | signed => cases h

theorem answer_state {α : Type} {value : α} {f : Choice} {r : Except String α}
    (h : f.answer value s = some (r, s')) : s' = s := by
  rcases apply_cases h with ⟨_, hs⟩ | ⟨_, _, hs | hs⟩ <;> exact hs

/-- An operation that replaces no file and makes no key. -/
def Op.quiet : Op → Prop
  | .generateKey | .rename _ _ => False
  | _ => True

/-- **Only a rename replaces a file, and only `generateKey` makes a key.** -/
theorem exec_quiet {f : Choice} {r : o.Ans} (h : exec f o s = some (r, s')) (ho : o.quiet) :
    s'.disk = s.disk := by
  cases o with
  | generateKey | rename => exact ho.elim
  | refreshCAs | createRequest | awaitSigned => cases f <;> cases h <;> rfl
  | clientCAPEM | due | set =>
    cases h
    rfl
  | createCertificateRequest | verify | mkdirAll | sync | close => rw [answer_state h]
  | readFile | remove =>
    simp only [exec] at h
    split at h <;> cases h <;> rfl
  | createTemp | chmod | write => rcases apply_cases h with ⟨_, rfl⟩ | ⟨_, _, rfl | rfl⟩ <;> rfl

theorem changed_content (s : Host) (tmp : Nat) (change : Stored → Stored) :
    (s.changed tmp change).temps tmp = (s.temps tmp).map change := by
  simp [Host.changed]

theorem renamed_disk (h : s.temps tmp = some file) :
    (s.renamed tmp f).disk = s.disk.put f file := by
  unfold Host.renamed
  rw [h]
  rfl

/-- What the data of a new file is: a key that the certificate in place is not for, or a certificate
    for the key that is in place. -/
def Fits (d : Disk) : HostFile → Data → Prop
  | .key, data => ∃ m, data.privateKey? = some m ∧ d.certFor ≠ some m
  | .cert, data => ∃ m, data.certFor? = some m ∧ d.key = some m ∧ m < d.nextKey
  | .clientCA, _ => True

/-- The certificate on the Host is for a key that was generated. -/
def Generated (d : Disk) : Prop := ∀ m, d.certFor = some m → m < d.nextKey

theorem certFor_put (d : Disk) (file : Stored) :
    (d.put .cert file).certFor = file.data.certFor? := by
  simp [Disk.certFor, Disk.put]

theorem key_put (d : Disk) (file : Stored) : (d.put .key file).key = file.data.privateKey? := by
  simp [Disk.key, Disk.put]

theorem Generated.put (h : Generated d) (hf : Fits d f file.data) : Generated (d.put f file) := by
  cases f with
  | key | clientCA => exact h
  | cert =>
    obtain ⟨m, hdata, -, hlt⟩ := hf
    intro n hn
    rw [certFor_put, hdata] at hn
    cases hn
    exact hlt

theorem Generated.newKey (h : Generated d) : Generated { d with nextKey := d.nextKey + 1 } :=
  fun m hm => Nat.lt_succ_of_lt (h m hm)

/-! ## 2. Every rename fits -/

/-- A file is renamed only over one that it fits. Nothing but the agent touches the files. -/
def pairSpec : Spec Unit Op Host where
  Inv s := Generated s.disk
  Pre _ o s :=
    match o with
    | .rename tmp f => ∃ data, s.content tmp = some data ∧ Fits s.disk f data
    | _ => True
  Rely _ a b := a = b
  Idle _ _ := True

variable {dir : String} {α β : Type}

/-- The weakest precondition of the agent's code. -/
abbrev PairWp (dir : String) (p : Code α) (Q : α → Host → Prop) (s : Host) : Prop :=
  wp (machine dir) pairSpec () p Q s

theorem pair_stable (P : Host → Prop) : Stable pairSpec () P := by
  intro s s' h hR _
  cases hR
  exact h

theorem pwp_done {Q : α → Host → Prop} {a : α} (h : Q a s) : PairWp dir (pure a) Q s :=
  wp_ret (pair_stable (Q a)) h fun _ _ hq => hq

theorem pwp_seq {R : α → Host → Prop} {Q : β → Host → Prop} {p : Code α} {k : α → Code β}
    (h : PairWp dir p R s) (hk : ∀ a s', R a s' → PairWp dir (k a) Q s') :
    PairWp dir (p >>= k) Q s :=
  wp_seq (fun _ => rfl) h fun a s' _ hr => hk a s' hr

theorem pwp_call {Q : β → Host → Prop} {k : o.Ans → Code β} (hpre : pairSpec.Pre () o s)
    (hk : ∀ f r s', exec f o s = some (r, s') → Generated s'.disk → PairWp dir (k r) Q s') :
    PairWp dir (ask o >>= k) Q s := by
  refine wp_call (P := fun s' => s' = s) (pair_stable _) rfl ?_ ?_
  · intro s' _ he
    rw [he]
    exact hpre
  · intro s' f r s'' _ he hx hI
    rw [he] at hx
    exact hk f r s'' hx hI

/-- An operation that leaves the files alone. -/
theorem pwp_quiet {Q : β → Host → Prop} {k : o.Ans → Code β} (ho : o.quiet)
    (hk : ∀ r s', s'.disk = s.disk → PairWp dir (k r) Q s') : PairWp dir (ask o >>= k) Q s := by
  refine pwp_call ?_ fun f r s' hx _ => hk r s' (exec_quiet hx ho)
  cases o <;> trivial

theorem pwp_discard {e : String} :
    PairWp dir (discard tmp f e) (fun r s' => r ≠ none ∧ s'.disk = s.disk) s := by
  refine pwp_quiet (o := .close tmp) trivial fun _ s1 h1 => ?_
  refine pwp_quiet (o := .remove tmp) trivial fun _ s2 h2 => ?_
  exact pwp_done ⟨Option.some_ne_none _, h2.trans h1⟩

/-- How `writeAtomic` ends: the file was replaced, or it failed and the file was replaced or not. -/
def Written (d : Disk) (f : HostFile) (file : Stored) (r : Option String) (s : Host) : Prop :=
  (r = none → s.disk = d.put f file) ∧ (s.disk = d ∨ s.disk = d.put f file)

theorem written_discard {e : String} (h : s.disk = d ∨ s.disk = d.put f file) :
    PairWp dir (discard tmp f e) (Written d f file) s := by
  refine wp_mono (fun r s' _ hr => ?_) _ pwp_discard
  refine ⟨fun hn => absurd hn hr.1, ?_⟩
  rw [hr.2]
  exact h

theorem pwp_replace {mode : Nat} {data : Data} {old : Stored} (htmp : s.temps tmp = some old)
    (hfits : Fits s.disk f data) :
    PairWp dir (replace tmp f data mode) (Written s.disk f ⟨mode, data⟩) s := by
  refine pwp_call (o := .chmod tmp mode) trivial fun c r s1 h1 _ => ?_
  have d1 : s1.disk = s.disk := exec_quiet h1 trivial
  rcases apply_cases h1 with ⟨rfl, hs1⟩ | ⟨e, rfl, _⟩
  case inr => exact written_discard (.inl d1)
  have t1 : s1.temps tmp = some ⟨mode, old.data⟩ := by
    rw [hs1, changed_content, htmp]
    rfl
  refine pwp_call (o := .write tmp data) trivial fun c r s2 h2 _ => ?_
  have d2 : s2.disk = s.disk := (exec_quiet h2 trivial).trans d1
  rcases apply_cases h2 with ⟨rfl, hs2⟩ | ⟨e, rfl, _⟩
  case inr => exact written_discard (.inl d2)
  have t2 : s2.temps tmp = some ⟨mode, data⟩ := by
    rw [hs2, changed_content, t1]
    rfl
  refine pwp_call (o := .sync tmp) trivial fun c r s3 h3 _ => ?_
  cases answer_state h3
  cases r with
  | error e => exact written_discard (.inl d2)
  | ok u =>
  refine pwp_call (o := .close tmp) trivial fun c r s4 h4 _ => ?_
  cases answer_state h4
  cases r with
  | error e => exact written_discard (.inl d2)
  | ok u =>
  have hput : (s2.renamed tmp f).disk = s.disk.put f ⟨mode, data⟩ := by
    rw [renamed_disk t2, d2]
  have hcontent : s2.content tmp = some data := by
    rw [Host.content, t2]
    rfl
  refine pwp_call (o := .rename tmp f) ⟨data, hcontent, by rw [d2]; exact hfits⟩
    fun c r s5 h5 _ => ?_
  rcases apply_cases h5 with ⟨rfl, hs5⟩ | ⟨e, rfl, hs5 | hs5⟩
  · refine pwp_done ⟨fun _ => ?_, .inr ?_⟩ <;> rw [hs5, hput]
  · exact written_discard (.inr (by rw [hs5, hput]))
  · exact written_discard (.inl (by rw [hs5, d2]))

/-- **`writeAtomic` replaces its file or leaves it.** -/
theorem pwp_writeAtomic {mode : Nat} {data : Data} (hfits : Fits s.disk f data) :
    PairWp dir (writeAtomic dir f data mode) (Written s.disk f ⟨mode, data⟩) s := by
  have failed : ∀ {s' : Host} {e : String}, s'.disk = s.disk →
      Written s.disk f ⟨mode, data⟩ (some e) s' :=
    fun h => ⟨fun hn => absurd hn (Option.some_ne_none _), .inl h⟩
  refine pwp_quiet (o := .mkdirAll) trivial fun r s1 d1 => ?_
  cases r with
  | error e => exact pwp_done (failed d1)
  | ok u =>
  refine pwp_call (o := .createTemp f) trivial fun c r s2 h2 _ => ?_
  have d2 : s2.disk = s.disk := (exec_quiet h2 trivial).trans d1
  rcases apply_cases h2 with ⟨rfl, hs2⟩ | ⟨e, rfl, _⟩
  case inr => exact pwp_done (failed d2)
  have t2 : s2.temps s1.nextTemp = some ⟨0o600, .incomplete⟩ := by
    rw [hs2]
    exact Function.update_self ..
  rw [← d2]
  exact pwp_replace t2 (by rw [d2]; exact hfits)

/-- **The key goes first**, so that the certificate comes to stand beside it. -/
theorem pwp_writeFlintlockdServing (hlt : key < s.nextKey) (hnew : s.disk.certFor ≠ some key)
    (hleaf : leafKey chain = some key) :
    PairWp dir (writeFlintlockdServing dir chain key) (fun _ _ => True) s := by
  refine pwp_seq (pwp_writeAtomic (f := .key) ⟨key, rfl, hnew⟩) fun r s1 h1 => ?_
  cases r with
  | some e => exact pwp_done trivial
  | none =>
    have hd : s1.disk = s.disk.put .key ⟨0o600, .privateKey key⟩ := h1.1 rfl
    refine wp_mono (fun _ _ _ _ => trivial) _ (pwp_writeAtomic ?_)
    rw [hd]
    exact ⟨key, hleaf, key_put .., hlt⟩

theorem pwp_writeClientCA : PairWp dir (writeClientCA dir) (fun _ _ => True) s := by
  refine pwp_quiet (o := .clientCAPEM) trivial fun bundle s1 _ => ?_
  refine pwp_quiet (o := .readFile .clientCA) trivial fun old s2 _ => ?_
  split
  · exact pwp_done trivial
  · exact wp_mono (fun _ _ _ _ => trivial) _ (pwp_writeAtomic (f := .clientCA) trivial)

/-- A chain that passes the check is for the key. -/
theorem pwp_check :
    PairWp dir (check k chain key)
      (fun r s' => s'.disk = s.disk ∧ ((∃ u, r = .ok u) → leafKey chain = some key)) s := by
  have refused : ∀ {e : String}, PairWp dir (pure (.error e) : Code (Except String Unit))
      (fun r s' => s'.disk = s.disk ∧ ((∃ u, r = .ok u) → leafKey chain = some key)) s :=
    pwp_done ⟨rfl, nofun⟩
  unfold check
  split
  · exact refused
  · exact refused
  next pub rest =>
    split
    · exact refused
    next hne =>
      have hleaf : leafKey (.leaf pub :: rest) = some key := congrArg some (not_not.mp hne)
      exact pwp_quiet (o := .verify k (.leaf pub :: rest)) (k := pure) trivial
        fun r s1 d1 => pwp_done ⟨d1, fun _ => hleaf⟩

theorem pwp_install (hlt : key < s.nextKey) (hnew : s.disk.certFor ≠ some key)
    (hleaf : leafKey chain = some key) :
    PairWp dir (install dir k chain key) (fun _ _ => True) s := by
  have hset : ∀ s', PairWp dir (ask (.set k chain) >>= fun _ => pure none)
      (fun (_ : Option String) _ => True) s' :=
    fun s' => pwp_quiet (o := .set k chain) trivial fun _ _ _ => pwp_done trivial
  unfold install
  split
  · refine pwp_seq (pwp_writeFlintlockdServing hlt hnew hleaf) fun r s1 _ => ?_
    cases r with
    | some e => exact pwp_done trivial
    | none => exact hset s1
  · exact hset s

/-- **A renewal puts nothing in place but a new key, and its certificate beside it.** -/
theorem pwp_renew (hI : Generated s.disk) : PairWp dir (renew dir k) (fun _ _ => True) s := by
  refine pwp_call (o := .generateKey) trivial fun c r s1 h1 _ => ?_
  rcases apply_cases h1 with ⟨rfl, hs1⟩ | ⟨e, rfl, _⟩
  case inr => exact pwp_done trivial
  have hdisk : s1.disk = { s.disk with nextKey := s.nextKey + 1 } := by
    rw [hs1]
    rfl
  refine pwp_quiet (o := .createCertificateRequest s.nextKey) trivial fun r s2 d2 => ?_
  cases r with
  | error e => exact pwp_done trivial
  | ok u =>
  refine pwp_quiet (o := .createRequest k s.nextKey) trivial fun r s3 d3 => ?_
  cases r with
  | error e => exact pwp_done trivial
  | ok name =>
  refine pwp_quiet (o := .awaitSigned name) trivial fun r s4 d4 => ?_
  cases r with
  | error e => exact pwp_done trivial
  | ok chain =>
  refine pwp_seq pwp_check fun r s5 h5 => ?_
  cases r with
  | error e => exact pwp_done trivial
  | ok u =>
  have d5 : s5.disk = { s.disk with nextKey := s.nextKey + 1 } := by
    rw [h5.1, d4, d3, d2, hdisk]
  have hlt : s.nextKey < s5.nextKey := by
    have h : s5.nextKey = s.nextKey + 1 := congrArg Disk.nextKey d5
    omega
  have hnew : s5.disk.certFor ≠ some s.nextKey := by
    rw [d5]
    exact fun hm => Nat.lt_irrefl _ (hI _ hm)
  exact pwp_install hlt hnew (h5.2 ⟨u, rfl⟩)

theorem pwp_keepRenewed : PairWp dir (keepRenewed dir) (fun _ _ => True) s := by
  have hround : ∀ k ∈ certKinds, ∀ (b : Unit) (s' : Host), True →
      PairWp dir (renewDue dir b k) (fun _ _ => True) s' := by
    intro k _ b s' _
    refine pwp_call (o := .due k) trivial fun c r s1 hx hI => ?_
    cases r with
    | false => exact pwp_done trivial
    | true => exact pwp_seq (pwp_renew hI) fun _ _ _ => pwp_done trivial
  have hloop : ∀ s', PairWp dir (certKinds.foldlM (renewDue dir) ()) (fun _ _ => True) s' :=
    fun s' => wp_foldlM (fun _ => rfl) (fun _ => pair_stable _) certKinds hround trivial
  refine pwp_quiet (o := .refreshCAs) trivial fun r s1 _ => ?_
  cases r with
  | error e => exact hloop s1
  | ok u => exact pwp_seq pwp_writeClientCA fun _ s2 _ => hloop s2

/-! ## 3. The pair at every moment -/

/-- The operation takes effect, also where it fails then. -/
def Choice.applies : Choice → Bool
  | .fails false _ => false
  | _ => true

/-- **A rename that takes effect** puts what fits in place. -/
theorem exec_rename {f : Choice} {g : HostFile} {r : Except String Unit}
    (hpre : pairSpec.Pre () (.rename tmp g) s) (h : exec f (.rename tmp g) s = some (r, s')) :
    (f.applies = true ∧ ∃ file, Fits s.disk g file.data ∧ s'.disk = s.disk.put g file) ∨
      (f.applies = false ∧ s'.disk = s.disk) := by
  obtain ⟨data, hdata, hfits⟩ := hpre
  obtain ⟨file, htmp, rfl⟩ := Option.map_eq_some_iff.mp hdata
  have done : (s.renamed tmp g).disk = s.disk.put g file := renamed_disk htmp
  cases f with
  | ok =>
    cases h
    exact .inl ⟨rfl, file, hfits, done⟩
  | fails applied e =>
    cases applied with
    | true =>
      cases h
      exact .inl ⟨rfl, file, hfits, done⟩
    | false =>
      cases h
      exact .inr ⟨rfl, rfl⟩
  | text | signed => cases h

/-- **What an operation does to the disk**: nothing, a new key, or a rename that fits. -/
theorem exec_disk {f : Choice} {r : o.Ans} (hpre : pairSpec.Pre () o s)
    (h : exec f o s = some (r, s')) :
    s'.disk = s.disk ∨ s'.disk = { s.disk with nextKey := s.nextKey + 1 } ∨
      ∃ tmp g file, o = .rename tmp g ∧ f.applies = true ∧ Fits s.disk g file.data ∧
        s'.disk = s.disk.put g file := by
  by_cases ho : o.quiet
  · exact .inl (exec_quiet h ho)
  · cases o with
    | generateKey =>
      have hcases := apply_cases h
      rcases hcases with ⟨_, rfl⟩ | ⟨_, _, rfl | rfl⟩
      · exact .inr (.inl rfl)
      · exact .inr (.inl rfl)
      · exact .inl rfl
    | rename tmp g =>
      rcases exec_rename hpre h with ⟨hf, file, hput⟩ | ⟨-, hsame⟩
      · exact .inr (.inr ⟨tmp, g, file, rfl, hf, hput⟩)
      · exact .inl hsame
    | _ => exact absurd trivial ho

theorem exec_generated {f : Choice} {r : o.Ans} (hI : Generated s.disk) (hpre : pairSpec.Pre () o s)
    (h : exec f o s = some (r, s')) : Generated s'.disk := by
  rcases exec_disk hpre h with hd | hd | ⟨_, _, _, -, -, hfits, hd⟩
  · exact hd ▸ hI
  · exact hd ▸ hI.newKey
  · exact hd ▸ hI.put hfits

theorem pair_sound (dir : String) : Sound (machine dir) pairSpec where
  refl _ _ := rfl
  trans _ _ _ _ h1 h2 := h1.trans h2
  idle _ := pair_stable _
  env_inv a := nomatch a
  env_rely _ a := nomatch a
  exec_inv _ _ _ _ _ _ hI hpre hx := exec_generated hI hpre hx
  exec_rely _ _ _ _ _ _ _ hne := absurd rfl hne
  crash_inv _ hI := hI
  crash_idle _ _ _ := trivial
  spawn _ _ _ _ := wp_mono (fun _ _ _ _ => trivial) _ pwp_keepRenewed

theorem fresh_safe : Safe (machine dir) pairSpec fresh :=
  ⟨nofun, fun _ _ => nofun, fun _ _ => trivial⟩

/-- `tls.key` is not replaced while a certificate is in place. -/
def keyKept (f : Choice) (o : Op) (s : Host) : Bool :=
  match o with
  | .rename _ .key => !f.applies || (s.files .cert).isNone
  | _ => true

/-- The step does not replace `tls.key` while a certificate is in place. -/
def keepsKey (w : World Unit Op Op.Ans Host) (a : Act Unit Choice Empty) : Bool :=
  meets (fun _ => keyKept) (fun _ _ => true) w a

/-- No certificate is in place, or a pair. -/
def Disk.Whole (d : Disk) : Prop := d.files .cert = none ∨ d.Matches

/-- A file that fits, put in place while `tls.key` is kept. -/
theorem Disk.Whole.put (h : d.Whole) (hf : Fits d f file.data)
    (hkey : f = .key → d.files .cert = none) : (d.put f file).Whole := by
  cases f with
  | key => exact .inl (hkey rfl)
  | clientCA => exact h
  | cert =>
    obtain ⟨m, hdata, hm, -⟩ := hf
    exact .inr ⟨m, hm, (certFor_put ..).trans hdata⟩

/-- **An operation that keeps `tls.key`** leaves no certificate or a pair, if it found that. -/
theorem exec_whole {f : Choice} {r : o.Ans} (hok : keyKept f o s = true)
    (hpre : pairSpec.Pre () o s) (hw : s.disk.Whole) (h : exec f o s = some (r, s')) :
    s'.disk.Whole := by
  rcases exec_disk hpre h with hd | hd | ⟨tmp, g, file, rfl, hf, hfits, hd⟩
  · exact hd ▸ hw
  · rw [hd]
    exact hw
  · rw [hd]
    refine hw.put hfits fun hg => ?_
    subst hg
    have hnone : s.files .cert = none := by simpa [keyKept, hf] using hok
    exact hnone

/-- **An operation that replaces `tls.key`** leaves another key than the certificate's. -/
theorem exec_unmatched {f : Choice} {r : o.Ans} (hbad : keyKept f o s = false)
    (hpre : pairSpec.Pre () o s) (h : exec f o s = some (r, s')) : ¬ s'.disk.Matches := by
  cases o with
  | rename tmp g =>
    cases g with
    | key =>
      rcases exec_rename hpre h with ⟨-, file, ⟨m, hm, hne⟩, hput⟩ | ⟨hf, -⟩
      · rw [hput]
        rintro ⟨n, hkey, hcert⟩
        rw [key_put, hm] at hkey
        cases hkey
        exact hne hcert
      · simp [keyKept, hf] at hbad
    | cert | clientCA => cases hbad
  | _ => cases hbad

/-- **Once a complete pair was written, the certificate and the key on the Host are of one and the
    same renewal at every moment**, where no step replaces `tls.key` while a certificate is in
    place; and every step that does leaves a pair that does not match. -/
theorem serving_pair_matches (dir : String) :
    (∀ w, (machine dir).Run (fun w a => keepsKey w a) fresh w → w.shared.files .cert ≠ none →
      w.shared.disk.Matches) ∧
    ∀ w a w', Reachable dir w → (machine dir).step w a = some w' → keepsKey w a = false →
      ¬ w'.shared.disk.Matches := by
  constructor
  · intro w hrun hcert
    -- the invariant of the run: a key that is replaced finds no certificate
    have hwhole : w.shared.disk.Whole := by
      refine (pair_sound dir).invariant fresh_safe (C := fun s => s.disk.Whole) (.inl rfl)
        (fun _ e => e.elim) ?_ (fun _ _ hd => hd) hrun
      intro w t f o k r s' hok hr _ hpre hd hx _
      have hkept : keyKept f o w.shared = true := by
        simpa only [keepsKey, meets, hr] using hok
      exact exec_whole hkept hpre hd hx
    exact hwhole.resolve_left hcert
  · intro w a w' hrun hs hbad
    have hsafe := (pair_sound dir).reach fresh_safe hrun
    cases a with
    | env e => cases e
    | spawn | crash => cases hbad
    | exec t f =>
      rcases step_exec hs with ⟨o, k, r, s, hr, hx, rfl⟩ | ⟨hr, -⟩
      · have hbad : keyKept f o w.shared = false := by
          simpa only [keepsKey, meets, hr] using hbad
        exact exec_unmatched hbad (hsafe.safe t _ hr _ rfl hsafe.inv).1 hx
      · simp [keepsKey, meets, hr] at hbad

/-- The choices of a renewal of flintlockd's serving certificate up to its first file: no CA is
    read, and the request is signed for the key. -/
def signing (key : Nat) : List Choice :=
  [.fails false "timeout", .ok, .ok, .ok, .text "exec-agent-host-a", .signed [.leaf key], .ok]

/-- The choices of one `writeAtomic` that succeeds. -/
def replacing : List Choice := List.replicate 7 .ok

/-- A round that renews flintlockd's serving certificate and nothing else. -/
def renewalRound (key : Nat) : List (Act Unit Choice Empty) :=
  .spawn () :: (signing key ++ replacing ++ replacing ++
    ([.ok, .text "not due", .text "not due", .ok] : List Choice)).map (Act.exec ())

/-- The second renewal, up to the rename of its key. -/
def secondRenewal : List (Act Unit Choice Empty) :=
  renewalRound 0 ++ .spawn () :: (signing 1 ++ replacing.dropLast).map (Act.exec ())

theorem reached (ok : World Unit Op Op.Ans Host → Act Unit Choice Empty → Prop)
    [∀ w a, Decidable (ok w a)] (acts : List (Act Unit Choice Empty))
    (P : World Unit Op Op.Ans Host → Prop) [DecidablePred P]
    (h : ((machine "/etc/battery/flintlockd").replay ok fresh acts).any (fun w => decide (P w))) :
    ∃ w, (machine "/etc/battery/flintlockd").Run ok fresh w ∧ P w :=
  exists_run _ acts P h

/-- The first renewal leaves its pair, and the second breaks it when it replaces the key. -/
theorem serving_pair_matches_renewals :
    (∃ w, Reachable "/etc/battery/flintlockd" w ∧ w.shared.disk.Matches) ∧
      ∃ w, Reachable "/etc/battery/flintlockd" w ∧ ¬ w.shared.disk.Matches := by
  obtain ⟨hkept, hbroken⟩ := serving_pair_matches "/etc/battery/flintlockd"
  constructor
  · obtain ⟨w, hrun, hcert⟩ := reached (fun w a => keepsKey w a) (renewalRound 0)
      (fun w => w.shared.files .cert ≠ none) (by decide +kernel)
    exact ⟨w, hrun.mono fun _ _ _ => trivial, hkept w hrun hcert⟩
  · obtain ⟨w, hrun, hbad, hsome⟩ := reached (fun _ _ => True) secondRenewal
      (fun w => keepsKey w (.exec () .ok) = false ∧
        ((machine "/etc/battery/flintlockd").step w (.exec () .ok)).isSome) (by decide +kernel)
    obtain ⟨w', hs⟩ := Option.isSome_iff_exists.mp hsome
    exact ⟨w', .step w w' _ hrun trivial hs, hbroken w _ w' hrun hs hbad⟩

/-- A second renewal that crashes between its two renames leaves the first certificate beside the
    second key. -/
theorem serving_pair_torn :
    ∃ w, Reachable "/etc/battery/flintlockd" w ∧ w.shared.disk.key = some 1 ∧
      w.shared.disk.certFor = some 0 ∧ ¬ w.shared.disk.Matches := by
  obtain ⟨w, hrun, hkey, hcert⟩ := reached (fun _ _ => True)
    (secondRenewal ++ [.exec () .ok, .crash])
    (fun w => w.shared.disk.key = some 1 ∧ w.shared.disk.certFor = some 0) (by decide +kernel)
  refine ⟨w, hrun, hkey, hcert, ?_⟩
  rintro ⟨m, hm, hm'⟩
  cases hkey.symm.trans hm
  cases hcert.symm.trans hm'

end BatteryOperator.ExecAgent.Certificates
