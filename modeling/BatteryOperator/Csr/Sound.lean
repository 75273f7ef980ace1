/-
  Subject:   The reconcile of a CertificateSigningRequest meets its duties.

  * `Open`, `Requester`, `Parsed`, `Usages`, `Names` -- what a reconcile knows on its way through
    the review; `Passing`, `Denying` -- how the review ends;
  * `wp_csrRequester` .. `wp_csrAddressPin`, `wp_csrReview` -- the checks;
  * `Final` -- what the chain leaves to be written; `wp_csrDeny` .. `wp_csrSign`;
  * `wp_write` -- the writes, each under its duty;
  * `csr_sound` -- **the reconcile meets its duties**, whatever fails and whatever others do.
-/
import BatteryOperator.Csr.Duties

namespace BatteryOperator.Csr

open Lib Machine

variable {X : X509} {cfg : SignerConfig} {t : String} {sc : CsrScope} {s s' : State}

/-! ## 1. What others leave alone -/

/-- The weakest precondition of a piece of the reconcile. -/
abbrev CsrWp (X : X509) (cfg : SignerConfig) (t : String) {α : Type} (p : CsrM α)
    (Q : α → State → Prop) (s : State) : Prop := wp (machine X cfg) (spec X cfg) t p Q s

/-- A fact the others leave alone. -/
def Kept (t : String) (P : State → Prop) : Prop := ∀ a b, Rely t a b → P a → P b

variable {P : State → Prop} {α : Type} {node address : String} {ip : IP}
  {Q : CsrScope → State → Prop} {cm : Option ConfigMap} {csr : CertificateSigningRequest} {a : α}

theorem Kept.and {Q : State → Prop} (hP : Kept t P) (hQ : Kept t Q) :
    Kept t fun s => P s ∧ Q s := fun a b hR h => ⟨hP a b hR h.1, hQ a b hR h.2⟩

/-- What does not depend on the state. -/
theorem Kept.pure {p : Prop} : Kept t fun _ => p := fun _ _ _ h => h

theorem Kept.stable (h : Kept t P) : Stable (spec X cfg) t P :=
  fun a b hp hR _ => h a b hR hp

theorem rely_refl (a : State) : (spec X cfg).Rely t a a := Rely.refl t a

/-- **One operation and what follows it.** -/
theorem cwp_ask (hP : Kept t P) {Q : α → State → Prop} {o : CsrOp} {k : o.Ans → CsrM α} (h : P s)
    (hpre : ∀ s1, Inv s1 → P s1 → Pre X cfg t s1 o)
    (hk : ∀ s1 c r s2, Inv s1 → P s1 → exec t c o s1 = (r, s2) → CsrWp X cfg t (k r) Q s2) :
    CsrWp X cfg t (ask o >>= k) Q s :=
  wp_call hP.stable h hpre
    fun s1 c r s2 hI hp hx _ => hk s1 c r s2 hI hp (Option.some.inj hx)

/-- **The end of a piece.** -/
theorem cwp_done (hP : Kept t P) {Q : α → State → Prop} (h : P s)
    (hQ : ∀ s', Inv s' → P s' → Q a s') : CsrWp X cfg t (pure a) Q s :=
  wp_ret hP.stable h hQ

/-- Where nothing is owed at the end. -/
theorem cwp_end : CsrWp X cfg t (pure a) (fun _ _ => True) s :=
  cwp_done .pure trivial fun _ _ h => h

/-! ## 2. The review -/

section Review

variable (X cfg t sc s)

/-- Nothing is decided in the scope. -/
structure Blank : Prop where
  approval : sc.approval = none
  failure : sc.failure = none
  certificate : sc.certificate = none

/-- The scope's object is an undecided version of the request. -/
structure Working : Prop where
  version : some sc.object ∈ s.requests t
  undecided : decided sc.object = false
  signer : isOurSigner sc.object.spec.signerName = true
  blank : Blank sc

/-- The review is under way. -/
structure Open : Prop where
  working : Working t sc s
  denial : sc.denial = none
  pin : sc.pin = none

/-- The requester is checked. -/
structure Requester : Prop where
  username : sc.object.spec.username = cfg.execAgentUsername
  single : sc.object.spec.extra.lookup nodeNameExtra = some [sc.node]
  named : sc.node ≠ ""

/-- The request is parsed. -/
def Parsed : Prop := WellFormed X sc.object.spec.request sc.request

/-- The key usages are checked. -/
def Usages : Prop :=
  sc.object.spec.usages.Perm (signerUsages sc.object.spec.signerName)

/-- The names are checked. -/
structure Names (r : Reading) : Prop where
  dnsNames : sc.request.dnsNames = []
  emailAddresses : sc.request.emailAddresses = []
  uris : sc.request.uris = [requiredURI cfg sc.object.spec.signerName sc.node]
  client : isServing sc.object.spec.signerName = false → sc.request.ipAddresses = []
  serving : isServing sc.object.spec.signerName = true → ∃ ip nd,
    sc.request.ipAddresses = [ip] ∧ r.node = some nd ∧ nd.name = sc.node ∧
    ∃ x ∈ internalIPs nd, ip.equal x = true

/-- A pin to be stored: on no pins, or on a version of them. -/
def NewPin (cm : ConfigMap) (node : String) (ip : IP) : Prop :=
  (cm.resourceVersion = 0 ∧ Adds ∅ cm.data node ip) ∨
    ∃ base, some base ∈ s.pins ∧ base.resourceVersion = cm.resourceVersion ∧
      Adds base.data cm.data node ip

/-- The address of a serving request is pinned, or there is a pin to be stored. -/
structure PinReady : Prop where
  client : isServing sc.object.spec.signerName = false → sc.pin = none
  pinned : isServing sc.object.spec.signerName = true → sc.pin = none →
    ∀ ip ∈ sc.request.ipAddresses, HasPin s sc.node ip
  new : ∀ cm, sc.pin = some cm → ∀ ip ∈ sc.request.ipAddresses, NewPin s cm sc.node ip

/-- **The request passed the review.** -/
structure Passing : Prop where
  working : Working t sc s
  denial : sc.denial = none
  passes : Passes X cfg sc.object (s.readings t) sc.node sc.request
  pin : PinReady sc s

/-- **The request failed a check.** -/
structure Denying : Prop where
  working : Working t sc s
  denial : sc.denial ≠ none
  fails : ¬ Reviewed X cfg sc.object (s.readings t)

/-- How the review ends: with a judgement, unless it could not be made. -/
structure Judged (x : Left CsrScope) (s : State) : Prop where
  working : Working t x.1 s
  judged : x.2.2 = [] → Passing X cfg t x.1 s ∨ Denying X cfg t x.1 s

/-- What a reconcile knows before the names are checked. -/
structure Read : Prop where
  opened : Open t sc s
  requester : Requester cfg sc
  parsed : Parsed X sc
  usages : Usages sc

/-- What a reconcile knows before the pins are checked. -/
structure Named : Prop where
  read : Read X cfg t sc s
  names : Names cfg sc (s.readings t)

end Review

theorem Working.mono (h : Working t sc s) (hg : Grows s s') : Working t sc s' :=
  ⟨hg.requests t _ h.version, h.undecided, h.signer, h.blank⟩

theorem Working.kept : Kept t (Working t sc) := fun _ _ hR h => h.mono hR.grows

theorem Open.mono (h : Open t sc s) (hg : Grows s s') : Open t sc s' :=
  ⟨h.working.mono hg, h.denial, h.pin⟩

theorem Open.kept : Kept t (Open t sc) := fun _ _ hR h => h.mono hR.grows

/-- The review goes on with the same request. -/
theorem Open.move {sc' : CsrScope} (h : Open t sc s) (ho : sc'.object = sc.object)
    (hb : Blank sc') (hd : sc'.denial = none) (hp : sc'.pin = none) : Open t sc' s :=
  ⟨⟨ho ▸ h.working.version, ho ▸ h.working.undecided, ho ▸ h.working.signer, hb⟩, hd, hp⟩

theorem HasPin.mono (h : HasPin s node ip) (hg : Grows s s') : HasPin s' node ip := by
  obtain ⟨cm, a, hm, hrest⟩ := h
  exact ⟨cm, a, hg.pins cm hm, hrest⟩

theorem HasPin.kept : Kept t fun s => HasPin s node ip := fun _ _ hR h => h.mono hR.grows

theorem NewPin.mono {cm : ConfigMap} (h : NewPin s cm node ip) (hg : Grows s s') :
    NewPin s' cm node ip := by
  rcases h with h | ⟨base, hm, hrest⟩
  · exact .inl h
  · exact .inr ⟨base, hg.pins base hm, hrest⟩

theorem PinReady.mono (h : PinReady sc s) (hg : Grows s s') : PinReady sc s' where
  client := h.client
  pinned hs hp ip hi := (h.pinned hs hp ip hi).mono hg
  new cm hc ip hi := (h.new cm hc ip hi).mono hg

theorem Passing.kept : Kept t (Passing X cfg t sc) := fun _ _ hR h =>
  ⟨h.working.mono hR.grows, h.denial, hR.reading ▸ h.passes, h.pin.mono hR.grows⟩

theorem Denying.kept : Kept t (Denying X cfg t sc) := fun _ _ hR h =>
  ⟨h.working.mono hR.grows, h.denial, hR.reading ▸ h.fails⟩

theorem Judged.kept {x : Left CsrScope} : Kept t (Judged X cfg t x) := fun a b hR h =>
  ⟨h.working.mono hR.grows, fun he =>
    (h.judged he).imp (Passing.kept a b hR) (Denying.kept a b hR)⟩

/-- A check ended: the review goes on from `Q`, or it is over. -/
abbrev CheckEnd (X : X509) (cfg : SignerConfig) (t : String) (Q : CsrScope → State → Prop) :=
  Next Q (Judged X cfg t)

theorem check_goOn (hQ : Kept t (Q sc)) (h : Q sc s) :
    CsrWp X cfg t (goOn sc) (CheckEnd X cfg t Q) s :=
  cwp_done hQ h fun _ _ h' => .of_goOn h' rfl rfl

/-- **A request that fails a check** leaves the review denied. -/
theorem check_deny {d : Denial} (h : Open t sc s) (hf : ¬ Reviewed X cfg sc.object (s.readings t)) :
    CsrWp X cfg t (deny sc d) (CheckEnd X cfg t Q) s := by
  have hd : Denying X cfg t { sc with denial := some d } s := by
    refine ⟨{ h.working with blank := { h.working.blank with } }, ?_, hf⟩
    exact Option.some_ne_none d
  exact cwp_done Denying.kept hd fun s' _ hd' =>
    ⟨nofun, nofun, fun _ _ _ => ⟨hd'.working, fun _ => .inr hd'⟩⟩

/-- **A review that could not be made.** -/
theorem check_failed {e : String} (h : Working t sc s) :
    CsrWp X cfg t (failed sc e) (CheckEnd X cfg t Q) s := by
  exact cwp_done Working.kept h fun s' _ hw => ⟨nofun, fun _ _ _ => ⟨hw, nofun⟩, nofun⟩

theorem wp_csrRequester (sc : CsrScope) (s : State) (h : Open t sc s) :
    CsrWp X cfg t (csrRequester cfg sc)
      (CheckEnd X cfg t fun sc s => Open t sc s ∧ Requester cfg sc) s := by
  unfold csrRequester
  dsimp only
  split
  next hu => exact check_deny h fun ⟨_, _, hp⟩ => hu hp.requester
  next hu =>
    have hno : (∀ node, sc.object.spec.extra.lookup nodeNameExtra = some [node] → node = "") →
        ¬ Reviewed X cfg sc.object (s.readings t) :=
      fun hall ⟨node, _, hp⟩ => hp.named (hall node hp.single)
    split
    next node hx =>
      have hsingle := singleNode_iff.mp hx
      split
      next he =>
        refine check_deny h (hno fun node' hn => ?_)
        rw [hsingle] at hn
        cases hn
        exact he
      next he =>
        have hb := h.working.blank
        have ho : Open t { sc with node := node } s :=
          h.move rfl { hb with } h.denial h.pin
        exact check_goOn (Open.kept.and .pure) ⟨ho, not_not.mp hu, hsingle, he⟩
    next hx =>
      refine check_deny h (hno fun node hn => ?_)
      exact absurd (singleNode_iff.mpr hn) (hx node)

theorem wp_csrRequest (sc : CsrScope) (s : State) (h : Open t sc s ∧ Requester cfg sc) :
    CsrWp X cfg t (csrRequest X sc)
      (CheckEnd X cfg t fun sc s => Open t sc s ∧ Requester cfg sc ∧ Parsed X sc) s := by
  unfold csrRequest
  cases hp : parseRequest X sc.object.spec.request with
  | error e =>
    refine check_deny h.1 fun ⟨_, req, hpass⟩ => ?_
    have hok := parseRequest_eq_ok.mpr hpass.request
    simp [hp] at hok
  | ok req =>
    have hb := h.1.working.blank
    have ho : Open t { sc with req := some req } s :=
      h.1.move rfl { hb with } h.1.denial h.1.pin
    have hr : Requester cfg { sc with req := some req } :=
      { h.2 with }
    exact check_goOn (Open.kept.and .pure)
      ⟨ho, hr, parseRequest_eq_ok.mp hp⟩

theorem wp_csrUsages (sc : CsrScope) (s : State)
    (h : Open t sc s ∧ Requester cfg sc ∧ Parsed X sc) :
    CsrWp X cfg t (csrUsages sc)
      (CheckEnd X cfg t fun sc s => Open t sc s ∧ Requester cfg sc ∧ Parsed X sc ∧ Usages sc)
      s := by
  unfold csrUsages
  dsimp only
  split
  next hs => exact check_goOn (Open.kept.and .pure) ⟨h.1, h.2.1, h.2.2, sameUsages_iff.mp hs⟩
  next hs => exact check_deny h.1 fun ⟨_, _, hp⟩ => hs (sameUsages_iff.mpr hp.usages)

/-- The request is the one that was parsed, for the Node that was found. -/
theorem same_request {r : Reading} {req : CertificateRequest} (hr : Requester cfg sc)
    (hq : Parsed X sc) (h : Passes X cfg sc.object r node req) :
    node = sc.node ∧ req = sc.request := by
  have hn := h.single
  rw [hr.single] at hn
  have hreq := parseRequest_eq_ok.mpr h.request
  rw [parseRequest_eq_ok.mpr hq] at hreq
  cases hn
  exact ⟨rfl, (Except.ok.inj hreq).symm⟩

theorem Read.mono (h : Read X cfg t sc s) (hg : Grows s s') : Read X cfg t sc s' :=
  { h with opened := h.opened.mono hg }

theorem Read.kept : Kept t (Read X cfg t sc) := fun _ _ hR h => h.mono hR.grows

theorem isServing_ne_client {signer : String} (h : isServing signer = true) :
    signer ≠ clientSigner := by
  rintro rfl
  revert h
  decide

theorem requiredURI_serving {signer : String} (h : isServing signer = true) :
    requiredURI cfg signer node = servingURI cfg signer node :=
  if_neg (isServing_ne_client h)

theorem grows_note (s : State) (t : String) (r : Reading) : Grows s (s.note t r) :=
  { Grows.refl s with }

@[simp] theorem readings_note (s : State) (t : String) (r : Reading) :
    (s.note t r).readings t = r := Function.update_self _ _ _

theorem found_ok {resource name : String} {v : Option α} (h : found resource name v = .ok a) :
    v = some a := by
  cases v with
  | none => cases h
  | some b =>
    cases h
    rfl

/-- What `internalAddresses` answers, and what has been read then. -/
def Addresses (t : String) (node : String) (s : State) : Except String (Except Denial (List IP)) →
    Prop
  | .error _ => True
  | .ok (.error _) => ∀ nd, (s.readings t).node = some nd → internalIPs nd = []
  | .ok (.ok addrs) => ∃ nd, (s.readings t).node = some nd ∧ nd.name = node ∧
      addrs = internalIPs nd ∧ addrs ≠ []

theorem Addresses.kept {a : Except String (Except Denial (List IP))} :
    Kept t (fun s => Addresses t node s a) := by
  intro x y hR h
  rcases a with e | (d | addrs)
  · trivial
  · exact fun nd hn => h nd (hR.reading ▸ hn)
  · obtain ⟨nd, hn, hrest⟩ := h
    exact ⟨nd, hR.reading ▸ hn, hrest⟩

theorem wp_internalAddresses (h : Read X cfg t sc s) :
    CsrWp X cfg t (internalAddresses sc.node)
      (fun a s => Read X cfg t sc s ∧ Addresses t sc.node s a) s := by
  have hdone : ∀ a s, Read X cfg t sc s ∧ Addresses t sc.node s a →
      CsrWp X cfg t (pure a) (fun a s => Read X cfg t sc s ∧ Addresses t sc.node s a) s :=
    fun a s h => cwp_done (Read.kept.and Addresses.kept) h fun _ _ hp => hp
  unfold internalAddresses
  refine cwp_ask Read.kept h (fun _ _ _ => trivial) fun s1 c r s2 hI h1 hx => ?_
  obtain ⟨rfl, rfl⟩ := Prod.mk.inj hx
  have h2 := h1.mono (grows_note s1 t { s1.readings t with
    node := valueOf (c.fault.read (found "nodes" sc.node (s1.nodes sc.node))) })
  cases hr : c.fault.read (found "nodes" sc.node (s1.nodes sc.node)) with
  | error e =>
    rw [hr] at h2
    dsimp only
    split
    · refine hdone _ _ ⟨h2, fun nd hn => ?_⟩
      rw [readings_note] at hn
      cases hn
    · exact hdone _ _ ⟨h2, trivial⟩
  | ok node =>
    rw [hr] at h2
    have hname : node.name = sc.node := hI.nodes _ _ (found_ok (ApiFault.read_ok hr))
    dsimp only
    split
    next ha =>
      refine hdone _ _ ⟨h2, fun nd hn => ?_⟩
      rw [readings_note] at hn
      cases hn
      exact ha
    next ha => exact hdone _ _ ⟨h2, node, by rw [readings_note]; rfl, hname, rfl, ha⟩

theorem Named.kept : Kept t (Named X cfg t sc) := fun _ _ hR h =>
  ⟨h.read.mono hR.grows, hR.reading ▸ h.names⟩

/-- **The verdict on the names**, once the addresses that the signer asks for are known. -/
theorem check_names {ips : List IP} (h : Read X cfg t sc s)
    (hpass : Passes X cfg sc.object (s.readings t) sc.node sc.request →
      (ips = [] → sc.request.ipAddresses = []) ∧
        (ips ≠ [] → ∃ ip, sc.request.ipAddresses = [ip] ∧ ∃ x ∈ ips, ip.equal x = true))
    (hnames : sc.request.dnsNames = [] → sc.request.emailAddresses = [] →
      sc.request.uris = [requiredURI cfg sc.object.spec.signerName sc.node] →
      (ips = [] → sc.request.ipAddresses = []) →
      (ips ≠ [] → ∃ ip, sc.request.ipAddresses = [ip] ∧ ∃ x ∈ ips, ip.equal x = true) →
      Names cfg sc (s.readings t)) :
    CsrWp X cfg t
      (verdict sc (checkSANs sc.request (requiredURI cfg sc.object.spec.signerName sc.node) ips))
      (CheckEnd X cfg t (Named X cfg t)) s := by
  cases hd : checkSANs sc.request (requiredURI cfg sc.object.spec.signerName sc.node) ips with
  | some d =>
    refine check_deny h.opened fun ⟨node, req, hp⟩ => ?_
    obtain ⟨rfl, rfl⟩ := same_request h.requester h.parsed hp
    have hnone := checkSANs_eq_none.mpr ⟨hp.dnsNames, hp.emailAddresses, hp.uris, hpass hp⟩
    simp [hd] at hnone
  | none =>
    obtain ⟨h1, h2, h3, h4, h5⟩ := checkSANs_eq_none.mp hd
    exact check_goOn Named.kept ⟨h, hnames h1 h2 h3 h4 h5⟩

theorem wp_csrSubjectAltNames (sc : CsrScope) (s : State) (h : Read X cfg t sc s) :
    CsrWp X cfg t (csrSubjectAltNames cfg sc) (CheckEnd X cfg t (Named X cfg t)) s := by
  unfold csrSubjectAltNames
  dsimp only
  split
  next hc =>
    have hns : isServing sc.object.spec.signerName = false := by
      rw [hc]
      decide
    have huri : requiredURI cfg sc.object.spec.signerName sc.node =
        execAgentID cfg.trustDomain sc.node := if_pos hc
    rw [← huri]
    refine check_names h (fun hp => ⟨fun _ => hp.client hns, absurd rfl⟩)
      fun h1 h2 h3 h4 _ => ⟨h1, h2, h3, fun _ => h4 rfl, fun hs => ?_⟩
    simp [hns] at hs
  next hc =>
    have hs : isServing sc.object.spec.signerName = true := by
      have ho := h.opened.working.signer
      simp only [isOurSigner, isServing, Bool.or_eq_true, decide_eq_true_eq] at ho ⊢
      tauto
    rw [if_pos hs]
    refine wp_seq rely_refl (wp_internalAddresses h) fun a s1 _ ha => ?_
    obtain ⟨h1, ha⟩ := ha
    rcases a with e | (d | addrs)
    · exact check_failed h1.opened.working
    · refine check_deny h1.opened fun ⟨node, req, hp⟩ => ?_
      obtain ⟨ip, nd, _, hn, _, ⟨x, hx, _⟩, _⟩ := hp.serving hs
      rw [ha nd hn] at hx
      cases hx
    · obtain ⟨nd, hn, hname, rfl, hne⟩ := ha
      show CsrWp X cfg t (verdict sc (checkSANs sc.request
        (servingURI cfg sc.object.spec.signerName sc.node) (internalIPs nd))) _ s1
      rw [← requiredURI_serving hs]
      refine check_names h1 (fun hp => ⟨(absurd · hne), fun _ => ?_⟩) fun h2 h3 h4 _ h5 => ?_
      · obtain ⟨ip, nd', hip, hn', _, hx, _⟩ := hp.serving hs
        cases hn.symm.trans hn'
        exact ⟨ip, hip, hx⟩
      · obtain ⟨ip, hip, hx⟩ := h5 hne
        refine ⟨h2, h3, h4, fun hf => ?_, fun _ => ⟨ip, nd, hip, hn, hname, hx⟩⟩
        simp [hs] at hf

/-! ## 3. The pins -/

/-- What `readPins` answers, and what has been read then. -/
def PinsRead (t : String) (s : State) : Except String AddressPins → Prop
  | .error _ => True
  | .ok pins => pins = newAddressPins (s.readings t).pins ∧
      ∀ c, (s.readings t).pins = some c → some c ∈ s.pins

theorem PinsRead.kept {a : Except String AddressPins} : Kept t (fun s => PinsRead t s a) := by
  intro x y hR h
  cases a with
  | error e => trivial
  | ok pins =>
    exact ⟨hR.reading ▸ h.1, fun c hc => hR.grows.pins c (h.2 c (hR.reading ▸ hc))⟩

/-- Reading the pins leaves what was read of the Node. -/
theorem Named.notePins (h : Named X cfg t sc s) (pins : Option ConfigMap) :
    Named X cfg t sc (s.note t { s.readings t with pins := pins }) := by
  refine ⟨h.read.mono (grows_note s t _), ?_⟩
  rw [readings_note]
  exact { h.names with }

theorem wp_readPins (h : Named X cfg t sc s) :
    CsrWp X cfg t (readPins cfg) (fun a s => Named X cfg t sc s ∧ PinsRead t s a) s := by
  have hdone : ∀ a s, Named X cfg t sc s ∧ PinsRead t s a →
      CsrWp X cfg t (pure a) (fun a s => Named X cfg t sc s ∧ PinsRead t s a) s :=
    fun a s h => cwp_done (Named.kept.and PinsRead.kept) h fun _ _ hp => hp
  -- the index of what was read, whichever version that is
  have hindex : ∀ cm s, Named X cfg t sc s → (s.readings t).pins = cm →
      (∀ c, cm = some c → some c ∈ s.pins) →
      CsrWp X cfg t (ask (.indexPins cm) >>= fun pins => pure (.ok pins))
        (fun a s => Named X cfg t sc s ∧ PinsRead t s a) s := by
    intro cm s hn hr hm
    refine cwp_ask (P := fun s => Named X cfg t sc s ∧ (s.readings t).pins = cm ∧
        ∀ c, cm = some c → some c ∈ s.pins) ?_ ⟨hn, hr, hm⟩ (fun _ _ hp => hp.2.2) ?_
    · exact fun a b hR hp => ⟨Named.kept a b hR hp.1, hR.reading ▸ hp.2.1,
        fun c hc => hR.grows.pins c (hp.2.2 c hc)⟩
    · intro s1 c a s2 hI hp hx
      obtain ⟨rfl, rfl⟩ := Prod.mk.inj hx
      have heq := (PinIndex.of_eq hI.pins hI.index hp.2.2).1
      refine hdone _ _ ⟨⟨hp.1.read.mono { Grows.refl s1 with }, hp.1.names⟩, ?_, ?_⟩
      · rw [heq, ← hp.2.1]
      · intro c hc
        exact hp.2.2 c (hp.2.1.symm.trans hc)
  unfold readPins
  refine cwp_ask Named.kept h (fun _ _ _ => trivial) fun s1 c r s2 hI h1 hx => ?_
  obtain ⟨rfl, rfl⟩ := Prod.mk.inj hx
  have h2 := h1.notePins
    (valueOf (c.fault.read (found "configmaps" (pinsKey cfg).name (s1.pins.copy c.behind))))
  cases hr : c.fault.read (found "configmaps" (pinsKey cfg).name (s1.pins.copy c.behind)) with
  | error e =>
    rw [hr] at h2
    dsimp only
    split
    · exact hindex none _ h2 (by rw [readings_note]; rfl) nofun
    · exact hdone _ _ ⟨h2, trivial⟩
  | ok cm =>
    rw [hr] at h2
    refine hindex (some cm) _ h2 (by rw [readings_note]; rfl) fun c' hc => ?_
    cases hc
    exact Versions.mem_of_copy (found_ok (ApiFault.read_ok hr))

theorem entryOf_pinned (cm : Option ConfigMap) (node : String) :
    (newAddressPins cm).pinned node = entryOf cm node := rfl

/-- Some Node is pinned to an address exactly if the index has one. -/
theorem nodesOf_eq_nil :
    nodesOf (newAddressPins cm).byAddress address = [] ↔
      ∀ m a, entryOf cm m = some a → canonicalAddress a ≠ address := by
  rw [List.eq_nil_iff_forall_not_mem]
  cases cm with
  | none =>
    rw [byAddress_none]
    exact ⟨nofun, fun _ _ => List.not_mem_nil⟩
  | some c =>
    constructor
    · intro h m a ha hc
      exact h m (mem_byAddress.mpr ⟨a, ha, hc⟩)
    · intro h m hm
      obtain ⟨a, ha, hc⟩ := mem_byAddress.mp hm
      exact h m a ha hc

theorem checkPin_error {d : Denial} (h : checkPin cfg (newAddressPins cm) node address = .error d) :
    ¬ PinPasses cm node address := by
  unfold checkPin at h
  rw [entryOf_pinned] at h
  rintro (⟨a, ha, hc⟩ | ⟨hn, hfree⟩)
  · rw [ha] at h
    simp only [hc, ne_eq, not_true_eq_false, if_false] at h
    cases h
  · simp [hn, nodesOf_eq_nil.mpr hfree] at h

/-- **What the pin check lets pass**, and the pin it adds. -/
theorem checkPin_ok {new : Option ConfigMap}
    (h : checkPin cfg (newAddressPins cm) node address = .ok new) :
    (new = none ∧ ∃ a, entryOf cm node = some a ∧ canonicalAddress a = address) ∨
      (new = some (withPin cfg cm node address) ∧ entryOf cm node = none ∧
        ∀ m a, entryOf cm m = some a → canonicalAddress a ≠ address) := by
  unfold checkPin at h
  rw [entryOf_pinned] at h
  cases ha : entryOf cm node with
  | some a =>
    rw [ha] at h
    dsimp only at h
    split at h
    · cases h
    next hc =>
      cases h
      exact .inl ⟨rfl, a, rfl, not_not.mp hc⟩
  | none =>
    rw [ha] at h
    cases hb : nodesOf (newAddressPins cm).byAddress address with
    | cons other others =>
      simp only [hb] at h
      cases h
    | nil =>
      simp only [hb] at h
      cases h
      exact .inr ⟨rfl, rfl, nodesOf_eq_nil.mp hb⟩

/-- The new pins, on what was read. -/
theorem newPin_withPin (hm : ∀ c, cm = some c → some c ∈ s.pins) (hn : entryOf cm node = none)
    (hfree : ∀ m a, entryOf cm m = some a → canonicalAddress a ≠ ip.string) :
    NewPin s (withPin cfg cm node ip.string) node ip := by
  cases cm with
  | none =>
    refine .inl ⟨rfl, rfl, fun m a h => ?_, fun m => Dict.lookup_insert_eq _ _ _ _⟩
    cases h
  | some c => exact .inr ⟨c, hm c rfl, rfl, hn, hfree, fun m => Dict.lookup_insert_eq _ _ _ _⟩

theorem Named.passes (h : Named X cfg t sc s)
    (hpin : isServing sc.object.spec.signerName = true → ∀ ip ∈ sc.request.ipAddresses,
      PinPasses (s.readings t).pins sc.node ip.string) :
    Passes X cfg sc.object (s.readings t) sc.node sc.request where
  signer := h.read.opened.working.signer
  requester := h.read.requester.username
  single := h.read.requester.single
  named := h.read.requester.named
  request := h.read.parsed
  usages := h.read.usages
  dnsNames := h.names.dnsNames
  emailAddresses := h.names.emailAddresses
  uris := h.names.uris
  client := h.names.client
  serving hs := by
    obtain ⟨ip, nd, hip, hn, hname, hx⟩ := h.names.serving hs
    refine ⟨ip, nd, hip, hn, hname, hx, hpin hs ip ?_⟩
    rw [hip]
    exact List.mem_singleton_self ip

theorem wp_csrAddressPin (sc : CsrScope) (s : State) (h : Named X cfg t sc s) :
    CsrWp X cfg t (csrAddressPin cfg sc) (CheckEnd X cfg t (Passing X cfg t)) s := by
  unfold csrAddressPin
  split
  next hs =>
    refine wp_seq rely_refl (wp_readPins h) fun a s1 _ ha => ?_
    obtain ⟨h1, ha⟩ := ha
    cases a with
    | error e => exact check_failed h1.read.opened.working
    | ok pins =>
      obtain ⟨rfl, hm⟩ := ha
      obtain ⟨ip, nd, hip, _⟩ := h1.names.serving hs
      simp only [hip]
      have hone : ∀ ip' ∈ sc.request.ipAddresses, ip' = ip := by
        intro ip' hi
        rw [hip] at hi
        exact List.mem_singleton.mp hi
      have hw := h1.read.opened.working
      cases hc : checkPin cfg (newAddressPins (s1.readings t).pins) sc.node ip.string with
      | error d =>
        refine check_deny h1.read.opened fun ⟨node, req, hp⟩ => ?_
        obtain ⟨rfl, rfl⟩ := same_request h1.read.requester h1.read.parsed hp
        obtain ⟨ip', _, hip', _, _, _, hpin⟩ := hp.serving hs
        rw [hip] at hip'
        cases hip'
        exact checkPin_error hc hpin
      | ok new =>
        rcases checkPin_ok hc with ⟨rfl, a, ha, hca⟩ | ⟨rfl, hn, hfree⟩
        · -- the Node has its pin already
          have hp : Passes X cfg sc.object (s1.readings t) sc.node sc.request :=
            h1.passes fun _ ip' hi => .inl ⟨a, ha, by rw [hone ip' hi]; exact hca⟩
          obtain ⟨c, hcm, hl⟩ := Option.bind_eq_some_iff.mp ha
          refine check_goOn Passing.kept ⟨hw, h1.read.opened.denial, hp, ?_, ?_, ?_⟩
          · exact fun _ => h1.read.opened.pin
          · intro _ _ ip' hi
            rw [hone ip' hi]
            exact ⟨c, a, hm c hcm, hl, hca⟩
          · intro cm hp'
            simp [h1.read.opened.pin] at hp'
        · -- a new pin
          have hp : Passes X cfg sc.object (s1.readings t) sc.node sc.request :=
            h1.passes fun _ ip' hi => .inr ⟨hn, by rw [hone ip' hi]; exact hfree⟩
          have hw' : Working t { sc with
              pin := some (withPin cfg (s1.readings t).pins sc.node ip.string) } s1 :=
            { hw with blank := { hw.blank with } }
          refine check_goOn Passing.kept ⟨hw', h1.read.opened.denial, hp, ?_, ?_, ?_⟩
          · intro hf
            exact nomatch hs.symm.trans hf
          · nofun
          · intro cm hp' ip' hi
            cases hp'
            rw [hone ip' hi]
            exact newPin_withPin hm hn hfree
  next hs =>
    refine check_goOn Passing.kept ⟨h.read.opened.working, h.read.opened.denial,
      h.passes fun h' => absurd h' hs, fun _ => h.read.opened.pin, fun h' => absurd h' hs,
      fun cm hp' => ?_⟩
    simp [h.read.opened.pin] at hp'

/-- **The checks of the review.** -/
theorem ends_csrChecks : Ends (machine X cfg) (spec X cfg) t (Open t) (Judged X cfg t)
    [csrRequester cfg, csrRequest X, csrUsages, csrSubjectAltNames cfg, csrAddressPin cfg] := by
  have hR : ∀ x, Stable (spec X cfg) t (Judged X cfg t x) := fun x => Judged.kept.stable
  refine ends_cons rely_refl hR wp_csrRequester ?_
  refine ends_cons rely_refl hR wp_csrRequest ?_
  refine ends_cons rely_refl hR wp_csrUsages ?_
  refine ends_cons rely_refl hR
    (fun sc s h => wp_csrSubjectAltNames sc s ⟨h.1, h.2.1, h.2.2.1, h.2.2.2⟩) ?_
  refine ends_cons rely_refl hR wp_csrAddressPin ?_
  exact ends_nil (fun _ => Passing.kept.stable) fun _ _ _ _ hp => ⟨hp.working, fun _ => .inl hp⟩

/-! ## 4. The decision -/

section Decision

variable (X cfg t sc s)

/-- The request as it was read. -/
structure Begun : Prop where
  version : some sc.object ∈ s.requests t
  blank : Blank sc
  denial : sc.denial = none
  pin : sc.pin = none

/-- The request is one of ours, unsigned and not Failed. -/
structure Unsigned : Prop where
  begun : Begun t sc s
  signer : isOurSigner sc.object.spec.signerName = true
  certificate : sc.object.certificate = none
  failed : hasCondition sc.object .failed = false

/-- The review is over. -/
def Over : Prop := Passing X cfg t sc s ∨ Denying X cfg t sc s

/-- The request may be signed, once it is stored approved. -/
structure Signing : Prop where
  version : some sc.object ∈ s.requests t
  undecided : decided sc.object = false
  failure : sc.failure = none
  passes : Passes X cfg sc.object (s.readings t) sc.node sc.request
  pin : PinReady sc s
  approval : (∃ c, sc.approval = some c ∧ c.type = .approved ∧ c.status = .isTrue ∧
    hasCondition sc.object .approved = false) ∨
      (sc.approval = none ∧ hasCondition sc.object .approved = true)
  content : ∀ cert, sc.certificate = some cert → CertFor cert sc.node sc.request

/-- The request passed, and nothing is signed yet. -/
structure Granted : Prop where
  signing : Signing X cfg t sc s
  denial : sc.denial = none

/-- **What the chain leaves to be written.** -/
inductive Final : Prop where
  | idle (h : Blank sc)
  | deny (c : Condition) (ha : sc.approval = some c) (ht : c.type = .denied)
      (hv : some sc.object ∈ s.requests t) (h : Approves X cfg (s.readings t) sc.object c)
  | fail (c : Condition) (ha : sc.approval = none) (hf : sc.failure = some c)
      (hv : some sc.object ∈ s.requests t) (h : Fails X cfg (s.readings t) sc.object c)
  | sign (h : Signing X cfg t sc s)

end Decision

theorem Signing.kept : Kept t (Signing X cfg t sc) := fun _ _ hR h =>
  { h with
    version := hR.grows.requests t _ h.version
    passes := hR.reading ▸ h.passes
    pin := h.pin.mono hR.grows }

theorem Final.kept : Kept t (Final X cfg t sc) := by
  intro a b hR h
  cases h with
  | idle h => exact .idle h
  | deny c ha ht hv h => exact .deny c ha ht (hR.grows.requests t _ hv) (hR.reading ▸ h)
  | fail c ha hf hv h => exact .fail c ha hf (hR.grows.requests t _ hv) (hR.reading ▸ h)
  | sign h => exact .sign (Signing.kept a b hR h)

/-- A step of the chain ended: the chain goes on from `Q`, or its decision is made. -/
abbrev StepEnd (X : X509) (cfg : SignerConfig) (t : String) (Q : CsrScope → State → Prop) :=
  Next Q fun (x : Left CsrScope) s => Final X cfg t x.1 s

theorem step_goOn (hQ : Kept t (Q sc)) (h : Q sc s) :
    CsrWp X cfg t (goOn sc) (StepEnd X cfg t Q) s :=
  cwp_done hQ h fun _ _ h' => .of_goOn h' rfl rfl

theorem step_stop (h : Final X cfg t sc s) : CsrWp X cfg t (stop sc) (StepEnd X cfg t Q) s := by
  exact cwp_done Final.kept h fun s' _ hf => ⟨nofun, nofun, fun _ _ _ => hf⟩

theorem step_failed {e : String} (h : Final X cfg t sc s) :
    CsrWp X cfg t (failed sc e) (StepEnd X cfg t Q) s := by
  exact cwp_done Final.kept h fun s' _ hf => ⟨nofun, fun _ _ _ => hf, nofun⟩

theorem Begun.kept : Kept t (Begun t sc) :=
  fun _ _ hR h => ⟨hR.grows.requests t _ h.version, h.blank, h.denial, h.pin⟩

theorem Unsigned.kept : Kept t (Unsigned t sc) :=
  fun a b hR h => ⟨Begun.kept a b hR h.begun, h.signer, h.certificate, h.failed⟩

theorem wp_csrUndecided (sc : CsrScope) (s : State) (h : Begun t sc s) :
    CsrWp X cfg t (csrUndecided sc) (StepEnd X cfg t (Unsigned t)) s := by
  unfold csrUndecided
  dsimp only
  split
  · exact step_stop (.idle h.blank)
  next ho =>
    split
    · exact step_stop (.idle h.blank)
    next hd =>
      simp only [Bool.or_eq_true, not_or, Bool.not_eq_true, Option.isSome_eq_false_iff,
        Option.isNone_iff_eq_none] at hd
      exact step_goOn Unsigned.kept ⟨h, by simpa using ho, hd.1, hd.2⟩

theorem wp_csrNotDenied (sc : CsrScope) (s : State) (h : Unsigned t sc s) :
    CsrWp X cfg t (csrNotDenied sc) (StepEnd X cfg t (Open t)) s := by
  unfold csrNotDenied
  split
  · exact step_stop (.idle h.begun.blank)
  next hd =>
    have hu : decided sc.object = false := by
      simp [decided, h.certificate, h.failed, hd]
    exact step_goOn Open.kept ⟨⟨h.begun.version, hu, h.signer, h.begun.blank⟩, h.begun.denial,
      h.begun.pin⟩

theorem Over.kept : Kept t (Over X cfg t sc) := fun a b hR h =>
  h.imp (Passing.kept a b hR) (Denying.kept a b hR)

/-- **The review.** -/
theorem wp_csrReview (sc : CsrScope) (s : State) (h : Open t sc s) :
    CsrWp X cfg t (csrReview X cfg sc) (StepEnd X cfg t (Over X cfg t)) s := by
  refine wp_mono (fun o s1 _ ho => ?_) _
    (wp_group rely_refl (fun _ => Judged.kept.stable) ends_csrChecks h)
  obtain ⟨x, hx, rfl⟩ := ho
  refine ⟨?_, ?_, ?_⟩
  · intro he _
    exact hx.judged (joinErrors_eq_none he)
  · intro _ _ _
    exact .idle hx.working.blank
  · nofun

/-- A condition is made with the time on the clock. -/
theorem cwp_condition (hP : Kept t P) {Q : α → State → Prop} {ty : ConditionType}
    {reason message : String} {k : Condition → CsrM α} (h : P s)
    (hk : ∀ c s1, c.type = ty → c.status = .isTrue → P s1 → CsrWp X cfg t (k c) Q s1) :
    CsrWp X cfg t (condition ty reason message >>= k) Q s := by
  have hnow : CsrWp X cfg t
      (ask .now >>= fun now => k ⟨ty, .isTrue, reason, message, now⟩) Q s := by
    refine cwp_ask hP h (fun _ _ _ => trivial) fun s1 c r s2 _ hp hx => ?_
    obtain ⟨rfl, rfl⟩ := Prod.mk.inj hx
    exact hk _ _ rfl rfl hp
  exact hnow

theorem Over.denying {d : Denial} (h : Over X cfg t sc s) (hd : sc.denial = some d) :
    Denying X cfg t sc s :=
  h.resolve_left fun hp => nomatch hd.symm.trans hp.denial

/-- **Deny.** -/
theorem wp_csrDeny (sc : CsrScope) (s : State) (h : Over X cfg t sc s) :
    CsrWp X cfg t (csrDeny sc) (StepEnd X cfg t fun sc s => Over X cfg t sc s ∧
      (sc.denial ≠ none → hasCondition sc.object .approved = true)) s := by
  have hkept : Kept t fun s => Over X cfg t sc s ∧
      (sc.denial ≠ none → hasCondition sc.object .approved = true) := Over.kept.and .pure
  unfold csrDeny
  cases hd : sc.denial with
  | none => exact step_goOn hkept ⟨h, fun hne => absurd hd hne⟩
  | some d =>
    dsimp only
    split
    next ha => exact step_goOn hkept ⟨h, fun _ => ha⟩
    next ha =>
      refine cwp_condition Denying.kept (h.denying hd) fun c s1 ht hs hden => ?_
      exact step_stop (.deny c rfl ht hden.working.version
        ⟨hden.working.undecided, Bool.eq_false_iff.mpr ha, hs, .inl ⟨ht, hden.fails⟩⟩)

/-- **Fail.** -/
theorem wp_csrFail (sc : CsrScope) (s : State) (h : Over X cfg t sc s ∧
    (sc.denial ≠ none → hasCondition sc.object .approved = true)) :
    CsrWp X cfg t (csrFail sc) (StepEnd X cfg t (Passing X cfg t)) s := by
  unfold csrFail
  cases hd : sc.denial with
  | none =>
    rcases h.1 with hp | hden
    · exact step_goOn Passing.kept hp
    · exact absurd hd hden.denial
  | some d =>
    have ha : hasCondition sc.object .approved = true := h.2 (by rw [hd]; exact nofun)
    simp only [ha, if_true]
    refine cwp_condition Denying.kept (h.1.denying hd) fun c s1 ht hs hden => ?_
    exact step_stop (.fail c hden.working.blank.approval rfl hden.working.version
      ⟨hden.working.undecided, ha, hs, ht, hden.fails⟩)

theorem Granted.kept : Kept t (Granted X cfg t sc) := fun a b hR h =>
  ⟨Signing.kept a b hR h.signing, h.denial⟩

/-- **Approve.** -/
theorem wp_csrApprove (sc : CsrScope) (s : State) (h : Passing X cfg t sc s) :
    CsrWp X cfg t (csrApprove sc) (StepEnd X cfg t (Granted X cfg t)) s := by
  have hcert : ∀ cert, sc.certificate = some cert → CertFor cert sc.node sc.request := by
    intro cert hc
    simp [h.working.blank.certificate] at hc
  unfold csrApprove
  simp only [h.denial, Option.isSome_none, Bool.false_or]
  split
  next ha =>
    exact step_goOn Granted.kept ⟨⟨h.working.version, h.working.undecided, h.working.blank.failure,
      h.passes, h.pin, .inr ⟨h.working.blank.approval, ha⟩, hcert⟩, h.denial⟩
  next ha =>
    refine cwp_condition Passing.kept h fun c s1 ht hs hp => ?_
    exact step_goOn Granted.kept ⟨⟨hp.working.version, hp.working.undecided,
      hp.working.blank.failure, hp.passes, { hp.pin with },
      .inl ⟨c, rfl, ht, hs, Bool.eq_false_iff.mpr ha⟩, hcert⟩, rfl⟩

/-- The certificate that is made carries the names of the request. -/
theorem wp_sign (hP : Kept t P) {ca : CACertificate} {req : CertificateRequest}
    {usages : List KeyUsage} {now : Time} {d : Duration} (h : P s) :
    CsrWp X cfg t (sign ca req node usages now d)
      (fun r s => P s ∧ ∀ cert, r = .ok cert → CertFor cert node req) s := by
  have herr : ∀ (e : String) s, P s → CsrWp X cfg t (pure (Except.error e))
      (fun r s => P s ∧ ∀ cert, r = .ok cert → CertFor cert node req) s :=
    fun e s hp => cwp_done hP hp fun _ _ hp' => ⟨hp', nofun⟩
  unfold sign
  split
  · exact herr _ s h
  · refine cwp_ask hP h (fun _ _ _ => trivial) fun s1 c r s2 _ hp hx => ?_
    obtain ⟨hr, rfl⟩ := Prod.mk.inj hx
    cases r with
    | error e => exact herr e _ hp
    | ok serial =>
      cases x509Usages usages {} [] with
      | error e => exact herr e _ hp
      | ok ku =>
        refine wp_op hP.stable hp (fun _ _ _ => trivial)
          fun s3 c' r' s4 _ hp' hx' _ => ?_
        obtain ⟨hr', rfl⟩ := Prod.mk.inj (Option.some.inj hx')
        refine wp_ret hP.stable hp' fun s5 _ hp'' => ⟨hp'', fun cert hc => ?_⟩
        -- the certificate is the template
        subst hc
        cases hf : c'.fault with
        | none =>
          rw [hf] at hr'
          cases hr'
          exact ⟨rfl, rfl, rfl, rfl, rfl⟩
        | failed applied text =>
          rw [hf] at hr'
          cases hr'

/-- **Sign.** -/
theorem wp_csrSign (sc : CsrScope) (s : State) (h : Granted X cfg t sc s) :
    CsrWp X cfg t (csrSign X cfg sc) (StepEnd X cfg t (Signing X cfg t)) s := by
  unfold csrSign
  simp only [h.denial, Option.isSome_none]
  refine cwp_ask Signing.kept h.signing (fun _ _ _ => trivial) fun s1 c r s2 _ h1 hx => ?_
  obtain ⟨_, rfl⟩ := Prod.mk.inj hx
  cases r with
  | error e => exact step_failed (.sign h1)
  | ok secret =>
    simp only
    cases loadCA X secret with
    | error e => exact step_failed (.sign h1)
    | ok ca =>
      refine cwp_ask Signing.kept h1 (fun _ _ _ => trivial) fun s3 c' now s4 _ h3 hx' => ?_
      obtain ⟨_, rfl⟩ := Prod.mk.inj hx'
      refine wp_seq rely_refl (wp_sign Signing.kept h3) fun a s5 _ ha => ?_
      cases a with
      | error e => exact step_failed (.sign ha.1)
      | ok cert =>
        refine step_goOn Signing.kept
          { ha.1 with pin := { ha.1.pin with }, content := fun cert' hc => ?_ }
        cases hc
        exact ha.2 cert rfl

/-- **The chain.** -/
theorem ends_csrChain : Ends (machine X cfg) (spec X cfg) t (Begun t)
    (fun x s => Final X cfg t x.1 s)
    [csrUndecided, csrNotDenied, csrReview X cfg, csrDeny, csrFail, csrApprove, csrSign X cfg] := by
  have hR : ∀ x : Left CsrScope, Stable (spec X cfg) t (fun s => Final X cfg t x.1 s) :=
    fun x => Final.kept.stable
  refine ends_cons rely_refl hR wp_csrUndecided ?_
  refine ends_cons rely_refl hR wp_csrNotDenied ?_
  refine ends_cons rely_refl hR wp_csrReview ?_
  refine ends_cons rely_refl hR wp_csrDeny ?_
  refine ends_cons rely_refl hR wp_csrFail ?_
  refine ends_cons rely_refl hR wp_csrApprove ?_
  refine ends_cons rely_refl hR wp_csrSign ?_
  exact ends_nil (fun _ => Signing.kept.stable) fun _ _ _ _ h => .sign h

/-! ## 5. The write -/

theorem hasCondition_plus (csr : CertificateSigningRequest) (c : Condition) (ty : ConditionType) :
    hasCondition (csr.plus c) ty =
      (hasCondition csr ty || (c.type = ty && c.status ≠ .isFalse)) := by
  simp [hasCondition, CertificateSigningRequest.plus]

/-- The request is stored approved, and its certificate may follow. -/
structure Ready (X : X509) (cfg : SignerConfig) (t : String) (sc : CsrScope)
    (csr : CertificateSigningRequest) (s : State) : Prop where
  version : some csr ∈ s.requests t
  undecided : decided csr = false
  approved : hasCondition csr .approved = true
  spec : csr.spec = sc.object.spec
  passes : Passes X cfg csr (s.readings t) sc.node sc.request
  content : ∀ cert, sc.certificate = some cert → CertFor cert sc.node sc.request

theorem Ready.kept : Kept t (Ready X cfg t sc csr) := fun _ _ hR h =>
  { h with version := hR.grows.requests t _ h.version, passes := hR.reading ▸ h.passes }

/-- The address of a serving certificate has its pin. -/
def Pinned (sc : CsrScope) (s : State) : Prop :=
  isServing sc.object.spec.signerName = true → ∀ ip ∈ sc.request.ipAddresses, HasPin s sc.node ip

theorem Pinned.kept : Kept t (Pinned sc) :=
  fun _ _ hR h hs ip hi => (h hs ip hi).mono hR.grows

/-- **The certificate.** -/
theorem wp_writeCertificate {cert : Certificate} (h : Ready X cfg t sc csr s)
    (hc : sc.certificate = some cert) (hp : Pinned sc s) :
    CsrWp X cfg t (writeCertificate csr cert) (fun _ _ => True) s := by
  unfold writeCertificate
  refine cwp_ask (Ready.kept.and Pinned.kept) ⟨h, hp⟩ ?_ ?_
  · intro s1 _ ⟨h1, hp1⟩
    refine ⟨csr, h1.version, .inr ⟨cert, sc.node, sc.request, rfl,
      ⟨h1.undecided, h1.approved, h1.passes, h1.content cert hc⟩, fun hs => hp1 ?_⟩⟩
    rw [← h1.spec]
    exact hs
  · intro s1 c r s2 _ _ _
    cases r with
    | error | ok => exact cwp_end

/-- **The pin**: once it is written, the Node has it. -/
theorem wp_writePin (hP : Kept t P) {cm : ConfigMap} (h : P s) (hn : NewPin s cm node ip) :
    CsrWp X cfg t (writePin cm) (fun e s => P s ∧ (e = none → HasPin s node ip)) s := by
  have hkept := hP.and (Q := fun s => NewPin s cm node ip) fun _ _ hR h => h.mono hR.grows
  have herr : ∀ (e : String) s, P s → CsrWp X cfg t (pure (some e))
      (fun e s => P s ∧ (e = none → HasPin s node ip)) s :=
    fun e s hp => cwp_done hP hp fun _ _ hp' => ⟨hp', nofun⟩
  have hok : ∀ s, P s → HasPin s node ip → CsrWp X cfg t (pure none)
      (fun (e : Option String) s => P s ∧ (e = none → HasPin s node ip)) s :=
    fun s hp hh => cwp_done (hP.and HasPin.kept) ⟨hp, hh⟩ fun _ _ hx => ⟨hx.1, fun _ => hx.2⟩
  -- what was added is there
  have hadded : ∀ (s : State) (old : Dict String String) (cm' : ConfigMap),
      Adds old cm.data node ip → cm'.data = cm.data → HasPin (s.storePins cm') node ip := by
    intro s old cm' ha hd
    refine ⟨_, ip.string, List.mem_cons_self, ?_, canonicalAddress_string ip⟩
    show cm'.data.lookup node = _
    rw [hd, ha.lookup, if_pos rfl]
  unfold writePin
  split
  next h0 =>
    have hadds : ∀ s, Inv s → NewPin s cm node ip → Adds ∅ cm.data node ip := by
      rintro s hI (⟨_, ha⟩ | ⟨base, hm, hv, _⟩)
      · exact ha
      · have := hI.positive base hm
        omega
    refine cwp_ask hkept ⟨h, hn⟩ (fun s1 hI hx => ⟨node, ip, hadds s1 hI hx.2⟩) ?_
    intro s1 c r s2 hI hx hex
    rcases write_createPins hex with ⟨rfl, hne⟩ | ⟨_, rfl⟩
    · cases r with
      | error e => exact herr _ _ hx.1
      | ok v => exact absurd rfl (hne v)
    · have hp2 := hP _ _ ⟨grows_storePins s1 { cm with uid := s1.version + 1 }, rfl⟩ hx.1
      cases r with
      | error e => exact herr _ _ hp2
      | ok v => exact hok _ hp2 (hadded s1 ∅ _ (hadds s1 hI hx.2) rfl)
  next h0 =>
    have hadds : ∀ s, NewPin s cm node ip → ∃ base, some base ∈ s.pins ∧
        base.resourceVersion = cm.resourceVersion ∧ Adds base.data cm.data node ip := by
      rintro s (⟨hz, _⟩ | hb)
      · exact absurd hz h0
      · exact hb
    refine cwp_ask hkept ⟨h, hn⟩ (fun s1 _ hx => ?_) ?_
    · obtain ⟨base, hb⟩ := hadds s1 hx.2
      exact ⟨base, node, ip, hb⟩
    · intro s1 c r s2 _ hx hex
      obtain ⟨base, _, _, ha⟩ := hadds s1 hx.2
      rcases write_updatePins hex with ⟨rfl, hne⟩ | ⟨o, _, _, rfl⟩
      · cases r with
        | error e => exact herr _ _ hx.1
        | ok v => exact absurd rfl (hne v)
      · have hp2 := hP _ _ ⟨grows_storePins s1 { o with data := cm.data }, rfl⟩ hx.1
        cases r with
        | error e => exact herr _ _ hp2
        | ok v => exact hok _ hp2 (hadded s1 base.data _ ha rfl)

/-- **The second half of the write**, of a request that is stored approved. -/
theorem wp_writeStatus (h : Ready X cfg t sc csr s) (hf : sc.failure = none) (hp : PinReady sc s) :
    CsrWp X cfg t (writeStatus sc csr) (fun _ _ => True) s := by
  unfold writeStatus
  simp only [hf]
  cases hc : sc.certificate with
  | none => exact cwp_end
  | some cert =>
    simp only
    cases hpin : sc.pin with
    | none => exact wp_writeCertificate h hc fun hs ip hi => hp.pinned hs hpin ip hi
    | some cm =>
      -- only a serving request comes with a pin, for its one address
      have hs : isServing sc.object.spec.signerName = true := by
        by_contra hns
        have hnone := hp.client (by simpa using hns)
        simp [hpin] at hnone
      obtain ⟨ip, nd, hip, _⟩ := h.passes.serving (by rw [h.spec]; exact hs)
      have hnew : NewPin s cm sc.node ip := by
        refine hp.new cm hpin ip ?_
        rw [hip]
        exact List.mem_singleton_self ip
      refine wp_seq rely_refl (wp_writePin Ready.kept h hnew) fun e s1 _ he => ?_
      cases e with
      | some e => exact cwp_end
      | none =>
        refine wp_writeCertificate he.1 hc fun _ ip' hi => ?_
        rw [hip] at hi
        rw [List.mem_singleton.mp hi]
        exact he.2 rfl

/-- The approval that was written is the scope's object with the condition. -/
theorem exec_updateApproval {c : Choice} {b : CertificateSigningRequest} {cond : Condition}
    {v : CertificateSigningRequest} (hI : Inv s) (hb : some b ∈ s.requests t)
    (h : exec t c (.updateApproval (b.plus cond)) s = (.ok v, s')) :
    v = { b.plus cond with resourceVersion := s.version + 1 } ∧ some v ∈ s'.requests t ∧
      Grows s s' ∧ s'.readings = s.readings := by
  have hname : b.name = t := hI.named t b hb
  rcases write_request h with ⟨_, hne⟩ | ⟨o, ho, hv, rfl, hok⟩
  · exact absurd rfl (hne v)
  · have hbn : (b.plus cond).name = t := hname
    rw [hbn] at ho
    have heq : o = b := (hI.requests t).current_eq ho hb hv
    subst heq
    have hval := hok v rfl
    refine ⟨hval, ?_, { grows_store s _ with }, rfl⟩
    subst hname
    rw [hval]
    show _ ∈ Function.update s.requests o.name _ o.name
    rw [Function.update_self]
    exact List.mem_cons_self

/-- **The write.** -/
theorem wp_write (h : Final X cfg t sc s) : CsrWp X cfg t (write sc) (fun _ _ => True) s := by
  unfold write
  cases h with
  | idle hb =>
    simp only [hb.approval]
    unfold writeStatus
    simp only [hb.failure, hb.certificate]
    exact cwp_end
  | deny c ha ht hv hap =>
    simp only [ha]
    refine cwp_ask (P := fun s => some sc.object ∈ s.requests t ∧
      Approves X cfg (s.readings t) sc.object c)
      (fun _ _ hR hx => ⟨hR.grows.requests t _ hx.1, hR.reading ▸ hx.2⟩) ⟨hv, hap⟩
      (fun _ _ hx => ⟨sc.object, c, hx.1, rfl, hx.2⟩) fun s1 c' r s2 _ _ _ => ?_
    cases r with
    | error e => exact cwp_end
    | ok v =>
      simp only [ht, if_true]
      exact cwp_end
  | fail c ha hf hv hfl =>
    simp only [ha]
    unfold writeStatus
    simp only [hf]
    refine cwp_ask (P := fun s => some sc.object ∈ s.requests t ∧
      Fails X cfg (s.readings t) sc.object c)
      (fun _ _ hR hx => ⟨hR.grows.requests t _ hx.1, hR.reading ▸ hx.2⟩) ⟨hv, hfl⟩
      (fun _ _ hx => ⟨sc.object, hx.1, .inl ⟨c, rfl, hx.2⟩⟩) fun s1 c' r s2 _ _ _ => ?_
    cases r with
    | error | ok => exact cwp_end
  | sign hs =>
    rcases hs.approval with ⟨c, ha, ht, hst, hna⟩ | ⟨ha, happ⟩
    · simp only [ha]
      refine cwp_ask Signing.kept hs (fun s1 _ h1 => ⟨sc.object, c, h1.version, rfl,
        ⟨h1.undecided, hna, hst, .inr ⟨ht, _, _, h1.passes⟩⟩⟩) fun s1 c' r s2 hI h1 hx => ?_
      cases r with
      | error e => exact cwp_end
      | ok v =>
        have hnd : ¬ c.type = .denied := by
          rw [ht]
          decide
        simp only [hnd, if_false]
        split
        · exact cwp_end
        next hrec =>
          simp only [Bool.or_eq_true, Bool.not_eq_true', not_or, Bool.not_eq_false,
            Bool.not_eq_true] at hrec
          obtain ⟨hval, hm, hg, hrd⟩ := exec_updateApproval hI h1.version hx
          have hspec : v.spec = sc.object.spec := by rw [hval]; rfl
          have hund : decided v = false := by
            have hu := h1.undecided
            simp only [decided, Bool.or_eq_false_iff] at hu ⊢
            refine ⟨⟨by rw [hval]; exact hu.1.1, ?_⟩, hrec.2⟩
            have hplus := hasCondition_plus sc.object c .failed
            rw [hu.1.2, ht] at hplus
            rw [hval]
            exact hplus
          refine wp_writeStatus ⟨hm, hund, hrec.1, hspec, ?_, h1.content⟩ h1.failure
            (h1.pin.mono hg)
          rw [hrd]
          exact h1.passes.of_spec hspec
    · simp only [ha]
      exact wp_writeStatus ⟨hs.version, hs.undecided, happ, rfl, hs.passes, hs.content⟩
        hs.failure hs.pin

/-! ## 6. The whole reconcile -/

theorem wp_reconcile (s : State) : CsrWp X cfg t (reconcile X cfg t) (fun _ _ => True) s := by
  unfold reconcile
  refine cwp_ask (P := fun _ => True) (fun _ _ _ h => h) trivial (fun _ _ _ => trivial) ?_
  intro s1 c r s2 hI _ hx
  cases r with
  | error e => exact cwp_end
  | ok csr =>
    obtain ⟨hr, rfl⟩ := Prod.mk.inj hx
    have hm : some csr ∈ s1.requests t :=
      Versions.mem_of_copy (found_ok (ApiFault.read_ok hr))
    have hb : Begun t { object := csr } (s1.note t {}) := ⟨hm, ⟨rfl, rfl, rfl⟩, rfl, rfl⟩
    refine wp_seq rely_refl
      (wp_ofSteps rely_refl (fun _ => Final.kept.stable) ends_csrChain hb) fun o s3 _ ho => ?_
    obtain ⟨x, hfin, rfl⟩ := ho
    refine wp_seq rely_refl (wp_write hfin) fun werr s4 _ _ => ?_
    split <;> exact cwp_end

/-- **The reconciles meet their duties**, whatever fails and whatever others do. -/
theorem csr_sound (X : X509) (cfg : SignerConfig) :
    Sound (machine X cfg) (spec X cfg) where
  refl := Rely.refl
  trans _ _ _ _ := Rely.trans
  idle _ _ _ _ _ _ := trivial
  env_inv _ _ _ hI h := (env_effect hI h).inv hI
  env_rely t _ _ _ hI h := (env_effect hI h).rely nofun
  exec_inv _ _ _ _ _ _ hI hpre h := (exec_effect hI hpre (Option.some.inj h)).inv hI
  exec_rely t u _ _ _ _ _ hne hI hpre h :=
    (exec_effect hI hpre (Option.some.inj h)).rely fun he => hne (Option.some.inj he)
  crash_inv _ hI := { hI with index := nofun }
  crash_idle _ _ _ := trivial
  spawn t s _ _ := by
    refine wp_seq rely_refl (wp_reconcile s) fun r s1 _ _ => ?_
    exact cwp_end

theorem start_inv : Inv start.shared where
  requests _ := .nil
  named _ _ h := nomatch h
  uids _ _ h := nomatch h
  nodes _ _ h := nomatch h
  pins := .nil
  positive _ h := nomatch h
  index _ h := nomatch h

theorem start_safe (X : X509) (cfg : SignerConfig) :
    Safe (machine X cfg) (spec X cfg) start where
  inv := start_inv
  safe _ _ h := nomatch h
  rest _ _ := trivial

end BatteryOperator.Csr
