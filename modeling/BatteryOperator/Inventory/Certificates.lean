/-
  Subject:   Every Host follows the client certificate (`Reload` of
             internal/controller/inventory/subreconcilers.go).

  Reload goes over the controller's picture of battery's Hosts. A call that gives a Host its TLS
  settings and whose answer is lost leaves the Host out of that picture; so the property needs
  `answerKept`: such an answer is lost only while the mount holds the Secret's certificate.

  * `Follows` -- what a reconcile knows: the Hosts with TLS settings are in its picture with them,
    or connected with a certificate not older than the one it read;
  * `Reloading` -- what Reload knows, with the Hosts still to do;
  * `wire_sound` -- **the reconcile remembers a certificate only if no Host has an older one**.
-/
import BatteryOperator.Inventory.Wires

namespace BatteryOperator.Inventory

open Lib Machine

/-! ## 1. The invariant and what a reconcile knows -/

section Spec

variable (cert : Nat → Bytes) (digest : Bytes → String)

/-- **A digest that may be remembered**: if it is a certificate's, that one has been mounted, and no
    Host with the TLS settings is connected with an older one. -/
def MayRemember (remembered : String) (w : Wired) : Prop :=
  ∀ i, remembered = digest (cert i) → i ≤ w.mountedAt ∧
    ∀ n h, w.shared.hosts.find n = some h → h.tls = tls → i ≤ w.connected n

/-- The invariant. -/
structure WireInv (w : Wired) : Prop where
  secret : w.shared.secret = .ok (cert w.secretAt)
  mounted : ∀ b, w.shared.mounted = .ok b → b = cert w.mountedAt
  order : w.mountedAt ≤ w.secretAt
  connected : ∀ n, w.connected n ≤ w.mountedAt
  remembered : MayRemember cert digest w.shared.state.reloaded w

/-- What the world around the Operator leaves alone. -/
structure WireRely (w w' : Wired) : Prop where
  hosts : w'.shared.hosts = w.shared.hosts
  connected : w'.connected = w.connected
  secretAt : w.secretAt ≤ w'.secretAt
  mountedAt : w.mountedAt ≤ w'.mountedAt

/-- What is owed before a reconcile ends. -/
def WirePre (w : Wired) : Op → Prop
  | .remember state => MayRemember cert digest state.reloaded w
  | _ => True

/-- **The specification.** -/
def wireSpec : Spec Unit Op Wired where
  Inv := WireInv cert digest
  Pre _ o w := WirePre cert digest w o
  Rely _ := WireRely
  Idle _ _ := True

/-- The Host has the TLS settings in the picture. -/
def Pictured (sc : Scope) (n : String) : Prop :=
  ∃ h, sc.held.lookup n = some h ∧ h.tls = tls

/-- **What a reconcile knows** that read the certificate `k`. -/
structure Follows (k : Nat) (sc : Scope) (w : Wired) : Prop where
  read : k ≤ w.secretAt
  certificate : ∀ b, sc.clientCertificate = some b → b = cert k
  covered : ∀ n h, w.shared.hosts.find n = some h → h.tls = tls → Pictured sc n ∨ k ≤ w.connected n
  remembered : MayRemember cert digest sc.state.reloaded w

end Spec

section Knowledge

variable {cert : Nat → Bytes} {digest : Bytes → String} {k : Nat} {sc sc' : Scope} {w w' : Wired}
  {name remembered : String}

theorem MayRemember.rely (h : MayRemember cert digest remembered w) (hR : WireRely w w') :
    MayRemember cert digest remembered w' := by
  intro i hi
  obtain ⟨hm, hall⟩ := h i hi
  refine ⟨Nat.le_trans hm hR.mountedAt, fun n host hf ht => ?_⟩
  rw [hR.connected]
  rw [hR.hosts] at hf
  exact hall n host hf ht

/-- **A call leaves what may be remembered.** -/
theorem MayRemember.touched (h : MayRemember cert digest remembered w) (ht : Touched name w w') :
    MayRemember cert digest remembered w' := by
  intro i hi
  obtain ⟨hm, hall⟩ := h i hi
  refine ⟨by rw [ht.mountedAt]; exact hm, fun n host hf htls => ?_⟩
  by_cases hn : n = name
  · subst hn
    rcases ht.self host hf htls with ⟨old, hold, holdt, hle⟩ | hc
    · exact Nat.le_trans (hall n old hold holdt) hle
    · rw [hc]
      exact hm
  · rw [(ht.others n hn).2]
    rw [(ht.others n hn).1] at hf
    exact hall n host hf htls

section Follows

variable (h : Follows cert digest k sc w)
include h

theorem Follows.rely (hR : WireRely w w') : Follows cert digest k sc w' where
  read := Nat.le_trans h.read hR.secretAt
  certificate := h.certificate
  covered n host hf ht := by
    rw [hR.connected]
    rw [hR.hosts] at hf
    exact h.covered n host hf ht
  remembered := h.remembered.rely hR

/-- Only the picture, the certificate and the digest are read. -/
theorem Follows.scope (hheld : sc'.held = sc.held)
    (hcert : sc'.clientCertificate = sc.clientCertificate)
    (hre : sc'.state.reloaded = sc.state.reloaded) : Follows cert digest k sc' w where
  read := h.read
  certificate b hb := h.certificate b (hcert ▸ hb)
  covered n host hf ht := by
    unfold Pictured
    rw [hheld]
    exact h.covered n host hf ht
  remembered := hre ▸ h.remembered

/-- **A call about one Host**: the picture covers it afterwards, or it is not connected with an
    older certificate. -/
theorem Follows.touched (ht : Touched name w w')
    (hcert : sc'.clientCertificate = sc.clientCertificate)
    (hre : sc'.state.reloaded = sc.state.reloaded)
    (hheld : ∀ n, n ≠ name → sc'.held.lookup n = sc.held.lookup n)
    (hself : ∀ host, w'.shared.hosts.find name = some host → host.tls = tls →
      Pictured sc' name ∨ k ≤ w'.connected name) :
    Follows cert digest k sc' w' where
  read := by
    rw [ht.secretAt]
    exact h.read
  certificate b hb := h.certificate b (hcert ▸ hb)
  covered n host hf htls := by
    by_cases hn : n = name
    · subst hn
      exact hself host hf htls
    · rw [(ht.others n hn).2]
      rw [(ht.others n hn).1] at hf
      unfold Pictured
      rw [hheld n hn]
      exact h.covered n host hf htls
  remembered := by
    rw [hre]
    exact h.remembered.touched ht

/-- **A call that was answered**: the picture takes the Host as battery has it. -/
theorem Follows.answered {got : Host} (hc : Called name w w' (.ok got)) :
    Follows cert digest k (sc.hold name got) w' := by
  refine h.touched hc.toTouched rfl rfl (fun n hn => lookup_hold_ne sc got hn) fun host hf ht => ?_
  rw [hc.answer got rfl] at hf
  cases hf
  exact .inl ⟨got, lookup_hold_self sc name got, ht⟩

/-- **A call that failed**: what it gave its TLS settings is connected with the newest
    certificate. -/
theorem Follows.failed {e : BatteryError} (hc : Called name w w' (.error e)) :
    Follows cert digest k sc w' := by
  refine h.touched hc.toTouched rfl rfl (fun _ _ => rfl) fun host hf ht => ?_
  rcases hc.lost e rfl host hf ht with ⟨old, hold, holdt, hle⟩ | hnew
  · exact (h.covered name old hold holdt).imp_right fun hk => Nat.le_trans hk hle
  · rw [hnew]
    exact .inr h.read

/-- A Host that battery does not hold is dropped. -/
theorem Follows.dropped (hnone : w.shared.hosts.find name = none) :
    Follows cert digest k (sc.drop name) w := by
  have htouched : Touched name w w := .same rfl rfl rfl rfl name
  refine h.touched htouched rfl rfl (fun n hn => lookup_drop_ne sc hn) fun host hf _ => ?_
  simp [hnone] at hf

/-- **Every call of the steps leaves what is known.** -/
theorem Follows.heard {o : Op} {f : Choice} {a : o.Ans} (ho : sc.Calls o)
    (hle : ∀ n, w.connected n ≤ w.mountedAt) (hkept : answerKept f o w = true)
    (hx : wiredExec f o w = some (a, w')) : Follows cert digest k (sc.heard o a) w' := by
  cases o with
  | addHost host skip =>
    have hc := called_addHost hle hkept hx
    cases a with
    | error e => exact h.failed hc
    | ok got => exact h.answered hc
  | getHost name =>
    have hc := called_getHost hx
    cases a with
    | error e => exact h.failed hc
    | ok got => exact h.answered hc
  | updateHost host skip =>
    have hc := (called_updateHost hle hkept hx).1
    cases a with
    | error e => exact h.failed hc
    | ok got => exact h.answered hc
  | cordonHost name reason =>
    have hc := called_cordonHost hle hx
    cases a with
    | error e => exact h.failed hc
    | ok got => exact h.answered hc
  | uncordonHost name =>
    have hc := called_uncordonHost hle hx
    cases a with
    | error e => exact h.failed hc
    | ok got => exact h.answered hc
  | removeHost name =>
    obtain ⟨htouched, hsame, hbefore, hok, hnotFound⟩ := called_removeHost hx
    have hkeep : Follows cert digest k sc w' := by
      refine h.touched htouched rfl rfl (fun _ _ => rfl) fun host hh ht => ?_
      rw [hsame]
      exact h.covered name host (hbefore host hh) ht
    cases a with
    | ok => exact hkeep.dropped (hok rfl)
    | error e =>
      by_cases hk : e.kind = .notFound
      · rw [heard_removed sc hk]
        exact hkeep.dropped (hnotFound e rfl hk)
      · rw [heard_refused sc hk]
        exact hkeep
  | _ => exact ho.elim

end Follows

theorem WireRely.refl (w : Wired) : WireRely w w := ⟨rfl, rfl, Nat.le_refl _, Nat.le_refl _⟩

theorem WireRely.trans {a b c : Wired} (h1 : WireRely a b) (h2 : WireRely b c) : WireRely a c :=
  ⟨h2.hosts.trans h1.hosts, h2.connected.trans h1.connected,
    Nat.le_trans h1.secretAt h2.secretAt, Nat.le_trans h1.mountedAt h2.mountedAt⟩

/-- An operation that is about no Host touches neither battery nor its connections. -/
theorem wiredExec_rely {o : Op} {f : Choice} {a : o.Ans} (ho : o.about = none)
    (h : wiredExec f o w = some (a, w')) : WireRely w w' := by
  obtain ⟨hexec, hs, hm, hc, -⟩ := wiredExec_spec h
  have hnone : takesEffect f o w.shared.hosts = none := by
    unfold takesEffect
    split
    · rfl
    · split
      · cases ho
      · cases ho
      · rfl
  have hhosts : (exec f o w.shared).2.hosts = w.shared.hosts := by
    cases o with
    | listNodes | listHosts | getSecret | mountedCertificate | now | publish | state | remember =>
      rfl
    | addHost | getHost | updateHost | removeHost | cordonHost | uncordonHost => cases ho
  refine ⟨?_, ?_, ?_, ?_⟩
  · rw [← hhosts, hexec]
  · rw [hc, hnone]
    rfl
  · rw [hs]
  · rw [hm]

end Knowledge

/-! ## 2. The steps -/

/-- The machine of the runs in which the answers are kept. -/
def keptAnswers (r : InventoryReconciler) (cert : Nat → Bytes) :
    Machine Unit Choice WireAct Op Op.Ans Wired :=
  (wired r cert).restrict (fun _ => answerKept) fun _ _ => true

/-- What a program needs to end in `Q`. -/
abbrev WireWp (r : InventoryReconciler) (cert : Nat → Bytes) {α : Type} (p : Code α)
    (Q : α → Wired → Prop) (w : Wired) : Prop :=
  wp (keptAnswers r cert) (wireSpec cert r.digest) () p Q w

/-- A fact that the world around leaves alone. -/
def Lasting (P : Wired → Prop) : Prop := ∀ w w', P w → WireRely w w' → P w'

section Rules

variable {r : InventoryReconciler} {cert : Nat → Bytes} {α β : Type} {P : Wired → Prop}
  {Q : β → Wired → Prop} {w : Wired} {sc : Scope} {k : Nat} {name : String}

theorem wwp_seq (p : Code α) (f : α → Code β)
    (h : WireWp r cert p (fun a w' => WireWp r cert (f a) Q w') w) :
    WireWp r cert (p >>= f) Q w := wp_bind WireRely.refl p f h

theorem wwp_done (hP : Lasting P) {a : β} (h : P w) (hQ : ∀ w', P w' → Q a w') :
    WireWp r cert (pure a) Q w := fun w' hR _ => hQ w' (hP w w' h hR)

/-- **An operation.** -/
theorem wwp_ask (hP : Lasting P) {o : Op} {f : o.Ans → Code β} (h : P w)
    (hpre : ∀ w', P w' → WirePre cert r.digest w' o)
    (hk : ∀ w1 c a w2, WireInv cert r.digest w1 → P w1 → answerKept c o w1 = true →
      wiredExec c o w1 = some (a, w2) → WireWp r cert (f a) Q w2) :
    WireWp r cert (ask o >>= f) Q w := by
  intro w1 hR hI
  refine ⟨hpre w1 (hP w w1 h hR), fun c a w2 hx _ => ?_⟩
  obtain ⟨hkept, hx⟩ := restrict_exec hx
  exact hk w1 c a w2 hI (hP w w1 h hR) hkept hx

theorem lasting_follows : Lasting (Follows cert r.digest k sc) := fun _ _ h hR => h.rely hR

/-- What Reload knows, with the names still to do: the certificate is mounted; as long as no Host
    failed, each is connected with it, or is still to do. -/
structure Reloading (cert : Nat → Bytes) (digest : Bytes → String) (k : Nat) (rest : List String)
    (x : Scope × Bool) (w : Wired) : Prop where
  mounted : k ≤ w.mountedAt
  remembered : MayRemember cert digest x.1.state.reloaded w
  covered : x.2 = false → ∀ n h, w.shared.hosts.find n = some h → h.tls = tls →
    (n ∈ rest ∧ Pictured x.1 n) ∨ k ≤ w.connected n

variable {rest : List String} {x : Scope × Bool}

theorem lasting_reloading : Lasting (Reloading cert r.digest k rest x) := by
  intro w w' h hR
  refine ⟨Nat.le_trans h.mounted hR.mountedAt, h.remembered.rely hR, fun hx n host hf ht => ?_⟩
  rw [hR.connected]
  rw [hR.hosts] at hf
  exact h.covered hx n host hf ht

theorem wwp_reloading (h : Reloading cert r.digest k rest x w) :
    WireWp r cert (pure x) (Reloading cert r.digest k rest) w :=
  wwp_done lasting_reloading h fun _ hr => hr

/-- A round that does nothing is about a Host that the picture does not show with the TLS
    settings. -/
theorem Reloading.skip (h : Reloading cert r.digest k (name :: rest) x w)
    (hnot : ¬ Pictured x.1 name) : Reloading cert r.digest k rest x w := by
  refine ⟨h.mounted, h.remembered, fun hx n host hf ht => ?_⟩
  rcases h.covered hx n host hf ht with ⟨hn, hp⟩ | hc
  · rcases List.mem_cons.mp hn with rfl | hn
    · exact absurd hp hnot
    · exact .inl ⟨hn, hp⟩
  · exact .inr hc

/-- **One round of Reload.** -/
theorem wwp_reload (h : Reloading cert r.digest k (name :: rest) x w) :
    WireWp r cert (reload x name) (Reloading cert r.digest k rest) w := by
  obtain ⟨sc, failed⟩ := x
  unfold reload
  dsimp only
  split
  next hnone =>
    refine wwp_reloading (h.skip ?_)
    rintro ⟨host, hheld, -⟩
    rw [hnone] at hheld
    cases hheld
  next host hheld =>
    split
    next htls =>
      refine wwp_reloading (h.skip ?_)
      rintro ⟨host', hheld', ht⟩
      rw [hheld] at hheld'
      cases hheld'
      exact htls ht
    · refine wwp_ask lasting_reloading h (fun _ _ => trivial) fun w1 c a w2 hI hr hkept hx => ?_
      obtain ⟨hcalled, hnew⟩ := called_updateHost hI.connected hkept hx
      have htouched := hcalled.toTouched
      have hmounted : k ≤ w2.mountedAt := by
        rw [htouched.mountedAt]
        exact hr.mounted
      -- the other Hosts are as they were
      have others : ∀ sc' : Scope, (∀ n, n ≠ name → sc'.held.lookup n = sc.held.lookup n) →
          failed = false → ∀ n host, n ≠ name → w2.shared.hosts.find n = some host →
          host.tls = tls → (n ∈ rest ∧ Pictured sc' n) ∨ k ≤ w2.connected n := by
        intro sc' hheld' hfailed n host hn hf ht
        rw [(htouched.others n hn).1] at hf
        rw [(htouched.others n hn).2]
        rcases hr.covered hfailed n host hf ht with ⟨hm, hp⟩ | hc
        · refine .inl ⟨(List.mem_cons.mp hm).resolve_left hn, ?_⟩
          unfold Pictured
          rw [hheld' n hn]
          exact hp
        · exact .inr hc
      cases a with
      | ok got =>
        refine wwp_reloading ⟨hmounted, hr.remembered.touched htouched,
          fun hfailed n host' hf ht => ?_⟩
        by_cases hn : n = name
        · subst hn
          rw [hnew got rfl]
          exact .inr hr.mounted
        · exact others _ (fun n hn => lookup_hold_ne sc got hn) hfailed n host' hn hf ht
      | error e =>
        dsimp only
        split
        next hk =>
          refine wwp_reloading ⟨hmounted, hr.remembered.touched htouched,
            fun hfailed n host' hf ht => ?_⟩
          by_cases hn : n = name
          · subst hn
            simp [hcalled.notFound e rfl hk] at hf
          · exact others _ (fun n hn => lookup_drop_ne sc hn) hfailed n host' hn hf ht
        · exact wwp_reloading ⟨hmounted, hr.remembered.touched htouched,
            nofun⟩

/-! ## 3. The chain -/

/-- What the scope remembers may be remembered. -/
def Remembers (cert : Nat → Bytes) (digest : Bytes → String) (sc : Scope) (w : Wired) : Prop :=
  MayRemember cert digest sc.state.reloaded w

theorem lasting_remembers : Lasting (Remembers cert r.digest sc) := fun _ _ h hR => h.rely hR

theorem stable_remembers (sc : Scope) :
    Stable (wireSpec cert r.digest) () (Remembers cert r.digest sc) :=
  fun _ _ h hR _ => h.rely hR

/-- A step that keeps what is known. -/
theorem wwp_next {o : Outcome Scope} (h : Follows cert r.digest k o.scope w) :
    WireWp r cert (pure o)
      (Next (Follows cert r.digest k) fun x => Remembers cert r.digest x.1) w :=
  wwp_done lasting_follows h fun _ hf =>
    ⟨fun _ _ => hf, fun _ _ _ => hf.remembered, fun _ _ _ => hf.remembered⟩

/-- **Cordon, Register, Secure and Remove.** -/
theorem wwp_hostStep {o : Options} {sub : SubReconciler Code Scope} (hsub : sub ∈ hostSteps o)
    (h : Follows cert r.digest k sc w) : WireWp r cert (sub sc)
      (Next (Follows cert r.digest k) fun x => Remembers cert r.digest x.1) w := by
  refine wp_mono ?_ _ (wp_walks (K := Follows cert r.digest k)
    (fun _ w w' h hR _ => lasting_follows w w' h hR) ?_ ?_ _ (hostSteps_walk hsub sc) h)
  · rintro out w' - ⟨sc', ⟨errs, he⟩, hf⟩
    have hf' : Follows cert r.digest k out.scope w' := by
      refine hf.scope ?_ ?_ ?_ <;> rw [he]
    exact ⟨fun _ _ => hf', fun _ _ _ => hf'.remembered, fun _ _ _ => hf'.remembered⟩
  · intro g o w' ho _ _
    cases o with
    | remember => exact ho.elim
    | _ => trivial
  · intro g f o w' a w'' ho hI hf hx
    obtain ⟨hkept, hx⟩ := restrict_exec hx
    exact hf.heard ho hI.connected hkept hx

/-- **Reload**: the digest it remembers is one that may be remembered. -/
theorem wwp_reloadStep {o : Options}
    (hdigest : ∀ i j, r.digest (cert i) = r.digest (cert j) → i = j)
    (h : Follows cert r.digest k sc w) :
    WireWp r cert (Reload.reconcile o r.digest sc)
      (Next (Remembers cert r.digest) fun x => Remembers cert r.digest x.1) w := by
  have keeps : ∀ {o : Outcome Scope} {w : Wired}, Remembers cert r.digest o.scope w →
      WireWp r cert (pure o)
        (Next (Remembers cert r.digest) fun x => Remembers cert r.digest x.1) w :=
    fun h => wwp_done lasting_remembers h fun _ hr =>
      ⟨fun _ _ => hr, fun _ _ _ => hr, fun _ _ _ => hr⟩
  unfold Reload.reconcile
  split
  · exact keeps h.remembered
  next b hb =>
    obtain rfl := h.certificate b hb
    split
    · exact keeps h.remembered
    · refine wwp_ask lasting_follows h (fun _ _ => trivial) fun w1 c a w2 hI hf _ hx => ?_
      have hf2 := hf.rely (wiredExec_rely rfl hx)
      obtain ⟨hread, -, hm, -, -⟩ := wiredExec_spec hx
      have ha := (Prod.mk.inj hread).1
      cases a with
      | error e => cases e <;> exact keeps hf2.remembered
      | ok b =>
        dsimp only
        split
        next hcert =>
          have hb : b = cert w1.mountedAt := hI.mounted b ha
          have hk : w1.mountedAt = k := hdigest _ _ (congrArg r.digest (hb.symm.trans hcert))
          have hstart : Reloading cert r.digest k sc.held.sortedKeys (sc, false) w2 := by
            refine ⟨?_, hf2.remembered, fun _ n host hh ht => ?_⟩
            · rw [hm, hk]
            · refine (hf2.covered n host hh ht).imp_left fun hp => ⟨?_, hp⟩
              obtain ⟨held, hheld, -⟩ := hp
              exact Dict.mem_sortedKeys.mpr (AList.lookup_isSome.mp (by rw [hheld]; rfl))
          refine wwp_seq _ _ (wp_mono (fun x w3 _ hr => ?_) _ (wp_foldlM_rest
            WireRely.refl (I := Reloading cert r.digest k)
            (fun x w w' hr hR _ => lasting_reloading w w' hr hR) _
            (fun n rest x w hr => wwp_reload hr) hstart))
          obtain ⟨sc', failed⟩ := x
          cases failed with
          | true => exact keeps hr.remembered
          | false =>
            refine keeps fun i hi => ?_
            obtain rfl := hdigest _ _ hi
            refine ⟨hr.mounted, fun n host hh ht => ?_⟩
            exact (hr.covered rfl n host hh ht).resolve_left fun hp => nomatch hp.1
        · exact keeps hf2.remembered

theorem wwp_chain (hdigest : ∀ i j, r.digest (cert i) = r.digest (cert j) → i = j)
    (h : Follows cert r.digest k sc w) :
    WireWp r cert (r.chain.run sc) (fun o => Remembers cert r.digest o.scope) w := by
  have steps : Ends (keptAnswers r cert) (wireSpec cert r.digest) () (Follows cert r.digest k)
      (fun x => Remembers cert r.digest x.1) r.chain.steps := by
    have hstable : ∀ x : Left Scope, Stable (wireSpec cert r.digest) ()
      (Remembers cert r.digest x.1) := fun x => stable_remembers x.1
    refine ends_cons (Q := Follows cert r.digest k) WireRely.refl hstable (fun sc w h => ?_) ?_
    · exact wwp_next (h.scope rfl rfl rfl)
    refine ends_cons (Q := Follows cert r.digest k) WireRely.refl hstable (fun sc w h => ?_) ?_
    · refine wwp_ask lasting_follows h (fun _ _ => trivial) fun w1 c now w2 _ hf _ hx => ?_
      exact wwp_next ((hf.rely (wiredExec_rely rfl hx)).scope rfl rfl rfl)
    refine ends_cons (Q := Follows cert r.digest k) WireRely.refl hstable (fun sc w h => ?_) ?_
    · refine wwp_ask lasting_follows h (fun _ _ => trivial) fun w1 c a w2 _ hf _ hx => ?_
      exact wwp_next (hf.rely (wiredExec_rely rfl hx))
    refine ends_append (hostSteps r.options) WireRely.refl hstable
      (fun sub hsub sc w h => wwp_hostStep hsub h) ?_
    refine ends_cons (Q := Remembers cert r.digest) WireRely.refl hstable
      (fun sc w h => wwp_reloadStep hdigest h) ?_
    exact ends_nil stable_remembers fun _ _ _ _ h => h
  refine wwp_seq _ _ (wp_mono (fun x w1 _ h => ?_) _ (steps sc w {} h))
  obtain ⟨sc1, out, errs⟩ := x
  refine wwp_seq _ _ (wp_mono (fun x w2 _ h => ?_) _
    (wp_runFinally WireRely.refl stable_remembers _ ?_ h))
  · exact wwp_done lasting_remembers h fun _ hr => hr
  · intro sub hsub sc w h
    simp only [InventoryReconciler.chain, List.mem_cons, List.not_mem_nil, or_false] at hsub
    rcases hsub with rfl | rfl
    · refine wwp_ask lasting_remembers h (fun _ _ => trivial) fun w1 c a w2 _ hf _ hx => ?_
      exact wwp_done lasting_remembers (hf.rely (wiredExec_rely rfl hx)) fun _ hr => hr
    · exact wwp_done lasting_remembers h fun _ hr => hr

/-! ## 4. The reconcile -/

/-- The certificate that is read is one that has been issued. -/
theorem wwp_clientCertificate (hP : Lasting P) (h : P w) :
    WireWp r cert r.clientCertificate (fun x w =>
      P w ∧ ∃ k, k ≤ w.secretAt ∧ ∀ b, x = .ok (some b) → b = cert k) w := by
  have hlast : ∀ x : Except String (Option Bytes), Lasting fun w =>
      P w ∧ ∃ k, k ≤ w.secretAt ∧ ∀ b, x = .ok (some b) → b = cert k := by
    rintro x w w' ⟨hp, k, hk, hb⟩ hR
    exact ⟨hP w w' hp hR, k, Nat.le_trans hk hR.secretAt, hb⟩
  refine wwp_ask hP h (fun _ _ => trivial) fun w1 c a w2 hI hp _ hx => ?_
  have hrely := wiredExec_rely rfl hx
  have ha := (Prod.mk.inj (wiredExec_spec hx).1).1
  rw [hI.secret] at ha
  have hbytes : ∀ b, a = .ok b → b = cert w1.secretAt := by
    rintro b rfl
    cases c with
    | ok => exact (Except.ok.inj ha).symm
    | fail applied e => cases ha
  have hissued : ∀ x : Except String (Option Bytes),
      (∀ b, x = .ok (some b) → b = cert w1.secretAt) →
      P w2 ∧ ∃ k, k ≤ w2.secretAt ∧ ∀ b, x = .ok (some b) → b = cert k :=
    fun x hx => ⟨hP w1 w2 hp hrely, w1.secretAt, hrely.secretAt, hx⟩
  cases a with
  | error e =>
    refine wwp_done (hlast _) (hissued _ fun b hb => ?_) fun _ h => h
    split at hb <;> cases hb
  | ok got =>
    refine wwp_done (hlast _) (hissued _ fun b hb => ?_) fun _ h => h
    split at hb
    · cases hb
    · cases hb
      exact hbytes got rfl

theorem wwp_reconcile (hdigest : ∀ i j, r.digest (cert i) = r.digest (cert j) → i = j) (w : Wired) :
    WireWp r cert r.reconcile (fun _ _ => True) w := by
  have nothing : Lasting fun _ : Wired => True := fun _ _ _ _ => trivial
  have ends : ∀ (x : Result × Option String) (w : Wired),
      WireWp r cert (pure x) (fun _ _ => True) w :=
    fun x w => wwp_done nothing trivial fun _ _ => trivial
  refine wwp_ask nothing trivial (fun _ _ => trivial) fun w1 c nodes w2 _ _ _ hx => ?_
  cases nodes with
  | error e => exact ends _ _
  | ok nodes =>
    refine wwp_ask nothing trivial (fun _ _ => trivial) fun w3 c a w4 _ _ _ hx => ?_
    obtain ⟨hlist, -⟩ := wiredExec_spec hx
    cases a with
    | error e => exact ends _ _
    | ok hosts =>
      have hhosts : hosts = w3.shared.hosts.list := by
        have ha := (Prod.mk.inj hlist).1
        cases c with
        | ok => exact (Except.ok.inj ha).symm
        | fail applied e => cases ha
      have hheld : w4.shared.hosts = w3.shared.hosts := (wiredExec_rely rfl hx).hosts
      -- battery's Hosts stay what was listed until the first call
      have same : Lasting fun w => w.shared.hosts = w3.shared.hosts :=
        fun w w' h hR => hR.hosts.trans h
      refine wwp_seq _ _ (wp_mono (fun x w5 _ hl => ?_) _
        (wwp_clientCertificate same hheld))
      cases x with
      | error err => exact ends _ _
      | ok certificate =>
        obtain ⟨hl, k, hk, hb⟩ := hl
        have known : Lasting fun w => w.shared.hosts = w3.shared.hosts ∧ k ≤ w.secretAt :=
          fun w w' h hR => ⟨hR.hosts.trans h.1, Nat.le_trans h.2 hR.secretAt⟩
        refine wwp_ask known ⟨hl, hk⟩ (fun _ _ => trivial)
          fun w6 c state w7 hI hl _ hx => ?_
        have hrely := wiredExec_rely rfl hx
        have hstate : w6.shared.state = state := (Prod.mk.inj (wiredExec_spec hx).1).1
        refine wwp_seq _ _ (wp_mono (fun o w8 _ hr => ?_) _
          (wwp_chain hdigest (k := k) ?_))
        · exact wwp_ask lasting_remembers hr (fun _ hr => hr) fun _ _ _ _ _ _ _ _ => ends _ _
        · obtain ⟨hl', hk'⟩ := known w6 w7 hl hrely
          refine ⟨hk', fun b hbe => hb b (congrArg Except.ok hbe), fun n host hf ht => ?_, ?_⟩
          · refine .inl ⟨host, ?_, ht⟩
            rw [hl'] at hf
            rw [hhosts]
            exact (lookup_byName w3.shared.hosts n).trans hf
          · rw [← hstate]
            exact hI.remembered.rely hrely

end Rules

/-! ## 5. The machine -/

section Sound

variable {r : InventoryReconciler} {cert : Nat → Bytes} {w w' : Wired} {f : Choice} {o : Op}
  {a : o.Ans}

/-- No operation touches the Secret or the mount, and only the last one what is remembered. -/
theorem exec_kept {s s' : Shared} (h : exec f o s = (a, s')) :
    s'.secret = s.secret ∧ s'.mounted = s.mounted ∧
      (s'.state = s.state ∨ o = .remember s'.state) := by
  cases o with
  | listNodes | listHosts | getSecret | mountedCertificate | now | getHost | publish | state =>
    cases h
    exact ⟨rfl, rfl, .inl rfl⟩
  | remember state =>
    cases h
    exact ⟨rfl, rfl, .inr rfl⟩
  | addHost | updateHost | removeHost | cordonHost | uncordonHost =>
    obtain ⟨hs, -⟩ := call_spec h
    rw [← hs]
    exact ⟨rfl, rfl, .inl rfl⟩

/-- **Every operation keeps what may be remembered.** -/
theorem exec_mayRemember {remembered : String} (hI : WireInv cert r.digest w)
    (hkept : answerKept f o w = true) (hx : wiredExec f o w = some (a, w'))
    (h : MayRemember cert r.digest remembered w) : MayRemember cert r.digest remembered w' := by
  cases o with
  | listNodes | listHosts | getSecret | mountedCertificate | now | publish | state | remember =>
    exact h.rely (wiredExec_rely rfl hx)
  | addHost => exact h.touched (called_addHost hI.connected hkept hx).toTouched
  | getHost => exact h.touched (called_getHost hx).toTouched
  | updateHost => exact h.touched (called_updateHost hI.connected hkept hx).1.toTouched
  | removeHost => exact h.touched (called_removeHost hx).1
  | cordonHost => exact h.touched (called_cordonHost hI.connected hx).toTouched
  | uncordonHost => exact h.touched (called_uncordonHost hI.connected hx).toTouched

theorem connect_le (h : ∀ n, w.connected n ≤ w.mountedAt) (host : Option String) (n : String) :
    w.connect host n ≤ w.mountedAt := by
  cases host with
  | none => exact h n
  | some name =>
    show Function.update w.connected name w.mountedAt n ≤ w.mountedAt
    rw [Function.update_apply]
    split
    · exact Nat.le_refl _
    · exact h n

theorem exec_wireInv (hI : WireInv cert r.digest w) (hpre : WirePre cert r.digest w o)
    (hkept : answerKept f o w = true) (hx : wiredExec f o w = some (a, w')) :
    WireInv cert r.digest w' := by
  obtain ⟨hexec, hs, hm, hc, -⟩ := wiredExec_spec hx
  obtain ⟨hsecret, hmounted, hstate⟩ := exec_kept hexec
  refine ⟨?_, ?_, ?_, fun n => ?_, ?_⟩
  · rw [hsecret, hs]
    exact hI.secret
  · rw [hmounted, hm]
    exact hI.mounted
  · rw [hm, hs]
    exact hI.order
  · rw [hc, hm]
    exact connect_le hI.connected _ n
  · rcases hstate with he | he
    · rw [he]
      exact exec_mayRemember hI hkept hx hI.remembered
    · rw [he] at hpre
      exact exec_mayRemember hI hkept hx hpre

/-- What happens without the Operator keeps the invariant, and leaves battery alone. -/
theorem env_wire {act : WireAct} (hI : WireInv cert r.digest w)
    (hx : wireEnv cert act w = some w') : WireInv cert r.digest w' ∧ WireRely w w' := by
  cases act with
  | renew =>
    cases hx
    have hrely : WireRely w { w with
        shared := { w.shared with secret := .ok (cert (w.secretAt + 1)) }
        secretAt := w.secretAt + 1 } := ⟨rfl, rfl, Nat.le_succ _, Nat.le_refl _⟩
    exact ⟨⟨rfl, hI.mounted, Nat.le_succ_of_le hI.order, hI.connected, hI.remembered.rely hrely⟩,
      hrely⟩
  | unlink =>
    cases hx
    exact ⟨{ hI with mounted := nofun }, rfl, rfl, Nat.le_refl _, Nat.le_refl _⟩
  | swap number =>
    obtain ⟨hle, hx⟩ := Option.ite_none_right_eq_some.mp hx
    cases hx
    have hrely : WireRely w { w with
        shared := { w.shared with mounted := .ok (cert number) }
        mountedAt := number } := ⟨rfl, rfl, Nat.le_refl _, hle.1⟩
    exact ⟨⟨hI.secret, fun b hb => (Except.ok.inj hb).symm, hle.2,
      fun n => Nat.le_trans (hI.connected n) hle.1, hI.remembered.rely hrely⟩, hrely⟩
  | setNodes | tick =>
    cases hx
    exact ⟨{ hI with }, rfl, rfl, Nat.le_refl _, Nat.le_refl _⟩

/-- **The reconcile remembers a certificate only if no Host has an older one.** -/
theorem wire_sound (hdigest : ∀ i j, r.digest (cert i) = r.digest (cert j) → i = j)
    (hempty : ∀ i, r.digest (cert i) ≠ "") :
    Sound (keptAnswers r cert) (wireSpec cert r.digest) where
  refl _ := WireRely.refl
  trans _ _ _ _ := WireRely.trans
  idle _ _ _ _ _ _ := trivial
  env_inv act w w' hI hx := (env_wire hI (restrict_env hx).2).1
  env_rely _ act w w' hI hx := (env_wire hI (restrict_env hx).2).2
  exec_inv _ _ _ _ _ _ hI hpre hx := by
    obtain ⟨hkept, hx⟩ := restrict_exec hx
    exact exec_wireInv hI hpre hkept hx
  exec_rely _ _ _ _ _ _ _ hne := absurd (Subsingleton.elim _ _) hne
  crash_inv w hI := by
    exact { hI with remembered := fun i hi => absurd hi.symm (hempty i) }
  crash_idle _ _ _ := trivial
  spawn _ w _ _ := by
    refine wwp_seq _ _ (wp_mono (fun _ _ _ _ => ?_) _ (wwp_reconcile hdigest w))
    exact wwp_done (fun _ _ _ _ => trivial) trivial fun _ _ => trivial

end Sound

/-- **Every Host follows the client certificate.** In every run in which an AddHost, or an
    UpdateHost for a Host without the TLS settings, fails after it took effect only while the mount
    holds the Secret's certificate: whenever the digest remembered is that of the Secret's
    certificate, every Host that battery holds with the TLS settings was last connected with it. -/
theorem hosts_follow_certificate {r : InventoryReconciler} {cert : Nat → Bytes}
    (hdigest : ∀ i j, r.digest (cert i) = r.digest (cert j) → i = j)
    (hempty : ∀ i, r.digest (cert i) ≠ "") {w0 w : WiredWorld} (h0 : WireStart cert w0)
    (hrun : (wired r cert).Run
      (fun w a => meets (fun _ => answerKept) (fun _ _ => true) w a = true) w0 w)
    (hreloaded : w.shared.shared.state.reloaded = r.digest (cert w.shared.secretAt))
    {n : String} {host : Host} (hf : w.shared.shared.hosts.find n = some host)
    (ht : host.tls = tls) : w.shared.connected n = w.shared.secretAt := by
  have hstart : Safe (keptAnswers r cert) (wireSpec cert r.digest) w0 := by
    refine ⟨⟨h0.secret, h0.mounted, h0.order, h0.connected, fun i hi => ?_⟩, fun t p hp => ?_,
      fun _ _ => trivial⟩
    · rw [h0.state] at hi
      exact absurd hi.symm (hempty i)
    · simp [h0.running] at hp
  have hI := ((wire_sound hdigest hempty).reach hstart (run_restrict hrun)).inv
  have hge : w.shared.secretAt ≤ w.shared.connected n :=
    (hI.remembered _ hreloaded).2 n host hf ht
  exact Nat.le_antisymm (Nat.le_trans (hI.connected n) hI.order) hge

def ones (i : Nat) : Bytes := List.replicate i 1

theorem atOnce_digest {i j : Nat} (h : atOnce.digest (ones i) = atOnce.digest (ones j)) :
    i = j := by
  have hlist := String.ofList_injective h
  have hlen := congrArg List.length hlist
  simp only [ones, List.length_replicate] at hlen
  omega

theorem atOnce_digest_ne (i : Nat) : atOnce.digest (ones i) ≠ "" := by
  intro h
  have hlist := String.ofList_injective (h.trans String.ofList_nil.symm)
  cases hlist

/-- battery holds no Host, and one Node is ready; the first certificate is mounted. -/
def firstCertificate : WiredWorld where
  shared :=
    { shared :=
        { nodes := [hostNode]
          secret := .ok (ones 1)
          mounted := .ok (ones 1)
          now := 0
          hosts := .empty
          hostSet := {}
          state := {} }
      secretAt := 1
      mountedAt := 1
      connected := fun _ => 0 }
  running := fun _ => none

theorem firstCertificate_start : WireStart ones firstCertificate :=
  ⟨rfl, rfl, rfl, fun _ hb => (Except.ok.inj hb).symm, Nat.le_refl _, fun _ => Nat.zero_le _⟩

/-- A reconcile adds the Host; the certificate is renewed. A second reconcile finds the mount being
    swapped, and a third makes battery read the new certificate. -/
theorem hosts_follow_certificate_renewed :
    ∃ w, (wired atOnce ones).Run
        (fun w a => meets (fun _ => answerKept) (fun _ _ => true) w a = true)
        firstCertificate w ∧
      w.shared.secretAt = 2 ∧
      w.shared.shared.state.reloaded = atOnce.digest (ones w.shared.secretAt) ∧
      w.shared.connected "host-1" = w.shared.secretAt := by
  have hw : ∃ w, (wired atOnce ones).Run
      (fun w a => meets (fun _ => answerKept) (fun _ _ => true) w a = true)
      firstCertificate w ∧ w.shared.secretAt = 2 ∧
        w.shared.shared.state.reloaded = atOnce.digest (ones w.shared.secretAt) ∧
        (w.shared.shared.hosts.find "host-1").any (fun host => host.tls = tls) = true :=
    exists_run firstCertificate
      (.spawn () :: List.replicate 12 (.exec () .ok) ++
        [.env .renew, .env .unlink, .spawn ()] ++ List.replicate 10 (.exec () .ok) ++
        [.env (.swap 2), .spawn ()] ++ List.replicate 11 (.exec () .ok))
      (fun w => w.shared.secretAt = 2 ∧
        w.shared.shared.state.reloaded = atOnce.digest (ones w.shared.secretAt) ∧
        (w.shared.shared.hosts.find "host-1").any (fun host => host.tls = tls) = true)
      (by decide +kernel)
  obtain ⟨w, hrun, hsecret, hre, hheld⟩ := hw
  obtain ⟨host, hf, ht⟩ := (Option.any_eq_true ..).mp hheld
  refine ⟨w, hrun, hsecret, hre, ?_⟩
  exact hosts_follow_certificate (fun _ _ h => atOnce_digest h) atOnce_digest_ne
    firstCertificate_start hrun hre hf (of_decide_eq_true ht)

/-- The certificate is renewed. A reconcile reads it and adds the Host, which is connected with the
    certificate still mounted; the answer is lost. Then the mount is swapped, and the reconcile goes
    on to its end. -/
def lostAnswer : List (Act Unit Choice WireAct) :=
  [.env .renew, .spawn ()] ++ List.replicate 6 (.exec () .ok) ++
    [.exec () (.fail true ⟨.unavailable, "connection lost"⟩), .env (.swap 2)] ++
    List.replicate 4 (.exec () .ok)

/-- Where the answer is lost: the digest remembered is the Secret's, and the Host is connected with
    the certificate of before. -/
theorem host_keeps_old_certificate :
    WireStart ones firstCertificate ∧
    ∃ w, (wired atOnce ones).Run (fun _ _ => True) firstCertificate w ∧
      w.running () = none ∧
      w.shared.shared.state.reloaded = atOnce.digest (ones w.shared.secretAt) ∧
      (∃ host, w.shared.shared.hosts.find "host-1" = some host ∧ host.tls = tls) ∧
      w.shared.connected "host-1" ≠ w.shared.secretAt := by
  have hw : ∃ w, (wired atOnce ones).Run (fun _ _ => True) firstCertificate w ∧
      (w.running ()).isNone = true ∧
      w.shared.shared.state.reloaded = atOnce.digest (ones w.shared.secretAt) ∧
      (w.shared.shared.hosts.find "host-1").any (fun host => host.tls = tls) = true ∧
      w.shared.connected "host-1" ≠ w.shared.secretAt :=
    exists_run firstCertificate lostAnswer
      (fun w => (w.running ()).isNone = true ∧
        w.shared.shared.state.reloaded = atOnce.digest (ones w.shared.secretAt) ∧
        (w.shared.shared.hosts.find "host-1").any (fun host => host.tls = tls) = true ∧
        w.shared.connected "host-1" ≠ w.shared.secretAt) (by decide +kernel)
  obtain ⟨w, hrun, hidle, hre, hheld, hc⟩ := hw
  obtain ⟨host, hf, ht⟩ := (Option.any_eq_true ..).mp hheld
  exact ⟨firstCertificate_start, w, hrun, Option.isNone_iff_eq_none.mp hidle, hre,
    ⟨host, hf, of_decide_eq_true ht⟩, hc⟩

end BatteryOperator.Inventory
