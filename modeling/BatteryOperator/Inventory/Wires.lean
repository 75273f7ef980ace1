/-
  Subject:   The client certificate battery is connected to each Host with.

  The certificates of the Secret are numbered in the order in which they are issued. battery reads
  the mounted certificate when an AddHost or an UpdateHost takes effect for a Host, and is connected
  to the Host with that one. The mount follows the Secret: it is swapped to a later certificate at
  any moment, also inside a reconcile. While it is being swapped, the Operator finds no file there
  and battery still has the certificate of before.

  * `wired` -- the inventory's machine with these numbers; `answerKept` -- a condition on its steps;
  * `Touched`, `Called` -- what one call does to what battery is connected with;
  * `called_addHost` to `called_removeHost` -- **every call, however it ends**.
-/
import BatteryOperator.Inventory.Calm

namespace BatteryOperator.Inventory

open Lib

/-! ## 1. What battery is connected with -/

/-- The state, with the numbers of the certificates: the Secret's, the mounted one, and the one
    each Host was last connected with. -/
structure Wired where
  shared : Shared
  secretAt : Nat
  mountedAt : Nat
  connected : String → Nat

/-- The Host that an AddHost or UpdateHost takes effect for. -/
def takesEffect (f : Choice) (o : Op) (t : HostTable) : Option String :=
  match f with
  | .fail false _ => none
  | _ =>
    match o with
    | .addHost host _ => if succeeded (t.addHost host).1 then some host.name else none
    | .updateHost host _ => if succeeded (t.updateHost host).1 then some host.name else none
    | _ => none

/-- The Host a call is about. -/
def Op.about : Op → Option String
  | .addHost host _ => some host.name
  | .getHost name => some name
  | .updateHost host _ => some host.name
  | .removeHost name => some name
  | .cordonHost name _ => some name
  | .uncordonHost name => some name
  | _ => none

/-- A call that fails is answered NOT_FOUND only if battery does not hold the Host. -/
def truthful (f : Choice) (o : Op) (t : HostTable) : Bool :=
  match f, o.about with
  | .fail _ e, some name => e.kind ≠ .notFound ∨ t.find name = none
  | _, _ => true

/-- battery connects to the Host with the mounted certificate. -/
def Wired.connect (w : Wired) (host : Option String) : String → Nat :=
  match host with
  | none => w.connected
  | some name => Function.update w.connected name w.mountedAt

/-- **One operation.** -/
def wiredExec (f : Choice) (o : Op) (w : Wired) : Option (o.Ans × Wired) :=
  if truthful f o (exec f o w.shared).2.hosts then
    some ((exec f o w.shared).1,
      { w with
        shared := (exec f o w.shared).2
        connected := w.connect (takesEffect f o w.shared.hosts) })
  else none

/-- What happens without the Operator. -/
inductive WireAct where
  /-- A certificate is issued and stored in the Secret. -/
  | renew
  /-- The mount does not exist: it is being swapped. -/
  | unlink
  /-- The mount is swapped to a later certificate. -/
  | swap (number : Nat)
  | setNodes (nodes : List Node)
  | tick (nanoseconds : Nat)

/-- The certificates are `cert 0`, `cert 1`, ... -/
def wireEnv (cert : Nat → Bytes) : WireAct → Wired → Option Wired
  | .renew, w =>
    some { w with
      shared := { w.shared with secret := .ok (cert (w.secretAt + 1)) }
      secretAt := w.secretAt + 1 }
  | .unlink, w => some { w with shared := { w.shared with mounted := .error .notExist } }
  | .swap number, w =>
    if w.mountedAt ≤ number ∧ number ≤ w.secretAt then
      some { w with
        shared := { w.shared with mounted := .ok (cert number) }
        mountedAt := number }
    else none
  | .setNodes nodes, w => some { w with shared := { w.shared with nodes := nodes } }
  | .tick n, w => some { w with shared := { w.shared with now := w.shared.now + n } }

/-- **The machine.** -/
def wired (r : InventoryReconciler) (cert : Nat → Bytes) :
    Machine Unit Choice WireAct Op Op.Ans Wired where
  exec _ := wiredExec
  env := wireEnv cert
  prog := (machine r).prog
  crash w := { w with shared := (machine r).crash w.shared }

abbrev WiredWorld := World Unit Op Op.Ans Wired

/-- An Operator that has just started: battery's Hosts, and the certificates it is connected with,
    are arbitrary ones of before. -/
structure WireStart (cert : Nat → Bytes) (w : WiredWorld) : Prop where
  running : w.running () = none
  state : w.shared.shared.state = {}
  secret : w.shared.shared.secret = .ok (cert w.shared.secretAt)
  mounted : ∀ b, w.shared.shared.mounted = .ok b → b = cert w.shared.mountedAt
  order : w.shared.mountedAt ≤ w.shared.secretAt
  connected : ∀ n, w.shared.connected n ≤ w.shared.mountedAt

/-- **The condition**: an AddHost, or an UpdateHost for a Host without the TLS settings, fails after
    it took effect only while the mount holds the Secret's certificate. -/
def answerKept (f : Choice) (o : Op) (w : Wired) : Bool :=
  match f, takesEffect f o w.shared.hosts with
  | .fail _ _, some name =>
    w.mountedAt = w.secretAt ∨ (w.shared.hosts.find name).any (fun h => h.tls = tls)
  | _, _ => true

/-! ## 2. What one call does -/

/-- **A call about the Host `name`**: the others stay connected as they were; the Host, if it has
    the TLS settings afterwards, had them before and is connected no earlier, or has just been
    connected. -/
structure Touched (name : String) (w w' : Wired) : Prop where
  secretAt : w'.secretAt = w.secretAt
  mountedAt : w'.mountedAt = w.mountedAt
  others : ∀ n, n ≠ name → w'.shared.hosts.find n = w.shared.hosts.find n ∧
    w'.connected n = w.connected n
  self : ∀ h', w'.shared.hosts.find name = some h' → h'.tls = tls →
    (∃ h, w.shared.hosts.find name = some h ∧ h.tls = tls ∧
      w.connected name ≤ w'.connected name) ∨ w'.connected name = w.mountedAt

/-- A call that answers with the Host. -/
structure Called (name : String) (w w' : Wired) (r : Except BatteryError Host) : Prop extends
    Touched name w w' where
  answer : ∀ got, r = .ok got → w'.shared.hosts.find name = some got
  lost : ∀ e, r = .error e → ∀ h', w'.shared.hosts.find name = some h' → h'.tls = tls →
    (∃ h, w.shared.hosts.find name = some h ∧ h.tls = tls ∧
      w.connected name ≤ w'.connected name) ∨ w'.connected name = w.secretAt
  notFound : ∀ e, r = .error e → e.kind = .notFound → w'.shared.hosts.find name = none

section Calls

variable {w w' : Wired} {f : Choice} {name : String}

/-- battery left its Hosts alone. -/
theorem Touched.same (hs : w'.secretAt = w.secretAt) (hm : w'.mountedAt = w.mountedAt)
    (hh : w'.shared.hosts = w.shared.hosts) (hc : w'.connected = w.connected) (name : String) :
    Touched name w w' := by
  refine ⟨hs, hm, fun n _ => ⟨by rw [hh], by rw [hc]⟩, fun h' hf ht => .inl ⟨h', ?_, ht, ?_⟩⟩
  · rw [← hh]
    exact hf
  · rw [hc]

/-- The connection to a Host, after a call that connects or does not. -/
def reconnect (connects : Bool) (name : String) : Option String :=
  if connects then some name else none

theorem connect_self (w : Wired) (name : String) :
    w.connect (reconnect true name) name = w.mountedAt := Function.update_self ..

theorem connect_other (w : Wired) (connects : Bool) {n : String} (hn : n ≠ name) :
    w.connect (reconnect connects name) n = w.connected n := by
  cases connects with
  | true => exact Function.update_of_ne hn ..
  | false => rfl

/-- battery acted on the Host: it connected to it, or left its TLS settings as they were. -/
theorem Touched.acted {connects : Bool} {got : Host} (hs : w'.secretAt = w.secretAt)
    (hm : w'.mountedAt = w.mountedAt)
    (hact : Acted name (some got) w.shared.hosts w'.shared.hosts)
    (hc : w'.connected = w.connect (reconnect connects name))
    (htls : connects = false → ∃ old, w.shared.hosts.find name = some old ∧ got.tls = old.tls) :
    Touched name w w' := by
  refine ⟨hs, hm, fun n hn => ⟨hact.other hn, ?_⟩, fun h' hf ht => ?_⟩
  · rw [hc]
    exact connect_other w connects hn
  · rw [hc]
    cases connects with
    | true => exact .inr (connect_self w name)
    | false =>
      obtain ⟨old, hold, he⟩ := htls rfl
      rw [hact.self] at hf
      cases hf
      exact .inl ⟨old, hold, he ▸ ht, Nat.le_refl _⟩

variable {r : Except BatteryError Host} {o : Op}

/-- The call takes effect if battery serves it. -/
def Choice.acts : Choice → Bool
  | .fail false _ => false
  | _ => true

/-- A call that failed and left everything as it was. -/
theorem called_same (e : BatteryError) (hn : e.kind = .notFound → w.shared.hosts.find name = none) :
    Called name w w (.error e) := by
  refine ⟨.same rfl rfl rfl rfl name, nofun, fun _ _ h' hf ht => .inl ⟨h', hf, ht, Nat.le_refl _⟩,
    fun e' he hk => ?_⟩
  cases he
  exact hn hk

/-- **A call that answers with the Host**, from how battery serves it: it connects to the Host, or
    leaves its TLS settings as they are. -/
theorem called_of (connects : Bool) {Q : Host → Prop}
    {served : Except BatteryError Host × HostTable} (hserved : Serves name Q w.shared.hosts served)
    (htls : connects = false → ∀ got, Q got →
      ∃ old, w.shared.hosts.find name = some old ∧ got.tls = old.tls)
    (hcall : f.call served w.shared = (r, w'.shared)) (hs : w'.secretAt = w.secretAt)
    (hm : w'.mountedAt = w.mountedAt)
    (hc : w'.connected = w.connect (reconnect (f.acts && succeeded served.1 && connects) name))
    (htrue : ∀ applied e, f = .fail applied e → e.kind = .notFound →
      w'.shared.hosts.find name = none)
    (hkept : connects = true → ∀ applied e, f = .fail applied e → f.acts = true →
      succeeded served.1 = true →
      w.mountedAt = w.secretAt ∨ ∃ h, w.shared.hosts.find name = some h ∧ h.tls = tls)
    (hle : ∀ n, w.connected n ≤ w.mountedAt) : Called name w w' r := by
  obtain ⟨shared', secretAt', mountedAt', connected'⟩ := w'
  dsimp only at hcall hs hm hc htrue
  subst hs hm hc
  cases hserved with
  | refused e hn =>
    cases f with
    | ok =>
      cases hcall
      exact called_same e hn
    | fail applied e' =>
      cases applied with
      | true | false =>
        cases hcall
        exact called_same e' (htrue _ _ rfl)
  | stored got t hact hq =>
    have htouched : Touched name w ⟨{ w.shared with hosts := t }, w.secretAt, w.mountedAt,
        w.connect (reconnect connects name)⟩ :=
      .acted rfl rfl hact rfl fun h => htls h got hq
    cases f with
    | ok =>
      cases hcall
      refine ⟨htouched, fun got' hg => ?_, nofun, nofun⟩
      cases hg
      exact hact.self
    | fail applied e =>
      cases applied with
      | false =>
        cases hcall
        exact called_same e (htrue _ _ rfl)
      | true =>
        cases hcall
        refine ⟨htouched, nofun, fun e' _ h' hf ht => ?_, fun e' he hk => ?_⟩
        · -- the answer is lost while the mount holds the Secret's certificate
          rcases htouched.self h' hf ht with hself | hself
          · exact .inl hself
          · cases connects with
            | false =>
              obtain ⟨old, hold, he⟩ := htls rfl got hq
              cases hact.self.symm.trans hf
              exact .inl ⟨old, hold, he ▸ ht, Nat.le_refl _⟩
            | true =>
              rcases hkept rfl _ _ rfl rfl rfl with hk | ⟨h, hh, ht'⟩
              · exact .inr (hself.trans hk)
              · exact .inl ⟨h, hh, ht', Nat.le_trans (hle name) (Nat.le_of_eq hself.symm)⟩
        · cases he
          exact htrue _ _ rfl hk

/-- What an operation did, and that a failure was not answered NOT_FOUND of a Host that is held. -/
theorem wiredExec_spec {r : o.Ans} (h : wiredExec f o w = some (r, w')) :
    exec f o w.shared = (r, w'.shared) ∧ w'.secretAt = w.secretAt ∧ w'.mountedAt = w.mountedAt ∧
      w'.connected = w.connect (takesEffect f o w.shared.hosts) ∧
      ∀ name, o.about = some name → ∀ applied e, f = .fail applied e → e.kind = .notFound →
        w'.shared.hosts.find name = none := by
  obtain ⟨htrue, h⟩ := Option.ite_none_right_eq_some.mp h
  cases h
  refine ⟨rfl, rfl, rfl, rfl, ?_⟩
  rintro name hname applied e rfl hk
  unfold truthful at htrue
  rw [hname] at htrue
  exact (of_decide_eq_true htrue).resolve_left fun hne => hne hk

theorem answerKept_spec (h : answerKept f o w = true) {applied : Bool} {e : BatteryError}
    (hf : f = .fail applied e) (he : takesEffect f o w.shared.hosts = some name) :
    w.mountedAt = w.secretAt ∨ ∃ h, w.shared.hosts.find name = some h ∧ h.tls = tls := by
  unfold answerKept at h
  rw [he] at h
  subst hf
  rcases of_decide_eq_true h with hm | ht
  · exact .inl hm
  · obtain ⟨host, hh, ht⟩ := (Option.any_eq_true ..).mp ht
    exact .inr ⟨host, hh, of_decide_eq_true ht⟩

/-- A call that battery refuses takes no effect, nor does one that failed before. -/
theorem takesEffect_addHost (t : HostTable) (host : Host) (skip : Bool) :
    takesEffect f (.addHost host skip) t =
      reconnect (f.acts && succeeded (t.addHost host).1 && true) host.name := by
  cases f with
  | ok => simp [takesEffect, reconnect, Choice.acts]
  | fail applied e => cases applied <;> simp [takesEffect, reconnect, Choice.acts]

theorem takesEffect_updateHost (t : HostTable) (host : Host) (skip : Bool) :
    takesEffect f (.updateHost host skip) t =
      reconnect (f.acts && succeeded (t.updateHost host).1 && true) host.name := by
  cases f with
  | ok => simp [takesEffect, reconnect, Choice.acts]
  | fail applied e => cases applied <;> simp [takesEffect, reconnect, Choice.acts]

section Called

variable (hle : ∀ n, w.connected n ≤ w.mountedAt)
include hle

theorem called_addHost {host : Host} {skip : Bool}
    (hkept : answerKept f (.addHost host skip) w = true)
    (h : wiredExec f (.addHost host skip) w = some (r, w')) : Called host.name w w' r := by
  obtain ⟨hcall, hs, hm, hc, htrue⟩ := wiredExec_spec h
  rw [takesEffect_addHost] at hc
  refine called_of true (serves_addHost w.shared.hosts host) nofun hcall hs hm hc
    (htrue host.name rfl) (fun _ _ _ hf ha hsucc => answerKept_spec hkept hf ?_) hle
  rw [takesEffect_addHost, ha, hsucc]
  rfl

theorem called_updateHost {host : Host} {skip : Bool}
    (hkept : answerKept f (.updateHost host skip) w = true)
    (h : wiredExec f (.updateHost host skip) w = some (r, w')) :
    Called host.name w w' r ∧ ∀ got, r = .ok got → w'.connected host.name = w.mountedAt := by
  obtain ⟨hcall, hs, hm, hc, htrue⟩ := wiredExec_spec h
  rw [takesEffect_updateHost] at hc
  refine ⟨called_of true (serves_updateHost w.shared.hosts host) nofun hcall hs hm hc
    (htrue host.name rfl) (fun _ _ _ hf ha hsucc => answerKept_spec hkept hf ?_) hle,
    fun got hr => ?_⟩
  · rw [takesEffect_updateHost, ha, hsucc]
    rfl
  · -- an answer: the call took effect
    cases f with
    | fail applied e => cases applied <;> cases hr.symm.trans (congrArg Prod.fst hcall).symm
    | ok =>
      change Choice.ok.call (w.shared.hosts.updateHost host) w.shared = (r, w'.shared) at hcall
      have hserved := (call_spec hcall).2.2
      rw [hc, hserved got hr]
      exact connect_self w host.name

/-- CordonHost and UncordonHost connect to no Host. -/
theorem called_setCordoned {cordoned : Bool} {reason : String}
    (hcall : f.call (w.shared.hosts.setCordoned name cordoned reason) w.shared = (r, w'.shared))
    (hs : w'.secretAt = w.secretAt) (hm : w'.mountedAt = w.mountedAt)
    (hc : w'.connected = w.connect none)
    (htrue : ∀ applied e, f = .fail applied e → e.kind = .notFound →
      w'.shared.hosts.find name = none) :
    Called name w w' r := by
  refine called_of false (serves_setCordoned w.shared.hosts name cordoned reason)
    (fun _ got hq => ?_) hcall hs hm (by rw [Bool.and_false]; exact hc) htrue nofun hle
  obtain ⟨old, hold, rfl⟩ := hq
  exact ⟨old, hold, rfl⟩

theorem called_cordonHost {reason : String}
    (h : wiredExec f (.cordonHost name reason) w = some (r, w')) : Called name w w' r := by
  obtain ⟨hcall, hs, hm, hc, htrue⟩ := wiredExec_spec h
  refine called_setCordoned hle hcall hs hm (hc.trans (congrArg w.connect ?_)) (htrue name rfl)
  unfold takesEffect
  split <;> rfl

theorem called_uncordonHost (h : wiredExec f (.uncordonHost name) w = some (r, w')) :
    Called name w w' r := by
  obtain ⟨hcall, hs, hm, hc, htrue⟩ := wiredExec_spec h
  refine called_setCordoned hle hcall hs hm (hc.trans (congrArg w.connect ?_)) (htrue name rfl)
  unfold takesEffect
  split <;> rfl

end Called

/-- GetHost changes nothing. -/
theorem called_getHost (h : wiredExec f (.getHost name) w = some (r, w')) : Called name w w' r := by
  obtain ⟨hget, hs, hm, hc, htrue⟩ := wiredExec_spec h
  have hsame : w'.connected = w.connected := by
    rw [hc]
    unfold takesEffect
    split <;> rfl
  obtain ⟨hr, hsh⟩ := Prod.mk.inj hget
  have hh : w'.shared.hosts = w.shared.hosts := by rw [hsh]
  refine ⟨.same hs hm hh hsame name, fun got hg => ?_, fun e _ h' hf ht => .inl ⟨h', ?_, ht, ?_⟩,
    fun e he hk => ?_⟩
  · subst hg
    rw [hh]
    cases f with
    | fail applied e => cases hr
    | ok => exact getHost_ok.mp hr
  · rw [← hh]
    exact hf
  · rw [hsame]
  · subst he
    cases f with
    | fail applied e' =>
      cases hr
      exact htrue name rfl applied e rfl hk
    | ok =>
      change w.shared.hosts.getHost name = .error e at hr
      rw [hh]
      cases hf : w.shared.hosts.find name with
      | none => rfl
      | some host => cases (getHost_ok.mpr hf).symm.trans hr

/-- RemoveHost: a Host that is removed, or of which battery says NOT_FOUND, is not held. -/
theorem called_removeHost {r : Except BatteryError Unit}
    (h : wiredExec f (.removeHost name) w = some (r, w')) :
    Touched name w w' ∧ w'.connected = w.connected ∧
      (∀ h', w'.shared.hosts.find name = some h' → w.shared.hosts.find name = some h') ∧
      (r = .ok () → w'.shared.hosts.find name = none) ∧
      ∀ e, r = .error e → e.kind = .notFound → w'.shared.hosts.find name = none := by
  obtain ⟨hcall, hs, hm, hc, htrue⟩ := wiredExec_spec h
  have hsame : w'.connected = w.connected := by
    rw [hc]
    unfold takesEffect
    split <;> rfl
  change f.call (w.shared.hosts.removeHost name) w.shared = _ at hcall
  have hbefore : ∀ h', w'.shared.hosts.find name = some h' →
      w.shared.hosts.find name = some h' := by
    intro h' hf
    rcases (removeHost_effect hcall).2 with hh | hact
    · rw [← hh]
      exact hf
    · simp [hact.self] at hf
  refine ⟨⟨hs, hm, fun n hn => ⟨?_, by rw [hsame]⟩,
    fun h' hf ht => .inl ⟨h', hbefore h' hf, ht, ?_⟩⟩, hsame, hbefore, fun hr => ?_, ?_⟩
  · rcases (removeHost_effect hcall).2 with hh | hact
    · rw [hh]
    · exact hact.other hn
  · rw [hsame]
  · have hserved := (call_spec hcall).2.2 () hr
    rcases removeHost_cases w.shared.hosts name with ⟨e, he, -⟩ | ⟨t, he, hact⟩
    · cases he.symm.trans hserved
    · cases he.symm.trans hserved
      exact hact.self
  · rintro e rfl hk
    cases f with
    | fail applied e' =>
      have he : e' = e := by cases applied <;> exact Except.error.inj (congrArg Prod.fst hcall)
      exact htrue name rfl applied e' rfl (he ▸ hk)
    | ok =>
      rcases removeHost_cases w.shared.hosts name with ⟨e', he, hnone⟩ | ⟨t, he, -⟩
      · rw [he] at hcall
        rw [← (Prod.mk.inj hcall).2]
        exact hnone
      · rw [he] at hcall
        cases hcall

end Calls

end BatteryOperator.Inventory
