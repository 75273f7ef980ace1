/-
  Subject:   Published Hosts are placeable Hosts.

  * `Covered t p` -- battery holds every Host of `p` uncordoned at its address: the invariant, at
    every moment;
  * `Pre` -- the duty before each call: a Host is cordoned, removed or moved only while it is not
    published;
  * `Going D sc` -- what a reconcile knows after Withdraw: only desired Hosts are published, at the
    address its picture of battery has, and where that picture shows a desired Host placeable at
    its address, battery has it so. A lost answer leaves the picture behind, but only on Hosts it
    does not show placeable at the address desired;
  * `inventory_sound` -- **the reconcile meets its duties**, whichever calls fail.
-/
import BatteryOperator.Inventory.Settle
import BatteryOperator.Inventory.System

namespace BatteryOperator.Inventory

open Lib Machine

/-! ## 1. The invariant and the duties -/

/-- battery holds the Host uncordoned at the address. -/
def Placeable (t : HostTable) (n a : String) : Prop :=
  ∃ h, t.find n = some h ∧ h.cordoned = false ∧ h.address = a

/-- Every Host of `p` is placeable. -/
def Covered (t : HostTable) (p : Hosts) : Prop := ∀ n a, p.lookup n = some a → Placeable t n a

/-- What the controller owes before each operation. -/
def Pre (s : Shared) : Op → Prop
  | .cordonHost name _ => s.hostSet.hosts.lookup name = none
  | .removeHost name => s.hostSet.hosts.lookup name = none
  | .updateHost host _ => ∀ h, s.hosts.find host.name = some h → h.address ≠ host.address →
      s.hostSet.hosts.lookup host.name = none
  | .publish hosts => Covered s.hosts hosts
  | _ => True

/-- What the world around the Operator leaves alone. -/
structure Rely (s s' : Shared) : Prop where
  hosts : s'.hosts = s.hosts
  hostSet : s'.hostSet = s.hostSet

/-- **The specification of the reconcile.** -/
def spec : Spec Unit Op Shared where
  Inv s := Covered s.hosts s.hostSet.hosts
  Pre _ o s := Pre s o
  Rely _ := Rely
  Idle _ _ := True

/-! ## 2. What a call does -/

/-- `t'` is `t` but for the Host called `name`. -/
def Acted (name : String) (new : Option Host) (t t' : HostTable) : Prop :=
  ∀ n, t'.find n = if n = name then new else t.find n

variable {name n : String} {new : Option Host} {t t' : HostTable} {Q : Host → Prop}
  {r : Except BatteryError Host} {p : Hosts} {o : Options}

theorem Acted.self (h : Acted name new t t') : t'.find name = new := by
  rw [h name, if_pos rfl]

theorem Acted.other (h : Acted name new t t') (hn : n ≠ name) : t'.find n = t.find n := by
  rw [h n, if_neg hn]

theorem acted_put (t : HostTable) (h : Host) (ha : h.address ≠ "") :
    Acted h.name (some h) t (t.put h ha) := HostTable.find_put t h ha

/-- battery serves a call about the Host called `name`: it refuses, with NOT_FOUND only for a Host
    that it does not hold, or it stores a Host that meets `Q` and answers with it. -/
inductive Serves (name : String) (Q : Host → Prop) (t : HostTable) :
    Except BatteryError Host × HostTable → Prop where
  | refused (e : BatteryError) (hn : e.kind = .notFound → t.find name = none) :
      Serves name Q t (.error e, t)
  | stored (got : Host) (t' : HostTable) (hact : Acted name (some got) t t') (hq : Q got) :
      Serves name Q t (.ok got, t')

/-- A new Host is stored uncordoned. -/
def Added (t : HostTable) (host got : Host) : Prop :=
  t.find host.name = none ∧ got = { host with cordoned := false, cordonedReason := "" }

/-- A Host that is updated keeps its cordon state. -/
def Updated (t : HostTable) (host got : Host) : Prop :=
  ∃ old, t.find host.name = some old ∧
    got = { host with cordoned := old.cordoned, cordonedReason := old.cordonedReason }

/-- A Host that is cordoned or uncordoned keeps the rest. -/
def Marked (t : HostTable) (name : String) (cordoned : Bool) (reason : String) (got : Host) :
    Prop :=
  ∃ old, t.find name = some old ∧ got = { old with cordoned := cordoned, cordonedReason := reason }

theorem serves_addHost (t : HostTable) (host : Host) :
    Serves host.name (Added t host) t (t.addHost host) := by
  unfold HostTable.addHost
  split
  · exact .refused _ nofun
  · split
    · exact .refused _ nofun
    next ha =>
      split
      · exact .refused _ nofun
      next hn =>
        refine .stored _ _ ?_ ⟨hn, rfl⟩
        exact acted_put t { host with cordoned := false, cordonedReason := "" } ha

theorem serves_updateHost (t : HostTable) (host : Host) :
    Serves host.name (Updated t host) t (t.updateHost host) := by
  unfold HostTable.updateHost
  split
  next hn => exact .refused _ fun _ => hn
  next old hold =>
    split
    · exact .refused _ nofun
    next ha =>
      refine .stored _ _ ?_ ⟨old, hold, rfl⟩
      exact acted_put t
        { host with cordoned := old.cordoned, cordonedReason := old.cordonedReason } ha

theorem serves_setCordoned (t : HostTable) (name : String) (cordoned : Bool) (reason : String) :
    Serves name (Marked t name cordoned reason) t (t.setCordoned name cordoned reason) := by
  unfold HostTable.setCordoned
  split
  · exact .refused _ nofun
  next old hold =>
    obtain rfl := HostTable.find_name hold
    refine .stored _ _ ?_ ⟨old, hold, rfl⟩
    exact acted_put t { old with cordoned := cordoned, cordonedReason := reason }
      (HostTable.find_address (h := old) hold)

/-- RemoveHost takes a Host away that battery holds. -/
theorem removeHost_cases (t : HostTable) (name : String) :
    (∃ e, t.removeHost name = (.error e, t) ∧ t.find name = none) ∨
      ∃ t', t.removeHost name = (.ok (), t') ∧ Acted name none t t' := by
  unfold HostTable.removeHost
  split
  next hn => exact .inl ⟨_, rfl, hn⟩
  · exact .inr ⟨_, rfl, HostTable.find_erase t name⟩

theorem getHost_ok {host : Host} : t.getHost name = .ok host ↔ t.find name = some host := by
  unfold HostTable.getHost
  cases t.find name <;> simp

/-- **What a call about one Host did**: battery acted or it did not, and a call that was answered
    did as answered. -/
structure Effect (name : String) (Q : Host → Prop) (s s' : Shared)
    (r : Except BatteryError Host) : Prop where
  hostSet : s'.hostSet = s.hostSet
  hosts : s'.hosts = s.hosts ∨ ∃ h, Acted name (some h) s.hosts s'.hosts ∧ Q h
  answer : ∀ h, r = .ok h → Acted name (some h) s.hosts s'.hosts ∧ Q h

/-- A call changes battery's Hosts alone, as battery served it or not at all. -/
theorem call_spec {α : Type} {s s' : Shared} {f : Choice}
    {served : Except BatteryError α × HostTable}
    {r : Except BatteryError α} (h : f.call served s = (r, s')) :
    { s with hosts := s'.hosts } = s' ∧ (s'.hosts = s.hosts ∨ s'.hosts = served.2) ∧
      ∀ a, r = .ok a → served = (.ok a, s'.hosts) := by
  cases f with
  | ok =>
    cases h
    exact ⟨rfl, .inr rfl, fun a ha => Prod.ext ha rfl⟩
  | fail applied e =>
    cases applied with
    | true =>
      cases h
      exact ⟨rfl, .inr rfl, nofun⟩
    | false =>
      cases h
      exact ⟨rfl, .inl rfl, nofun⟩

theorem Serves.effect {s s' : Shared} {f : Choice} {served : Except BatteryError Host × HostTable}
    (hserved : Serves name Q s.hosts served) (h : f.call served s = (r, s')) :
    Effect name Q s s' r := by
  obtain ⟨hset, hs, hans⟩ := call_spec h
  refine ⟨by rw [← hset], ?_, fun got hr => ?_⟩
  · cases hserved with
    | refused e => exact .inl (hs.elim id id)
    | stored got t' hact hq => exact hs.imp_right fun hs => ⟨got, by rw [hs]; exact hact, hq⟩
  · rw [hans got hr] at hserved
    cases hserved with
    | stored _ _ hact hq => exact ⟨hact, hq⟩

/-- RemoveHost takes the Host away, or nothing changes. -/
theorem removeHost_effect {s s' : Shared} {f : Choice} {r : Except BatteryError Unit}
    (h : f.call (s.hosts.removeHost name) s = (r, s')) :
    s'.hostSet = s.hostSet ∧ (s'.hosts = s.hosts ∨ Acted name none s.hosts s'.hosts) := by
  obtain ⟨hset, hs, -⟩ := call_spec h
  refine ⟨by rw [← hset], ?_⟩
  rcases removeHost_cases s.hosts name with ⟨e, he, -⟩ | ⟨t, he, hact⟩
  · rw [he] at hs
    exact .inl (hs.elim id id)
  · rw [he] at hs
    exact hs.imp_right fun hs => by rw [hs]; exact hact

/-! ## 3. Every operation keeps the invariant -/

section Exec

variable {s s' : Shared} {f : Choice} {name : String}

/-- What is placeable elsewhere stays so. -/
theorem Acted.placeable {a : String} (h : Acted name new t t') (hn : n ≠ name)
    (hp : Placeable t n a) : Placeable t' n a := by
  obtain ⟨host, hf, hc, ha⟩ := hp
  exact ⟨host, (h.other hn).trans hf, hc, ha⟩

/-- An action on a Host that is not published, or that leaves it placeable, keeps the rest. -/
theorem Covered.acted (h : Covered t p) (hact : Acted name new t t')
    (hself : ∀ a, p.lookup name = some a → Placeable t' name a) : Covered t' p := by
  intro n a hn
  by_cases he : n = name
  · subst he
    exact hself a hn
  · exact hact.placeable he (h n a hn)

theorem exec_covered {o : Op} {r : o.Ans} (hI : Covered s.hosts s.hostSet.hosts)
    (hpre : Pre s o) (h : exec f o s = (r, s')) : Covered s'.hosts s'.hostSet.hosts := by
  cases o with
  | listNodes | listHosts | getSecret | mountedCertificate | now | getHost | state | remember =>
    cases h
    exact hI
  | publish hosts =>
    cases h
    intro n a hn
    rw [HostSet.lookup_publish] at hn
    exact hpre n a hn
  | addHost host skip =>
    obtain ⟨hset, hs, _⟩ := (serves_addHost s.hosts host).effect h
    rw [hset]
    rcases hs with hs | ⟨new, hact, hnone, _⟩
    · rw [hs]
      exact hI
    · refine hI.acted hact fun a ha => ?_
      obtain ⟨old, hold, _⟩ := hI _ _ ha
      rw [hnone] at hold
      cases hold
  | updateHost host skip =>
    obtain ⟨hset, hs, _⟩ := (serves_updateHost s.hosts host).effect h
    rw [hset]
    rcases hs with hs | ⟨new, hact, old, hold, rfl⟩
    · rw [hs]
      exact hI
    · refine hI.acted hact fun a ha => ?_
      -- a published Host is updated at the address it has
      obtain ⟨old', hold', hc', ha'⟩ := hI _ _ ha
      rw [hold] at hold'
      cases hold'
      have hsame : old.address = host.address := by
        by_contra hne
        rw [hpre old hold hne] at ha
        cases ha
      exact ⟨_, hact.self, hc', hsame.symm.trans ha'⟩
  | removeHost name =>
    obtain ⟨hset, hs⟩ := removeHost_effect h
    rw [hset]
    rcases hs with hs | hact
    · rw [hs]
      exact hI
    · refine hI.acted hact fun a ha => ?_
      rw [show s.hostSet.hosts.lookup name = none from hpre] at ha
      cases ha
  | cordonHost name reason =>
    obtain ⟨hset, hs, _⟩ := (serves_setCordoned s.hosts name true reason).effect h
    rw [hset]
    rcases hs with hs | ⟨new, hact, _⟩
    · rw [hs]
      exact hI
    · refine hI.acted hact fun a ha => ?_
      rw [show s.hostSet.hosts.lookup name = none from hpre] at ha
      cases ha
  | uncordonHost name =>
    obtain ⟨hset, hs, _⟩ := (serves_setCordoned s.hosts name false "").effect h
    rw [hset]
    rcases hs with hs | ⟨new, hact, old, hold, rfl⟩
    · rw [hs]
      exact hI
    · refine hI.acted hact fun a ha => ?_
      obtain ⟨old', hold', _, ha'⟩ := hI _ _ ha
      rw [hold] at hold'
      cases hold'
      exact ⟨_, hact.self, rfl, ha'⟩

end Exec

/-! ## 4. What a reconcile knows -/

/-- **After Withdraw**: `D` is desired, the picture `sc.held` is right about the published Hosts'
    addresses, and about every desired Host that it shows placeable at its address. -/
structure GoingAt (D : Hosts) (sc : Scope) (t : HostTable) (p : Hosts) : Prop where
  desired : sc.desired = some D
  published : ∀ n a, p.lookup n = some a → D.lookup n = some a
  address : ∀ n a h, p.lookup n = some a → sc.held.lookup n = some h → h.address = a
  accurate : ∀ n d h, D.lookup n = some d → sc.held.lookup n = some h → h.cordoned = false →
    h.address = d → Placeable t n d
  addressed : ∀ n h, sc.held.lookup n = some h → h.address ≠ ""

/-- ... in a state. -/
def Going (D : Hosts) (sc : Scope) (s : Shared) : Prop := GoingAt D sc s.hosts s.hostSet.hosts

/-- Before Withdraw: the picture is what battery listed. -/
def Listed (sc : Scope) (s : Shared) : Prop := ∀ n, sc.held.lookup n = s.hosts.find n

section Going

variable {D : Hosts} {sc sc' : Scope} {s s' : Shared} {name : String}

/-- The scope's failures and memory are not read. -/
theorem Going.scope (h : Going D sc s) (hd : sc'.desired = sc.desired) (hh : sc'.held = sc.held) :
    Going D sc' s where
  desired := hd.trans h.desired
  published := h.published
  address n a host hp hl := h.address n a host hp (hh ▸ hl)
  accurate n d host hD hl := h.accurate n d host hD (hh ▸ hl)
  addressed n host hl := h.addressed n host (hh ▸ hl)

/-- **A call about one Host**: what is known of the others stays; of the Host itself the new
    picture has to be right. -/
theorem Going.call (h : Going D sc s) (hd : sc'.desired = sc.desired)
    (hset : s'.hostSet = s.hostSet) (hoff : ∀ n, n ≠ name → s'.hosts.find n = s.hosts.find n)
    (hheld : ∀ n, n ≠ name → sc'.held.lookup n = sc.held.lookup n)
    (hself : ∀ host, sc'.held.lookup name = some host → host.address ≠ "" ∧
      (∀ a, s.hostSet.hosts.lookup name = some a → host.address = a) ∧
      (∀ d, D.lookup name = some d → host.cordoned = false → host.address = d →
        Placeable s'.hosts name d)) : Going D sc' s' := by
  refine ⟨hd.trans h.desired, ?_, ?_, ?_, ?_⟩
  · rw [hset]
    exact h.published
  · rw [hset]
    intro n a host hp hl
    by_cases hn : n = name
    · subst hn
      exact (hself host hl).2.1 a hp
    · rw [hheld n hn] at hl
      exact h.address n a host hp hl
  · intro n d host hD hl hc ha
    by_cases hn : n = name
    · subst hn
      exact (hself host hl).2.2 d hD hc ha
    · rw [hheld n hn] at hl
      obtain ⟨host', hf, hrest⟩ := h.accurate n d host hD hl hc ha
      exact ⟨host', (hoff n hn).trans hf, hrest⟩
  · intro n host hl
    by_cases hn : n = name
    · subst hn
      exact (hself host hl).1
    · rw [hheld n hn] at hl
      exact h.addressed n host hl

/-- What a call leaves alone. -/
theorem Effect.off (h : Effect name Q s s' r) (n : String) (hn : n ≠ name) :
    s'.hosts.find n = s.hosts.find n := by
  rcases h.hosts with he | ⟨host, hact, _⟩
  · rw [he]
  · exact hact.other hn

theorem lookup_hold_self (sc : Scope) (name : String) (h : Host) :
    (sc.hold name h).held.lookup name = some h := AList.lookup_insert sc.held

theorem lookup_hold_ne (sc : Scope) (h : Host) (hn : n ≠ name) :
    (sc.hold name h).held.lookup n = sc.held.lookup n := AList.lookup_insert_ne hn

theorem lookup_drop_self (sc : Scope) (name : String) :
    (sc.drop name).held.lookup name = none := AList.lookup_erase name sc.held

theorem lookup_drop_ne (sc : Scope) (hn : n ≠ name) :
    (sc.drop name).held.lookup n = sc.held.lookup n := AList.lookup_erase_ne hn

/-- A Host that is not desired is not published. -/
theorem Going.not_published (h : Going D sc s) (hn : D.lookup name = none) :
    s.hostSet.hosts.lookup name = none := by
  cases hp : s.hostSet.hosts.lookup name with
  | none => rfl
  | some a =>
    simp [h.published name a hp] at hn

theorem Going.lookup_desired (h : Going D sc s) (hn : sc.isDesired name = false) :
    D.lookup name = none := by
  unfold Scope.isDesired at hn
  rw [h.desired] at hn
  exact Option.isNone_iff_eq_none.mp (by simpa using hn)

/-- **A call that was answered**: the picture takes the Host as battery has it now. -/
theorem Going.answered (h : Going D sc s) {got : Host} (he : Effect name Q s s' (.ok got))
    (ha : ∀ a, s.hostSet.hosts.lookup name = some a → got.address = a) :
    Going D (sc.hold name got) s' := by
  refine h.call rfl he.hostSet he.off (fun n hne => lookup_hold_ne sc got hne) ?_
  intro host hl
  rw [lookup_hold_self] at hl
  cases hl
  have hself := (he.answer got rfl).1.self
  exact ⟨HostTable.find_address hself, ha, fun d _ hc had => ⟨got, hself, hc, had⟩⟩

/-- **A call that failed**: the picture stays, and is still right where it shows the Host placeable
    at the address desired, if battery's action leaves it so. -/
theorem Going.failed (h : Going D sc s) (he : Effect name Q s s' r)
    (hQ : ∀ new d held old, Q new → D.lookup name = some d → sc.held.lookup name = some held →
      held.address = d → s.hosts.find name = some old → old.cordoned = false → old.address = d →
      new.cordoned = false ∧ new.address = d) : Going D sc s' := by
  refine h.call rfl he.hostSet he.off (fun _ _ => rfl) fun host hl => ?_
  refine ⟨h.addressed name host hl, fun a ha => h.address name a host ha hl, fun d hD hc had => ?_⟩
  obtain ⟨old, hold, holdc, holda⟩ := h.accurate name d host hD hl hc had
  rcases he.hosts with hs | ⟨new, hact, hq⟩
  · rw [hs]
    exact ⟨old, hold, holdc, holda⟩
  · obtain ⟨hnc, hna⟩ := hQ new d host old hq hD hl had hold holdc holda
    exact ⟨new, hact.self, hnc, hna⟩

/-- The picture without the Host. -/
theorem Going.drop (h : Going D sc s) (name : String) : Going D (sc.drop name) s := by
  refine h.call rfl rfl (fun _ _ => rfl) (fun n hn => lookup_drop_ne sc hn) fun host hl => ?_
  simp [lookup_drop_self] at hl

/-- A Host that is desired at an address is published at no other. -/
theorem Going.wanted {host : Host} (h : Going D sc s) (hw : sc.Wants host) :
    D.lookup host.name = some host.address ∧
      ∀ a, s.hostSet.hosts.lookup host.name = some a → host.address = a := by
  obtain ⟨D', hD', hl⟩ := hw
  cases h.desired.symm.trans hD'
  exact ⟨hl, fun a ha => Option.some.inj (hl.symm.trans (h.published _ a ha))⟩

theorem Covered.update {host : Host} {skip : Bool} (hI : Covered s.hosts s.hostSet.hosts)
    (hat : ∀ a, s.hostSet.hosts.lookup host.name = some a → host.address = a) :
    Pre s (.updateHost host skip) := by
  intro old hold hne
  cases hp : s.hostSet.hosts.lookup host.name with
  | none => rfl
  | some a =>
    obtain ⟨old', hold', _, ha⟩ := hI _ a hp
    cases hold.symm.trans hold'
    exact absurd (ha.trans (hat a hp).symm) hne

/-- **UpdateHost**, to an address the Host is not moved from while it is placeable there. -/
theorem Going.update {host : Host} {skip : Bool} {f : Choice} (h : Going D sc s)
    (hx : exec f (.updateHost host skip) s = (r, s'))
    (hat : ∀ a, s.hostSet.hosts.lookup host.name = some a → host.address = a)
    (hto : ∀ d held, D.lookup host.name = some d → sc.held.lookup host.name = some held →
      held.address = d → host.address = d) :
    Going D (sc.heard (.updateHost host skip) r) s' := by
  have he := (serves_updateHost s.hosts host).effect hx
  cases r with
  | ok got =>
    refine h.answered he fun a ha => ?_
    obtain ⟨_, _, rfl⟩ := (he.answer got rfl).2
    exact hat a ha
  | error e =>
    refine h.failed he ?_
    intro new d held old hq hD hl hd hold holdc _
    obtain ⟨old', hold', rfl⟩ := hq
    cases hold.symm.trans hold'
    exact ⟨holdc, hto d held hD hl hd⟩

/-- **The duty of every call.** -/
theorem Going.duty {o : Op} (h : Going D sc s) (hI : Covered s.hosts s.hostSet.hosts)
    (ho : sc.Calls o) : Pre s o := by
  cases o with
  | cordonHost | removeHost => exact h.not_published (h.lookup_desired ho)
  | updateHost host skip =>
    refine hI.update fun a ha => ?_
    rcases ho with hw | hn
    · exact (h.wanted hw).2 a ha
    · simp [h.not_published (h.lookup_desired hn)] at ha
  | addHost | getHost | uncordonHost => trivial
  | _ => exact ho.elim

/-- **Every call leaves what is known.** -/
theorem Going.heard {o : Op} {f : Choice} {a : o.Ans} (h : Going D sc s)
    (hI : Covered s.hosts s.hostSet.hosts) (ho : sc.Calls o) (hx : exec f o s = (a, s')) :
    Going D (sc.heard o a) s' := by
  cases o with
  | addHost host skip =>
    have he := (serves_addHost s.hosts host).effect hx
    cases a with
    | ok got =>
      refine h.answered he fun a ha => ?_
      obtain ⟨_, rfl⟩ := (he.answer got rfl).2
      exact (h.wanted ho.2).2 a ha
    | error e =>
      refine h.failed he fun new d held old _ _ hheld => ?_
      rw [ho.1] at hheld
      cases hheld
  | getHost name =>
    cases hx
    cases hread : f.read (s.hosts.getHost name) with
    | error e => exact h
    | ok host =>
      have hf : s.hosts.find name = some host := by
        cases f with
        | fail applied e => cases hread
        | ok => exact getHost_ok.mp hread
      refine h.call rfl rfl (fun _ _ => rfl) (fun n hne => lookup_hold_ne sc host hne)
        fun host' hl => ?_
      cases (lookup_hold_self sc name host).symm.trans hl
      refine ⟨HostTable.find_address hf, fun a ha => ?_, fun d _ hc had => ⟨host, hf, hc, had⟩⟩
      obtain ⟨old, hold, _, ha'⟩ := hI name a ha
      cases hf.symm.trans hold
      exact ha'
  | updateHost host skip =>
    rcases ho with hw | hn
    · exact h.update hx (h.wanted hw).2 fun d _ hD _ _ =>
        Option.some.inj ((h.wanted hw).1.symm.trans hD)
    · have hnone := h.lookup_desired hn
      refine h.update hx (fun a ha => ?_) fun d held hD => ?_
      · simp [h.not_published hnone] at ha
      · simp [hnone] at hD
  | cordonHost name reason =>
    have hn := h.lookup_desired ho
    have he := (serves_setCordoned s.hosts name true reason).effect hx
    cases a with
    | error e =>
      refine h.failed he fun new d held old _ hD => ?_
      simp [hn] at hD
    | ok got =>
      refine h.answered he fun a ha => ?_
      simp [h.not_published hn] at ha
  | uncordonHost name =>
    have he := (serves_setCordoned s.hosts name false "").effect hx
    cases a with
    | error e =>
      refine h.failed he ?_
      intro new d held old hq _ _ _ hold _ holda
      obtain ⟨old', hold', rfl⟩ := hq
      cases hold.symm.trans hold'
      exact ⟨rfl, holda⟩
    | ok got =>
      refine h.answered he fun a ha => ?_
      obtain ⟨old, hold, rfl⟩ := (he.answer got rfl).2
      obtain ⟨old', hold', _, ha'⟩ := hI name a ha
      cases hold.symm.trans hold'
      exact ha'
  | removeHost name =>
    have hn := h.lookup_desired ho
    obtain ⟨hset, hs⟩ := removeHost_effect hx
    have hoff : ∀ n, n ≠ name → s'.hosts.find n = s.hosts.find n := by
      intro n hne
      rcases hs with he | hact
      · rw [he]
      · exact hact.other hne
    have hkeep : Going D sc s' := by
      refine h.call rfl hset hoff (fun _ _ => rfl) fun host hl => ?_
      refine ⟨h.addressed name host hl, fun a ha => h.address name a host ha hl, fun d hD => ?_⟩
      simp [hn] at hD
    cases a with
    | ok u => exact hkeep.drop name
    | error e =>
      by_cases hk : e.kind = .notFound
      · rw [heard_removed sc hk]
        exact hkeep.drop name
      · rw [heard_refused sc hk]
        exact hkeep
  | _ => exact ho.elim

/-- What is to be published is placeable. -/
theorem GoingAt.lookup_published (h : GoingAt D sc t p) {a : String}
    (hl : sc.published.lookup n = some a) :
    D.lookup n = some a ∧ Placeable t n a ∧ ∀ host, sc.held.lookup n = some host →
      host.address = a := by
  unfold Scope.published at hl
  rw [h.desired] at hl
  simp only at hl
  rw [Dict.lookup_filterMap, Scope.placeable, Dict.lookup_filterMap] at hl
  cases hh : sc.held.lookup n with
  | none =>
    simp [hh] at hl
  | some host =>
    rw [hh] at hl
    cases hc : host.cordoned with
    | true => simp [hc] at hl
    | false =>
      simp only [Option.bind_some, hc, Bool.false_eq_true, if_false] at hl
      obtain ⟨hentry, hl⟩ := Option.ite_none_right_eq_some.mp hl
      cases hl
      -- an address is not empty, so it is an entry of the desired Hosts
      have hD : D.lookup n = some host.address := by
        unfold entry at hentry
        cases hD : D.lookup n with
        | none =>
          rw [hD] at hentry
          exact absurd hentry.symm (h.addressed n host hh)
        | some d =>
          rw [hD] at hentry
          exact congrArg some hentry
      refine ⟨hD, h.accurate n _ host hD hh hc rfl, fun host' hl' => ?_⟩
      cases hl'
      rfl

/-- Publishing the placeable Hosts. -/
theorem GoingAt.publish {p' : Hosts} (h : GoingAt D sc t p)
    (hp : ∀ n, p'.lookup n = sc.published.lookup n) : GoingAt D sc t p' :=
  { h with
    published n a hl := by
      rw [hp] at hl
      exact (h.lookup_published hl).1
    address n a host hl hh := by
      rw [hp] at hl
      exact (h.lookup_published hl).2.2 host hh }

/-- What battery listed is a right picture, as long as nothing is published. -/
theorem Listed.goingAt (h : Listed sc s) (hd : sc.desired = some D) :
    GoingAt D sc s.hosts ∅ where
  desired := hd
  published n a hl := by cases hl
  address n a host hl := by cases hl
  accurate n d host _ hl hc ha := by
    rw [h n] at hl
    exact ⟨host, hl, hc, ha⟩
  addressed n host hl := by
    rw [h n] at hl
    exact HostTable.find_address hl

end Going

/-! ## 5. The rules for the controller's programs -/

/-- What a program of the controller needs to end in `Q`. -/
abbrev InvWp (r : InventoryReconciler) {α : Type} (p : Code α) (Q : α → Shared → Prop)
    (s : Shared) : Prop := wp (machine r) spec () p Q s

theorem Rely.refl (s : Shared) : Rely s s := ⟨rfl, rfl⟩

theorem Rely.trans {a b c : Shared} (h1 : Rely a b) (h2 : Rely b c) : Rely a c :=
  ⟨h2.hosts.trans h1.hosts, h2.hostSet.trans h1.hostSet⟩

/-- A fact about battery's Hosts and the HostSet alone. -/
def Steady (P : Shared → Prop) : Prop := ∀ s s', P s → Rely s s' → P s'

section Rules

variable {r : InventoryReconciler} {α β : Type} {P : Shared → Prop} {Q : β → Shared → Prop}
  {s : Shared} {D : Hosts} {sc : Scope}

theorem steady_going : Steady (Going D sc) := by
  intro s s' h hR
  unfold Going
  rw [hR.hosts, hR.hostSet]
  exact h

theorem steady_listed : Steady (Listed sc) := by
  intro s s' h hR n
  rw [hR.hosts]
  exact h n

theorem iwp_seq (p : Code α) (k : α → Code β)
    (h : InvWp r p (fun a s' => InvWp r (k a) Q s') s) : InvWp r (p >>= k) Q s :=
  wp_bind Rely.refl p k h

theorem iwp_done (hP : Steady P) {a : β} (h : P s) (hQ : ∀ s', P s' → Q a s') :
    InvWp r (pure a) Q s := fun s' hR _ => hQ s' (hP s s' h hR)

/-- **An operation.** -/
theorem iwp_ask (hP : Steady P) {o : Op} {k : o.Ans → Code β} (h : P s)
    (hpre : ∀ s', Covered s'.hosts s'.hostSet.hosts → P s' → Pre s' o)
    (hk : ∀ s' f a s'', Covered s'.hosts s'.hostSet.hosts → P s' → exec f o s' = (a, s'') →
      InvWp r (k a) Q s'') : InvWp r (ask o >>= k) Q s := fun s' hR hI =>
  ⟨hpre s' hI (hP s s' h hR), fun f a s'' hx _ =>
    hk s' f a s'' hI (hP s s' h hR) (Option.some.inj hx)⟩

/-! ## 6. The steps -/

theorem iwp_reload {failed : Bool} (h : Going D sc s) :
    InvWp r (reload (sc, failed) name) (fun x => Going D x.1) s := by
  have keep : ∀ {sc : Scope} {s : Shared} (failed : Bool), Going D sc s →
      InvWp r (pure (sc, failed)) (fun x => Going D x.1) s :=
    fun failed hg => iwp_done steady_going hg fun _ hg => hg
  unfold reload
  simp only
  split
  · exact keep failed h
  next host hheld =>
    split
    · exact keep failed h
    · -- the picture has the address of a published Host
      refine iwp_ask steady_going h (fun s' hI hg => hI.update fun a ha =>
        hg.address name a host ha hheld) fun s1 f a s2 hI hg hx => ?_
      have hg' := hg.update hx (fun a ha => hg.address name a host ha hheld)
        fun d held _ hl hd => by cases hl.symm.trans hheld; exact hd
      cases a with
      | ok got => exact keep failed hg'
      | error e =>
        simp only
        split
        · exact keep failed (hg'.drop name)
        · exact keep true (Going.scope hg' rfl rfl)

/-! ## 7. The chain -/

/-- What the reconcile knows after Withdraw, whatever is desired. -/
def Goes (sc : Scope) (s : Shared) : Prop := ∃ D, Going D sc s

theorem stable_goes (sc : Scope) : Stable spec () (Goes sc) := by
  intro s s' h hR _
  obtain ⟨D, hg⟩ := h
  exact ⟨D, steady_going s s' hg hR⟩

/-- A step after Withdraw that keeps what is known. -/
theorem next_goes {o : Outcome Scope} (h : Goes o.scope s) :
    Next Goes (fun x => Goes x.1) o s := ⟨fun _ _ => h, fun _ _ _ => h, fun _ _ _ => h⟩

/-- A loop over Hosts, as one step. -/
theorem iwp_loop {γ : Type} {I : γ → Shared → Prop} (hI : ∀ c, Steady (I c))
    {f : γ → String → Code γ} (names : List String)
    (hf : ∀ n ∈ names, ∀ c s, I c s → InvWp r (f c n) I s) {c : γ} {k : γ → Code (Outcome Scope)}
    {R : Outcome Scope → Shared → Prop} (h : I c s)
    (hk : ∀ c s, I c s → InvWp r (k c) R s) :
    InvWp r (names.foldlM f c >>= k) R s := by
  refine iwp_seq _ _ (wp_mono (fun c s' _ hc => hk c s' hc) _ ?_)
  exact wp_foldlM Rely.refl (fun c s s' hc hR _ => hI c s s' hc hR) names hf h

theorem iwp_next {o : Outcome Scope} (h : Goes o.scope s) :
    InvWp r (pure o) (Next Goes fun x => Goes x.1) s :=
  wp_ret (stable_goes o.scope) h fun _ _ hg => next_goes hg

/-- **Cordon, Register, Secure and Remove.** -/
theorem iwp_hostStep {sub : SubReconciler Code Scope} (hsub : sub ∈ hostSteps o) (h : Goes sc s) :
    InvWp r (sub sc) (Next Goes fun x => Goes x.1) s := by
  refine wp_mono ?_ _ (wp_walks (K := Goes) stable_goes ?_ ?_ _ (hostSteps_walk hsub sc) h)
  · rintro out s' - ⟨sc', ⟨errs, he⟩, D, hg⟩
    refine next_goes ⟨D, hg.scope ?_ ?_⟩ <;> rw [he]
  · rintro g o s' ho hI ⟨D, hg⟩
    exact hg.duty hI ho
  · rintro g f o s' a s'' ho hI ⟨D, hg⟩ hx
    exact ⟨D, hg.heard hI ho (Option.some.inj hx)⟩

theorem iwp_reloadStep {digest : Bytes → String} (h : Goes sc s) :
    InvWp r (Reload.reconcile o digest sc) (Next Goes fun x => Goes x.1) s := by
  unfold Reload.reconcile
  split
  · exact iwp_next h
  · split
    · exact iwp_next h
    · obtain ⟨D, hg⟩ := h
      refine iwp_ask steady_going hg (fun _ _ _ => trivial) fun s1 f a s2 _ hg hx => ?_
      cases hx
      cases s1.mounted with
      | error e =>
        cases e with
        | notExist => exact iwp_next ⟨D, hg⟩
        | other text => exact iwp_next ⟨D, Going.scope hg rfl rfl⟩
      | ok mounted =>
        simp only
        split
        · refine iwp_loop (I := fun x : Scope × Bool => Going D x.1) (fun _ => steady_going) _
            (fun _ _ _ _ hg => iwp_reload hg) hg fun x _ hg => ?_
          obtain ⟨sc1, failed⟩ := x
          cases failed with
          | true => exact iwp_next ⟨D, hg⟩
          | false => exact iwp_next ⟨D, Going.scope hg rfl rfl⟩
        · exact iwp_next ⟨D, hg⟩

/-- **Publishing the placeable Hosts is safe**, and keeps what is known. -/
theorem iwp_publish {P : Shared → Prop} (hP : Steady P)
    (hat : ∀ s, P s → ∃ p, GoingAt D sc s.hosts p) {Q : Outcome Scope → Shared → Prop}
    (h : P s) (hQ : ∀ s', Goes sc s' → Q { scope := sc } s') :
    InvWp r (do publishPlaceable sc; pure { scope := sc }) Q s := by
  refine iwp_ask hP h (fun s' _ hp n a hl => ?_) fun s1 f a s2 _ hp hx => ?_
  · obtain ⟨p, hg⟩ := hat s' hp
    exact (hg.lookup_published hl).2.1
  · cases hx
    obtain ⟨p, hg⟩ := hat s1 hp
    refine wp_ret (stable_goes sc) (P := Goes sc) ⟨D, ?_⟩ fun s' _ hg => hQ s' hg
    exact hg.publish fun n => HostSet.lookup_publish _ _ n

/-- The chain, from what battery listed. -/
theorem iwp_chain (h : Listed sc s) :
    InvWp r (r.chain.run sc) (fun o => Goes o.scope) s := by
  have steps : Ends (machine r) spec () Listed (fun x => Goes x.1) r.chain.steps := by
    have hstable : ∀ x : Left Scope, Stable spec () (Goes x.1) := fun x => stable_goes x.1
    refine ends_cons (Q := Listed) Rely.refl hstable (fun sc s h => ?_) ?_
    · exact iwp_done steady_listed h fun s' h => Next.of_goOn h rfl rfl
    refine ends_cons (Q := fun sc s => Listed sc s ∧ ∃ D, sc.desired = some D) Rely.refl hstable
      (fun sc s h => ?_) ?_
    · refine iwp_ask steady_listed h (fun _ _ _ => trivial) fun s1 f a s2 _ h hx => ?_
      cases hx
      refine iwp_done steady_listed h fun s' h => Next.of_goOn ⟨h, _, rfl⟩ rfl ?_
      exact settle_stop _ _ _ _ _
    refine ends_cons (Q := Goes) Rely.refl hstable (fun sc s h => ?_) ?_
    · obtain ⟨hl, D, hD⟩ := h
      exact iwp_publish steady_listed (fun s hl => ⟨∅, hl.goingAt hD⟩) hl fun s' hg => next_goes hg
    refine ends_append (hostSteps r.options) Rely.refl hstable
      (fun sub hsub sc s h => iwp_hostStep hsub h) ?_
    refine ends_cons (Q := Goes) Rely.refl hstable (fun sc s h => iwp_reloadStep h) ?_
    exact ends_nil stable_goes fun _ _ _ _ hg => hg
  refine iwp_seq _ _ (wp_mono (fun x s1 _ hg => ?_) _ (steps sc s {} h))
  obtain ⟨sc1, out, errs⟩ := x
  refine iwp_seq _ _ (wp_mono (fun x s2 _ hg => ?_) _
    (wp_runFinally Rely.refl stable_goes _ ?_ hg))
  · exact wp_ret (stable_goes x.1) hg fun _ _ hg => hg
  · intro sub hm sc s hg
    simp only [InventoryReconciler.chain, List.mem_cons, List.not_mem_nil, or_false] at hm
    rcases hm with rfl | rfl
    · obtain ⟨D, hg⟩ := hg
      exact iwp_publish steady_going (fun s hg => ⟨_, hg⟩) hg fun s' hg => hg
    · exact wp_ret (stable_goes sc) hg fun _ _ hg => hg

end Rules

/-! ## 8. The reconcile -/

/-- What is listed by name is what battery holds. -/
theorem lookup_listed (es : List (Sigma fun _ : String => Host)) (hn : es.NodupKeys)
    (hname : ∀ e ∈ es, e.2.name = e.1) (acc : Dict String Host) (n : String) :
    ((es.map Sigma.snd).foldl (fun held h => AList.insert h.name h held) acc).lookup n =
      (es.dlookup n).or (acc.lookup n) := by
  induction es generalizing acc with
  | nil => rfl
  | cons e es ih =>
    obtain ⟨k, h⟩ := e
    have hk : h.name = k := hname ⟨k, h⟩ List.mem_cons_self
    rw [List.nodupKeys_cons] at hn
    rw [List.map_cons, List.foldl_cons, ih hn.2 (fun e he => hname e (List.mem_cons_of_mem _ he)),
      Dict.lookup_insert_eq, hk]
    by_cases hkn : n = k
    · subst hkn
      rw [List.dlookup_cons_eq, List.dlookup_eq_none.mpr hn.1, if_pos rfl]
      rfl
    · rw [List.dlookup_cons_ne _ _ hkn, if_neg hkn]

theorem lookup_byName (t : HostTable) (n : String) :
    (InventoryReconciler.byName t.list).lookup n = t.find n := by
  unfold InventoryReconciler.byName HostTable.list
  rw [lookup_listed _ t.entries.nodupKeys ?_ ∅ n]
  · rw [AList.lookup_empty, Option.or_none]
    rfl
  · intro e he
    have hl : t.entries.lookup e.1 = some e.2 := AList.mem_lookup_iff.mpr he
    exact (t.valid e.1 e.2 hl).1

section Reconcile

variable {r : InventoryReconciler}

theorem iwp_reconcile (s : Shared) : InvWp r r.reconcile (fun _ _ => True) s := by
  have nothing : Steady fun _ : Shared => True := fun _ _ _ _ => trivial
  have ends : ∀ (x : Result × Option String) (s : Shared), InvWp r (pure x) (fun _ _ => True) s :=
    fun x s => iwp_done nothing trivial fun _ _ => trivial
  refine iwp_ask nothing trivial (fun _ _ _ => trivial) fun s1 f nodes s2 _ _ hx => ?_
  cases nodes with
  | error e => exact ends _ _
  | ok nodes =>
    refine iwp_ask nothing trivial (fun _ _ _ => trivial) fun s3 f a s4 _ _ hx => ?_
    cases f with
    | fail applied e =>
      cases hx
      exact ends _ _
    | ok =>
      cases hx
      -- battery's Hosts stay what was listed until the first call
      have same : Steady fun s => s.hosts = s3.hosts := fun s s' h hR => hR.hosts.trans h
      have cert : InvWp r r.clientCertificate (fun _ s => s.hosts = s3.hosts) s3 := by
        refine iwp_ask same rfl (fun _ _ _ => trivial) fun s5 f a s6 _ hl hx => ?_
        cases hx
        split
        · exact iwp_done same hl fun _ hl => hl
        · exact iwp_done same hl fun _ hl => hl
      refine iwp_seq _ _ (wp_mono (fun cert s5 _ hl => ?_) _ cert)
      cases cert with
      | error err => exact ends _ _
      | ok cert =>
        refine iwp_ask same hl (fun _ _ _ => trivial) fun s6 f state s7 _ hl hx => ?_
        cases hx
        refine iwp_seq _ _ (wp_mono (fun o s8 _ _ => ?_) _ (iwp_chain ?_))
        · exact iwp_ask nothing trivial (fun _ _ _ => trivial) fun _ _ _ _ _ _ _ => ends _ _
        · intro n
          rw [hl]
          exact lookup_byName s3.hosts n

end Reconcile

/-! ## 9. The machine -/

/-- **The Inventory Controller meets its duties.** -/
theorem inventory_sound (r : InventoryReconciler) : Sound (machine r) spec where
  refl _ := Rely.refl
  trans _ _ _ _ := Rely.trans
  idle _ _ _ _ _ _ := trivial
  env_inv a s s' hI hx := by
    cases hx
    cases a <;> exact hI
  env_rely _ a s s' _ hx := by
    cases hx
    cases a <;> exact ⟨rfl, rfl⟩
  exec_inv _ _ _ _ _ _ hI hpre hx := exec_covered hI hpre (Option.some.inj hx)
  exec_rely _ _ _ _ _ _ _ hne := absurd (Subsingleton.elim _ _) hne
  crash_inv s _ n a hn := by cases hn
  crash_idle _ _ _ := trivial
  spawn _ s _ _ := by
    refine iwp_seq _ _ (wp_mono (fun _ _ _ _ => ?_) _ (iwp_reconcile s))
    exact iwp_done (fun _ _ _ _ => trivial) trivial fun _ _ => trivial

theorem Reachable.safe {r : InventoryReconciler} {w : InventoryWorld} (h : Reachable r w) :
    Safe (machine r) spec w := by
  obtain ⟨w0, h0, hrun⟩ := h
  refine (inventory_sound r).reach ⟨?_, fun t p hp => ?_, fun _ _ => trivial⟩ hrun
  · intro n a hn
    simp [h0.hostSet] at hn
  · simp [h0.running] at hp

/-- **Published Hosts are placeable Hosts**: at every moment battery holds every Host of the
    HostSet uncordoned at the address published, and the call about to be sent, if it cordons,
    removes or moves a Host, is about one the HostSet does not contain. -/
theorem published_placeable (r : InventoryReconciler) (w : InventoryWorld) (h : Reachable r w) :
    (∀ n a, w.shared.hostSet.hosts.lookup n = some a →
      ∃ host, w.shared.hosts.find n = some host ∧ host.cordoned = false ∧ host.address = a) ∧
    (∀ n reason k, w.running () = some (.op (.cordonHost n reason) k) →
      w.shared.hostSet.hosts.lookup n = none) ∧
    (∀ n k, w.running () = some (.op (.removeHost n) k) →
      w.shared.hostSet.hosts.lookup n = none) ∧
    (∀ host skip k held, w.running () = some (.op (.updateHost host skip) k) →
      w.shared.hosts.find host.name = some held → held.address ≠ host.address →
      w.shared.hostSet.hosts.lookup host.name = none) := by
  have duty : ∀ o k, w.running () = some (.op o k) → Pre w.shared o := fun o k hrun =>
    (h.safe.safe () _ hrun w.shared (Rely.refl _) h.safe.inv).1
  refine ⟨h.safe.inv, fun n reason k hrun => duty _ _ hrun, fun n k hrun => duty _ _ hrun, ?_⟩
  intro host skip k held hrun hf hne
  exact duty _ _ hrun held hf hne

/-- A controller that acts on a change at once. -/
def atOnce : InventoryReconciler := { byDefault with options := { settleTime := 0 } }

def hostNode : Node := readyNode "host-1" "10.0.0.1:9090"

/-- battery holds no Host, and one Node is ready. -/
def oneReady : InventoryWorld where
  shared :=
    { nodes := [hostNode]
      secret := .error ⟨.notFound, "not found"⟩
      mounted := .error .notExist
      now := 0
      hosts := .empty
      hostSet := {}
      state := {} }
  running := fun _ => none

theorem exists_inventory (acts : List (Act Unit Choice EnvAct)) (P : InventoryWorld → Prop)
    [DecidablePred P] (h : ((machine atOnce).replay (fun _ _ => True) oneReady acts).any
      (fun w => decide (P w)) = true) : ∃ w, Reachable atOnce w ∧ P w := by
  obtain ⟨w, hrun, hp⟩ := exists_run _ acts P h
  exact ⟨w, ⟨_, ⟨rfl, rfl⟩, hrun⟩, hp⟩

/-- The first reconcile: it adds the Host and publishes it. -/
def addsHost : List (Act Unit Choice EnvAct) := .spawn () :: List.replicate 10 (.exec () .ok)

/-- The Host the next operation cordons. -/
def cordons (w : InventoryWorld) : Option String :=
  match w.running () with
  | some (.op (.cordonHost n _) _) => some n
  | _ => none

theorem cordons_spec {w : InventoryWorld} (h : cordons w = some n) :
    ∃ reason k, w.running () = some (.op (.cordonHost n reason) k) := by
  unfold cordons at h
  split at h
  next n' reason k hrun =>
    cases h
    exact ⟨reason, k, hrun⟩
  · cases h

/-- A Host is added and published; when its Node is cordoned, it is taken from the HostSet before
    CordonHost is sent. -/
theorem published_placeable_cordoned :
    (∃ w, Reachable atOnce w ∧ w.shared.hostSet.hosts.lookup "host-1" = some "10.0.0.1:9090" ∧
      ∃ host, w.shared.hosts.find "host-1" = some host ∧ host.cordoned = false ∧
        host.address = "10.0.0.1:9090") ∧
    ∃ w, Reachable atOnce w ∧ cordons w = some "host-1" ∧
      w.shared.hostSet.hosts.lookup "host-1" = none := by
  constructor
  · obtain ⟨w, hr, hp⟩ := exists_inventory addsHost
      (fun w => w.shared.hostSet.hosts.lookup "host-1" = some "10.0.0.1:9090") (by decide +kernel)
    exact ⟨w, hr, hp, (published_placeable atOnce w hr).1 _ _ hp⟩
  · obtain ⟨w, hr, hc⟩ := exists_inventory
      (addsHost ++ .env (.setNodes [{ hostNode with unschedulable := true }]) :: .spawn () ::
        List.replicate 6 (.exec () .ok))
      (fun w => cordons w = some "host-1") (by decide +kernel)
    obtain ⟨reason, k, hrun⟩ := cordons_spec hc
    exact ⟨w, hr, hc, (published_placeable atOnce w hr).2.1 _ _ _ hrun⟩

end BatteryOperator.Inventory
