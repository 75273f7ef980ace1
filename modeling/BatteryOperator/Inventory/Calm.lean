/-
  Subject:   The inventory's chain while every HostAdmin call succeeds, or is a RemoveHost that
             battery refused.

  `calm` is the machine of such calls; it remembers the Hosts whose removal was refused. A run goes
  over the Hosts several times, and each pass brings every Host one stage further: `Cordoned`,
  `Placed`, `Secured`, `Removed`.

  * `awp_sweep` -- **a pass over the Hosts**: one round brings one Host to the next stage and leaves
    the others, so the pass brings them all;
  * `awp_cordon`, `awp_registerNext`, `awp_secure`, `awp_remove`, `awp_reload` -- one round of each.
-/
import BatteryOperator.Inventory.Sound
import BatteryOperator.Lib.Alone

namespace BatteryOperator.Inventory

open Lib Machine

/-! ## 1. The calm machine -/

/-- The state, and the Hosts whose removal battery refused. -/
structure Calm where
  shared : Shared
  refused : List String := []

/-- An answer that is no failure. -/
def succeeded {ε α : Type} : Except ε α → Bool
  | .ok _ => true
  | .error _ => false

/-- A HostAdmin call that succeeded, or any other operation. -/
def Successful : (o : Op) → o.Ans → Bool
  | .listHosts, r => succeeded r
  | .addHost _ _, r => succeeded r
  | .getHost _, r => succeeded r
  | .updateHost _ _, r => succeeded r
  | .removeHost _, r => succeeded r
  | .cordonHost _ _, r => succeeded r
  | .uncordonHost _, r => succeeded r
  | _, _ => true

/-- An operation that succeeds, or a removal that battery refuses: it does not act. -/
def calmExec (f : Choice) (o : Op) (c : Calm) : Option (o.Ans × Calm) :=
  match f with
  | .ok =>
    if Successful o (exec .ok o c.shared).1 then
      some ((exec .ok o c.shared).1, { c with shared := (exec .ok o c.shared).2 })
    else none
  | .fail applied e =>
    match o with
    | .removeHost name =>
      if applied = false ∧ e.kind = .failedPrecondition then
        some (.error e, { c with refused := name :: c.refused })
      else none
    | _ => none

/-- **battery and the Operator while no call fails.** -/
def calm (r : InventoryReconciler) : Machine Unit Choice EnvAct Op Op.Ans Calm where
  exec _ := calmExec
  env a c := some { c with shared := env a c.shared }
  prog := (machine r).prog
  crash c := { c with shared := (machine r).crash c.shared }

/-- A call that acted on one Host. -/
structure Did (name : String) (new : Option Host) (c c' : Calm) : Prop where
  hosts : Acted name new c.shared.hosts c'.shared.hosts
  mounted : c'.shared.mounted = c.shared.mounted
  refused : c'.refused = c.refused

section Calls

variable {f : Choice} {c c' : Calm} {name : String}

/-- What a call about a Host answered, once it succeeded. -/
theorem calmExec_ok {o : Op} {r : o.Ans} (hno : ∀ name, o ≠ .removeHost name)
    (h : calmExec f o c = some (r, c')) :
    Successful o (exec .ok o c.shared).1 = true ∧ r = (exec .ok o c.shared).1 ∧
      c' = { c with shared := (exec .ok o c.shared).2 } := by
  unfold calmExec at h
  split at h
  · split at h
    next hs =>
      cases h
      exact ⟨hs, rfl, rfl⟩
    · cases h
  · split at h
    · exact absurd rfl (hno _)
    · cases h

variable {r : Except BatteryError Host}

/-- A call that battery served. -/
theorem Serves.calm {Q : Host → Prop} {served : Except BatteryError Host × HostTable}
    (h : Serves name Q c.shared.hosts served)
    (hok : succeeded served.1 = true ∧ r = served.1 ∧
      c' = { c with shared := { c.shared with hosts := served.2 } }) :
    ∃ got, r = .ok got ∧ Q got ∧ Did name (some got) c c' := by
  obtain ⟨hs, hr, rfl⟩ := hok
  cases h with
  | refused e => cases hs
  | stored got t' hact hq => exact ⟨got, hr, hq, hact, rfl, rfl⟩

theorem calm_addHost {host : Host} {skip : Bool}
    (h : calmExec f (.addHost host skip) c = some (r, c')) :
    ∃ got, r = .ok got ∧ Added c.shared.hosts host got ∧ Did host.name (some got) c c' :=
  (serves_addHost c.shared.hosts host).calm (calmExec_ok (fun _ => by simp) h)

theorem calm_updateHost {host : Host} {skip : Bool}
    (h : calmExec f (.updateHost host skip) c = some (r, c')) :
    ∃ got, r = .ok got ∧ Updated c.shared.hosts host got ∧ Did host.name (some got) c c' :=
  (serves_updateHost c.shared.hosts host).calm (calmExec_ok (fun _ => by simp) h)

theorem calm_cordonHost {reason : String}
    (h : calmExec f (.cordonHost name reason) c = some (r, c')) :
    ∃ got, r = .ok got ∧ Marked c.shared.hosts name true reason got ∧ Did name (some got) c c' :=
  (serves_setCordoned c.shared.hosts name true reason).calm (calmExec_ok (fun _ => by simp) h)

theorem calm_uncordonHost (h : calmExec f (.uncordonHost name) c = some (r, c')) :
    ∃ got, r = .ok got ∧ Marked c.shared.hosts name false "" got ∧ Did name (some got) c c' :=
  (serves_setCordoned c.shared.hosts name false "").calm (calmExec_ok (fun _ => by simp) h)

/-- RemoveHost succeeds, or is refused. -/
theorem calm_removeHost {r : Except BatteryError Unit}
    (h : calmExec f (.removeHost name) c = some (r, c')) :
    (r = .ok () ∧ Did name none c c') ∨
      ∃ e : BatteryError, r = .error e ∧ e.kind = .failedPrecondition ∧
        c' = { c with refused := name :: c.refused } := by
  unfold calmExec at h
  split at h
  · obtain ⟨hs, h⟩ := Option.ite_none_right_eq_some.mp h
    cases h
    dsimp only [exec, Choice.call, Successful] at hs ⊢
    rcases removeHost_cases c.shared.hosts name with ⟨e, he, -⟩ | ⟨t, he, hact⟩
    · rw [he] at hs
      cases hs
    · rw [he]
      exact .inl ⟨rfl, hact, rfl, rfl⟩
  · obtain ⟨he, h⟩ := Option.ite_none_right_eq_some.mp h
    cases h
    exact .inr ⟨_, rfl, he.2, rfl⟩

end Calls

/-! ## 2. The stages of a Host -/

variable {n a : String}

theorem admitNode_lookup {observed : Hosts} {node : Node}
    (h : (admitNode observed node).lookup n = some a) :
    (node.name = n ∧ node.deleting = false ∧ a ≠ "") ∨ observed.lookup n = some a := by
  unfold admitNode at h
  dsimp only at h
  split at h
  · exact .inr h
  next hlive =>
    split at h
    next hready =>
      rw [Dict.lookup_insert_eq] at h
      split at h
      next hn =>
        cases h
        exact .inl ⟨hn.symm, Bool.eq_false_iff.mpr hlive, hready.2.2⟩
      · exact .inr h
    · exact .inr h

/-- An admitted Host has a live Node and an address. -/
theorem admitted_lookup {nodes : List Node} (h : (admitted nodes).lookup n = some a) :
    (∃ node ∈ nodes, node.name = n ∧ node.deleting = false) ∧ a ≠ "" := by
  have hfold : ∀ (l : List Node) (observed : Hosts),
      (l.foldl admitNode observed).lookup n = some a →
      ((∃ node ∈ l, node.name = n ∧ node.deleting = false) ∧ a ≠ "") ∨
        observed.lookup n = some a := by
    intro l
    induction l with
    | nil => exact fun _ h => .inr h
    | cons node l ih =>
      intro observed h
      rcases ih _ h with ⟨⟨m, hm, hlive⟩, ha⟩ | h
      · exact .inl ⟨⟨m, List.mem_cons_of_mem node hm, hlive⟩, ha⟩
      · rcases admitNode_lookup h with ⟨hn, hlive, ha⟩ | h
        · exact .inl ⟨⟨node, List.mem_cons_self, hn, hlive⟩, ha⟩
        · exact .inr h
  rcases hfold nodes ∅ h with h | h
  · exact h
  · cases h

theorem present_entry_admitted (nodes : List Node) (n : String) :
    present (entry (admitted nodes) n) = (admitted nodes).lookup n := by
  unfold entry present
  cases h : (admitted nodes).lookup n with
  | none => rfl
  | some a => exact if_neg (admitted_lookup h).2

/-- The names of the Nodes that are not being deleted. -/
def liveNames (nodes : List Node) : List String :=
  (nodes.filter fun n => !n.deleting).map Node.name

theorem mem_liveNames_of_admitted {nodes : List Node} (h : (admitted nodes).lookup n = some a) :
    n ∈ liveNames nodes := by
  obtain ⟨⟨node, hm, rfl, hlive⟩, -⟩ := admitted_lookup h
  refine List.mem_map.mpr ⟨node, List.mem_filter.mpr ⟨hm, ?_⟩, rfl⟩
  rw [hlive]
  rfl

/-- What is known of each name and the Host battery holds under it, given the removals battery
    refused. -/
abbrev Stage := List String → String → Option Host → Prop

section Stages

variable (nodes : List Node)

/-- A Host that is not admitted is cordoned. -/
def Cordoned : Stage := fun _ n held =>
  ∀ h, held = some h → (admitted nodes).lookup n = none → h.cordoned = true

/-- And an admitted one is placeable at its address, with the TLS settings. -/
def Placed : Stage := fun refused n held =>
  Cordoned nodes refused n held ∧ ∀ a, (admitted nodes).lookup n = some a →
    ∃ h, held = some h ∧ h.cordoned = false ∧ h.address = a ∧ h.tls = tls

/-- And every Host has the TLS settings. -/
def Secured : Stage := fun refused n held =>
  Placed nodes refused n held ∧ ∀ h, held = some h → h.tls = tls

/-- And every Host has a live Node, or its removal was refused. -/
def Removed : Stage := fun refused n held =>
  Secured nodes refused n held ∧ ∀ h, held = some h → n ∈ liveNames nodes ∨ n ∈ refused

theorem Removed.mono {a b : List String} (hab : ∀ n ∈ a, n ∈ b) {n : String} {held : Option Host}
    (h : Removed nodes a n held) : Removed nodes b n held :=
  ⟨h.1, fun host hh => (h.2 host hh).imp_right (hab n)⟩

end Stages

/-- A stage that more refusals do not take away. -/
def Stage.Mono (P : Stage) : Prop :=
  ∀ a b : List String, (∀ n ∈ a, n ∈ b) → ∀ n held, P a n held → P b n held

/-! ## 3. A pass over the Hosts -/

/-- What a run goes by: the Nodes, the Hosts it wants, which are the admitted ones, the Secret's
    certificate and the mounted one. -/
structure Aim where
  nodes : List Node
  desired : Hosts
  cert : Option Bytes
  mounted : Except MountError Bytes
  /-- The changes have settled. -/
  wants : ∀ n, desired.lookup n = (admitted nodes).lookup n

/-- What a run knows: its picture is what battery holds. -/
structure Knows (a : Aim) (sc : Scope) (c : Calm) : Prop where
  listed : Listed sc c.shared
  desired : sc.desired = some a.desired
  nodes : sc.nodes = a.nodes
  cert : sc.clientCertificate = a.cert
  mounted : c.shared.mounted = a.mounted

/-- One round: the Host of that name is at the stage, and the others are as they were. -/
structure Turned (a : Aim) (Q : Stage) (name : String) (c : Calm) (sc' : Scope) (c' : Calm) :
    Prop where
  knows : Knows a sc' c'
  others : ∀ n, n ≠ name → c'.shared.hosts.find n = c.shared.hosts.find n
  refused : ∀ n ∈ c.refused, n ∈ c'.refused
  host : Q c'.refused name (c'.shared.hosts.find name)

/-- What a program of the calm machine needs to end in `Q`. -/
abbrev CalmWp (r : InventoryReconciler) {α : Type} (p : Code α) (Q : α → Calm → Prop) (c : Calm) :
    Prop := wp (calm r) (alone fun _ => True) () p Q c

section Rounds

variable {r : InventoryReconciler} {a : Aim} {sc : Scope} {c c' : Calm} {name : String}

theorem Knows.isDesired (h : Knows a sc c) (n : String) :
    sc.isDesired n = ((admitted a.nodes).lookup n).isSome := by
  unfold Scope.isDesired
  rw [h.desired]
  exact congrArg Option.isSome (a.wants n)

theorem Knows.hold (h : Knows a sc c) {got : Host} (hd : Did name (some got) c c') :
    Knows a (sc.hold name got) c' :=
  { h with
    listed n := by
      by_cases hn : n = name
      · subst hn
        rw [lookup_hold_self, hd.hosts.self]
      · rw [lookup_hold_ne sc got hn, hd.hosts.other hn]
        exact h.listed n
    mounted := hd.mounted.trans h.mounted }

theorem Knows.drop (h : Knows a sc c) (hd : Did name none c c') : Knows a (sc.drop name) c' :=
  { h with
    listed n := by
      by_cases hn : n = name
      · subst hn
        rw [lookup_drop_self, hd.hosts.self]
      · rw [lookup_drop_ne sc hn, hd.hosts.other hn]
        exact h.listed n
    mounted := hd.mounted.trans h.mounted }

variable {Q : Stage}

/-- A round that does nothing. -/
theorem Turned.same (h : Knows a sc c) (hq : Q c.refused name (c.shared.hosts.find name)) :
    Turned a Q name c sc c :=
  ⟨h, fun _ _ => rfl, fun _ hn => hn, hq⟩

/-- A round of one call. -/
theorem Turned.did {new : Option Host} (hd : Did name new c c') (h : Knows a sc c')
    (hq : Q c'.refused name new) : Turned a Q name c sc c' where
  knows := h
  others n hn := hd.hosts.other hn
  refused n hn := by
    rw [hd.refused]
    exact hn
  host := by
    rw [hd.hosts.self]
    exact hq

/-- Two calls about the same Host. -/
theorem Turned.after {new : Option Host} {sc' : Scope} {c'' : Calm} (hd : Did name new c c')
    (h : Turned a Q name c' sc' c'') : Turned a Q name c sc' c'' where
  knows := h.knows
  others n hn := (h.others n hn).trans (hd.hosts.other hn)
  refused n hn := h.refused n (by rw [hd.refused]; exact hn)
  host := h.host

/-- **A pass over the Hosts** brings all of them to the next stage. -/
theorem awp_sweep {γ : Type} (scope : γ → Scope) {E : γ → Prop} {P : Stage} (hP : P.Mono)
    (hQ : Q.Mono) (hQP : ∀ refused n held, Q refused n held → P refused n held)
    {f : γ → String → Code γ} (names : List String)
    (hround : ∀ x n c, n ∈ names → E x → Knows a (scope x) c →
      P c.refused n (c.shared.hosts.find n) →
      CalmWp r (f x n) (fun x' c' => E x' ∧ Turned a Q n c (scope x') c') c) {x : γ} (hE : E x)
    (hk : Knows a (scope x) c) (hp : ∀ n, P c.refused n (c.shared.hosts.find n))
    (hq : ∀ n, n ∉ names → Q c.refused n (c.shared.hosts.find n)) :
    CalmWp r (names.foldlM f x) (fun x' c' => E x' ∧ Knows a (scope x') c' ∧
      ∀ n, Q c'.refused n (c'.shared.hosts.find n)) c := by
  -- what is not left to do has been brought to the next stage
  refine wp_mono ?_ _ (awp_loop
    (I := fun rest x c => (∀ n ∈ rest, n ∈ names) ∧ E x ∧ Knows a (scope x) c ∧
      (∀ n, P c.refused n (c.shared.hosts.find n)) ∧
      ∀ n, n ∉ rest → Q c.refused n (c.shared.hosts.find n)) names ?_
    ⟨fun _ hn => hn, hE, hk, hp, hq⟩)
  · rintro x' c' - ⟨-, hE', hk', -, hq'⟩
    exact ⟨hE', hk', fun n => hq' n (by simp)⟩
  · rintro name rest x c ⟨hin, hE, hk, hp, hq⟩
    refine wp_mono ?_ _ (hround x name c (hin name List.mem_cons_self) hE hk (hp name))
    rintro x' c' - ⟨hE', ht⟩
    refine ⟨fun n hn => hin n (List.mem_cons_of_mem name hn), hE', ht.knows, fun n => ?_,
      fun n hn => ?_⟩
    · by_cases he : n = name
      · subst he
        exact hQP _ _ _ ht.host
      · rw [ht.others n he]
        exact hP _ _ ht.refused _ _ (hp n)
    · by_cases he : n = name
      · subst he
        exact ht.host
      · rw [ht.others n he]
        exact hQ _ _ ht.refused _ _ (hq n fun hm => (List.mem_cons.mp hm).elim he hn)

/-! ## 4. One round of each step -/

theorem awp_cordon (h : Knows a sc c) :
    CalmWp r (cordon sc name)
      (fun sc' c' => True ∧ Turned a (Cordoned a.nodes) name c sc' c') c := by
  unfold cordon
  split
  next hnone =>
    refine awp_done ⟨trivial, .same h fun host hh => ?_⟩
    rw [← h.listed name, hnone] at hh
    cases hh
  next host hheld =>
    split
    next hskip =>
      refine awp_done ⟨trivial, .same h fun host' hh hnot => ?_⟩
      rw [← h.listed name, hheld] at hh
      cases hh
      rcases hskip with hc | hd
      · exact hc
      · simp [h.isDesired, hnot] at hd
    · refine awp_call trivial fun f got c' hx => ?_
      obtain ⟨_, rfl, ⟨old, -, rfl⟩, hdid⟩ := calm_cordonHost hx
      refine awp_done ⟨trivial, .did hdid (h.hold hdid) fun host' hh _ => ?_⟩
      cases hh
      rfl

/-- `register` and its parts succeed. -/
def Brought (a : Aim) (name : String) (c : Calm) (x : Scope × Option String) (c' : Calm) : Prop :=
  x.2 = none ∧ Turned a (Placed a.nodes) name c x.1 c'

/-- A Host at its address with the TLS settings is uncordoned where it is not. -/
theorem awp_uncordon {host : Host} (h : Knows a sc c)
    (hheld : c.shared.hosts.find name = some host)
    (haddress : (admitted a.nodes).lookup name = some host.address) (htls : host.tls = tls) :
    CalmWp r (uncordon sc host name) (Brought a name c) c := by
  have placed : ∀ (refused : List String) (new : Host), new.cordoned = false →
      new.address = host.address → new.tls = tls → Placed a.nodes refused name (some new) := by
    intro refused new hc ha ht
    refine ⟨fun _ _ hnot => ?_, fun address hadm => ?_⟩
    · rw [haddress] at hnot
      cases hnot
    · rw [haddress] at hadm
      cases hadm
      exact ⟨new, rfl, hc, ha, ht⟩
  unfold uncordon
  split
  · refine awp_call trivial fun f got c' hx => ?_
    obtain ⟨_, rfl, ⟨old, hold, rfl⟩, hdid⟩ := calm_uncordonHost hx
    rw [hheld] at hold
    cases hold
    exact awp_done ⟨rfl, .did hdid (h.hold hdid) (placed _ _ rfl rfl htls)⟩
  next hc =>
    refine awp_done ⟨rfl, .same h ?_⟩
    rw [hheld]
    exact placed _ _ (Bool.eq_false_iff.mpr hc) rfl htls

/-- The Host battery holds is brought to the address and settings. -/
theorem awp_bringInStep {host : Host} {address : String} (h : Knows a sc c)
    (hheld : c.shared.hosts.find name = some host)
    (hadm : (admitted a.nodes).lookup name = some address) :
    CalmWp r (bringInStep sc host { name := name, address := address, tls := tls })
      (Brought a name c) c := by
  unfold bringInStep
  split
  · refine awp_call trivial fun f got c' hx => ?_
    obtain ⟨_, rfl, ⟨old, -, rfl⟩, hdid⟩ := calm_updateHost hx
    refine wp_mono ?_ _ (awp_uncordon (h.hold hdid) hdid.hosts.self hadm rfl)
    rintro x c'' - ⟨herr, ht⟩
    exact ⟨herr, ht.after hdid⟩
  next hsame =>
    rw [not_or, not_not, not_not] at hsame
    refine awp_uncordon h hheld ?_ hsame.2
    rw [hadm, hsame.1]

/-- **`register` brings the Host into battery at its address.** -/
theorem awp_registerNext (h : Knows a sc c) (hm : name ∈ a.desired) :
    CalmWp r (registerNext a.desired sc name)
      (fun sc' c' => True ∧ Turned a (Placed a.nodes) name c sc' c') c := by
  have hadm : (admitted a.nodes).lookup name = some (entry a.desired name) := by
    obtain ⟨d, hd⟩ := Option.isSome_iff_exists.mp (AList.lookup_isSome.mpr hm)
    rw [← a.wants name, hd]
    unfold entry
    rw [hd]
    rfl
  refine awp_seq (R := Brought a name c) ?_ fun x c' hx => ?_
  · unfold register
    split
    next host hheld => exact awp_bringInStep h ((h.listed name).symm.trans hheld) hadm
    · refine awp_call trivial fun f got c' hx => ?_
      obtain ⟨_, rfl, ⟨-, rfl⟩, hdid⟩ := calm_addHost hx
      refine wp_mono ?_ _ (awp_bringInStep (h.hold hdid) hdid.hosts.self hadm)
      rintro x c'' - ⟨herr, ht⟩
      exact ⟨herr, ht.after hdid⟩
  · obtain ⟨sc', err⟩ := x
    obtain ⟨rfl, ht⟩ := hx
    exact awp_done ⟨trivial, ht⟩

theorem awp_secure (h : Knows a sc c)
    (hp : Placed a.nodes c.refused name (c.shared.hosts.find name)) :
    CalmWp r (secure sc name)
      (fun sc' c' => True ∧ Turned a (Secured a.nodes) name c sc' c') c := by
  unfold secure
  split
  next hnone =>
    refine awp_done ⟨trivial, .same h ⟨hp, fun host hh => ?_⟩⟩
    rw [← h.listed name, hnone] at hh
    cases hh
  next host hheld =>
    have hfind := (h.listed name).symm.trans hheld
    split
    next hskip =>
      refine awp_done ⟨trivial, .same h ⟨hp, fun host' hh => ?_⟩⟩
      rcases hskip with hd | ht
      · -- a Host that is wanted has been placed
        rw [h.isDesired] at hd
        obtain ⟨address, hadm⟩ := Option.isSome_iff_exists.mp hd
        obtain ⟨placed, hplaced, -, -, ht⟩ := hp.2 address hadm
        rw [hplaced] at hh
        cases hh
        exact ht
      · rw [hfind] at hh
        cases hh
        exact ht
    next hno =>
      have hnot : (admitted a.nodes).lookup name = none := by
        cases hadm : (admitted a.nodes).lookup name with
        | none => rfl
        | some address =>
          refine absurd (.inl ?_) hno
          rw [h.isDesired, hadm]
          rfl
      refine awp_call trivial fun f got c' hx => ?_
      obtain ⟨_, rfl, ⟨old, hold, rfl⟩, hdid⟩ := calm_updateHost hx
      refine awp_done ⟨trivial, .did hdid (h.hold hdid) ⟨⟨fun host' hh _ => ?_,
        fun address hadm => ?_⟩, fun host' hh => ?_⟩⟩
      · cases hh
        exact hp.1 old hold hnot
      · have hadm' : (admitted a.nodes).lookup name = some address := hadm
        simp [hnot] at hadm'
      · cases hh
        rfl

theorem awp_remove {o : Options} {res : Result} (hres : res.stop = false) (h : Knows a sc c)
    (hp : Secured a.nodes c.refused name (c.shared.hosts.find name)) :
    CalmWp r (remove o (liveNames a.nodes) (sc, res) name)
      (fun x c' => x.2.stop = false ∧ Turned a (Removed a.nodes) name c x.1 c') c := by
  unfold remove
  dsimp only
  split
  next hnone =>
    refine awp_done ⟨hres, .same h ⟨hp, fun host hh => ?_⟩⟩
    simp [← h.listed name, hnone] at hh
  next host hheld =>
    have hfind := (h.listed name).symm.trans hheld
    split
    next hskip =>
      refine awp_done ⟨hres, .same h ⟨hp, fun host' hh => .inl ?_⟩⟩
      simp [hfind] at hh
      rcases hskip with hlive | hc | hd
      · exact hlive
      · -- a Host that is not cordoned is admitted
        cases hadm : (admitted a.nodes).lookup name with
        | none =>
          simp [hp.1.1 host hfind hadm] at hc
        | some address => exact mem_liveNames_of_admitted hadm
      · rw [h.isDesired] at hd
        obtain ⟨address, hadm⟩ := Option.isSome_iff_exists.mp hd
        exact mem_liveNames_of_admitted hadm
    next hno =>
      refine awp_call trivial fun f got c' hx => ?_
      rcases calm_removeHost hx with ⟨rfl, hdid⟩ | ⟨e, rfl, he, rfl⟩
      · have hnot : (admitted a.nodes).lookup name = none := by
          cases hadm : (admitted a.nodes).lookup name with
          | none => rfl
          | some address => exact absurd (.inl (mem_liveNames_of_admitted hadm)) hno
        refine awp_done ⟨hres, .did hdid (h.drop hdid) ⟨⟨⟨fun _ hh => ?_,
          fun address hadm => ?_⟩, fun _ hh => ?_⟩, fun _ hh => ?_⟩⟩
        · cases hh
        · simp [hnot] at hadm
        · cases hh
        · cases hh
      · have hkeep : Knows a sc { c with refused := name :: c.refused } :=
          { h with }
        dsimp only
        rw [he]
        refine awp_done ⟨?_, hkeep, fun _ _ => rfl,
          fun n hn => List.mem_cons_of_mem name hn, hp, fun _ _ => .inr List.mem_cons_self⟩
        simp [Result.merge, hres]

/-- Reload gives a Host what it has. -/
theorem awp_reload (h : Knows a sc c)
    (hp : Removed a.nodes c.refused name (c.shared.hosts.find name)) :
    CalmWp r (reload (sc, false) name)
      (fun x c' => x.2 = false ∧ Turned a (Removed a.nodes) name c x.1 c') c := by
  unfold reload
  dsimp only
  split
  · exact awp_done ⟨rfl, .same h hp⟩
  next host hheld =>
    have hfind := (h.listed name).symm.trans hheld
    split
    · exact awp_done ⟨rfl, .same h hp⟩
    · refine awp_call trivial fun f got c' hx => ?_
      obtain ⟨_, rfl, ⟨old, hold, rfl⟩, hdid⟩ := calm_updateHost hx
      dsimp only at hold hdid
      rw [hfind] at hold
      cases hold
      have hsame : (⟨name, host.address, host.tls, host.cordoned, host.cordonedReason⟩ : Host) =
          host := by rw [← HostTable.find_name hfind]
      refine awp_done ⟨rfl, .did hdid (h.hold hdid) ?_⟩
      rw [hsame, hdid.refused, ← hfind]
      exact hp

end Rounds

end BatteryOperator.Inventory
