/-
  Subject:   One settled run of the inventory's chain reaches the target, and a second does nothing.

  * `awp_cordonPass` to `awp_reloadPass` -- each step of the chain, as a pass over the Hosts;
  * `awp_firstRun` -- **what a settled run leaves**;
  * `awp_secondRun` -- what a run from there asks for, whatever it is answered;
  * `settled_run_reaches_target` -- both.
-/
import BatteryOperator.Inventory.Calm

namespace BatteryOperator.Inventory

open Lib Machine

/-- A step of a chain that runs alone. -/
theorem ends_alone {F A σ : Type} {M : Machine Unit F A Op Op.Ans σ} {Duty : Op → Prop}
    {P Q : Scope → σ → Prop} {R : Left Scope → σ → Prop} {sub : SubReconciler Code Scope}
    {subs : List (SubReconciler Code Scope)}
    (hsub : ∀ sc s, P sc s → wp M (alone Duty) () (sub sc) (Next Q R) s)
    (hsubs : Ends M (alone Duty) () Q R subs) :
    Ends M (alone Duty) () P R (sub :: subs) :=
  ends_cons (fun _ => rfl) (fun _ => stable_alone _) hsub hsubs

/-! ## 1. The first run -/

/-- Every Host is at the stage. -/
def Swept (a : Aim) (P : Stage) (sc : Scope) (c : Calm) : Prop :=
  Knows a sc c ∧ ∀ n, P c.refused n (c.shared.hosts.find n)

/-- Every Host is at the last stage, and battery has read the certificate again if it is mounted. -/
def Reached (a : Aim) (digest : Bytes → String) (sc : Scope) (c : Calm) : Prop :=
  Swept a (Removed a.nodes) sc c ∧
    ∀ cert, a.cert = some cert → sc.state.reloaded = digest cert ∨ a.mounted ≠ .ok cert

section FirstRun

variable {r : InventoryReconciler} {a : Aim} {sc : Scope} {c : Calm}
  {R : Left Scope → Calm → Prop}

/-- A step that neither fails nor stops the chain. -/
theorem awp_goOn {Q : Scope → Calm → Prop} {o : Outcome Scope} (h : Q o.scope c)
    (herr : o.err = none) (hstop : o.result.stop = false) :
    CalmWp r (pure o) (Next Q R) c :=
  awp_done (Next.of_goOn h herr hstop)

/-- A Host that is not held needs no cordon, TLS settings or removal. -/
theorem Knows.not_held (h : Knows a sc c) {n : String} (hn : n ∉ sc.held.sortedKeys) :
    c.shared.hosts.find n = none := by
  rw [← h.listed n]
  exact AList.lookup_eq_none.mpr fun hm => hn (Dict.mem_sortedKeys.mpr hm)

theorem awp_cordonPass (h : Knows a sc c) :
    CalmWp r (Cordon.reconcile sc) (Next (Swept a (Cordoned a.nodes)) R) c := by
  refine awp_seq (awp_sweep (E := fun _ => True) (P := fun _ _ _ => True)
    (Q := Cordoned a.nodes) id (fun _ _ _ _ _ h => h) (fun _ _ _ _ _ h => h)
    (fun _ _ _ _ => trivial) _ (fun _ _ _ _ _ hk _ => awp_cordon hk) trivial h
    (fun _ => trivial) fun n hn host hh => ?_) fun sc' c' h' => awp_goOn h'.2 rfl rfl
  simp [h.not_held hn] at hh

theorem awp_registerPass (h : Swept a (Cordoned a.nodes) sc c) :
    CalmWp r (Register.reconcile sc) (Next (Swept a (Placed a.nodes)) R) c := by
  unfold Register.reconcile
  rw [h.1.desired]
  refine awp_seq (awp_sweep (E := fun _ => True) (Q := Placed a.nodes) id
    (fun _ _ _ _ _ h => h) (fun _ _ _ _ _ h => h) (fun _ _ _ hq => hq.1) _
    (fun sc' n c' hn _ hk _ => awp_registerNext hk (Dict.mem_sortedKeys.mp hn)) trivial h.1
    h.2 fun n hn => ⟨h.2 n, fun address hadm => ?_⟩) fun sc' c' h' => awp_goOn h'.2 rfl rfl
  rw [← a.wants n] at hadm
  have hm : n ∈ a.desired := AList.lookup_isSome.mp (by rw [hadm]; rfl)
  exact absurd (Dict.mem_sortedKeys.mpr hm) hn

theorem awp_securePass (h : Swept a (Placed a.nodes) sc c) :
    CalmWp r (Secure.reconcile sc) (Next (Swept a (Secured a.nodes)) R) c := by
  refine awp_seq (awp_sweep (E := fun _ => True) (Q := Secured a.nodes) id
    (fun _ _ _ _ _ h => h) (fun _ _ _ _ _ h => h) (fun _ _ _ hq => hq.1) _
    (fun _ _ _ _ _ hk hp => awp_secure hk hp) trivial h.1 h.2
    fun n hn => ⟨h.2 n, fun host hh => ?_⟩) fun sc' c' h' => awp_goOn h'.2 rfl rfl
  simp [h.1.not_held hn] at hh

theorem awp_removePass {o : Options} (h : Swept a (Secured a.nodes) sc c) :
    CalmWp r (Remove.reconcile o sc) (Next (Swept a (Removed a.nodes)) R) c := by
  unfold Remove.reconcile
  rw [h.1.nodes]
  refine awp_seq (awp_sweep (E := fun x : Scope × Result => x.2.stop = false)
    (Q := Removed a.nodes) Prod.fst (fun _ _ _ _ _ h => h)
    (fun _ _ hab _ _ h => h.mono a.nodes hab) (fun _ _ _ hq => hq.1) _
    (fun _ _ _ _ hres hk hp => awp_remove hres hk hp) rfl h.1 h.2
    fun n hn => ⟨h.2 n, fun host hh => ?_⟩) fun x c' h' => ?_
  · simp [h.1.not_held hn] at hh
  · obtain ⟨sc', res⟩ := x
    exact awp_goOn h'.2 rfl h'.1

/-- Reload leaves the Hosts as they are. -/
theorem awp_reloadPass {o : Options} {digest : Bytes → String}
    (h : Swept a (Removed a.nodes) sc c) :
    CalmWp r (Reload.reconcile o digest sc) (Next (Reached a digest) R) c := by
  unfold Reload.reconcile
  rw [h.1.cert]
  cases hcert : a.cert with
  | none =>
    refine awp_goOn ⟨h, fun cert hc => ?_⟩ rfl rfl
    rw [hcert] at hc
    cases hc
  | some cert =>
    have known : ∀ sc' : Scope, sc'.state.reloaded = digest cert ∨ a.mounted ≠ .ok cert →
        ∀ cert', a.cert = some cert' →
          sc'.state.reloaded = digest cert' ∨ a.mounted ≠ .ok cert' := by
      intro sc' hk cert' hc
      rw [hcert] at hc
      cases hc
      exact hk
    dsimp only
    split
    next hreloaded => exact awp_goOn ⟨h, known sc (.inl hreloaded)⟩ rfl rfl
    · refine awp_call trivial fun f mounted c' hx => ?_
      obtain ⟨-, hr, rfl⟩ := calmExec_ok (fun _ => by simp) hx
      have hmounted : mounted = a.mounted := hr.trans h.1.mounted
      match mounted with
      | .error (.other text) =>
        refine awp_goOn ⟨⟨{ h.1 with }, h.2⟩, known _ (.inr fun hm => ?_)⟩ rfl rfl
        cases hmounted.trans hm
      | .error .notExist =>
        refine awp_goOn ⟨h, known _ (.inr fun hm => ?_)⟩ rfl rfl
        cases hmounted.trans hm
      | .ok mounted =>
        dsimp only
        split
        · refine awp_seq (awp_sweep (E := fun x : Scope × Bool =>
            x.2 = false) (Q := Removed a.nodes) Prod.fst
            (fun _ _ hab _ _ h => h.mono a.nodes hab)
            (fun _ _ hab _ _ h => h.mono a.nodes hab) (fun _ _ _ hq => hq) _
            (fun x _ _ _ hE hk hp => ?_) rfl h.1 h.2 fun n _ => h.2 n) fun x c' h' => ?_
          · obtain ⟨sc', failed⟩ := x
            obtain rfl : failed = false := hE
            exact awp_reload hk hp
          · obtain ⟨sc', failed⟩ := x
            obtain ⟨rfl, hk, hq⟩ := h'
            exact awp_goOn ⟨⟨{ hk with }, hq⟩, known _ (.inl rfl)⟩ rfl rfl
        next hne =>
          refine awp_goOn ⟨h, known _ (.inr fun hm => ?_)⟩ rfl rfl
          cases hmounted.trans hm
          exact hne rfl

/-- What is published is what is placed. -/
theorem placeable_lookup (sc : Scope) (refused : List String) {nodes : List Node} {n : String}
    (h : Placed nodes refused n (sc.held.lookup n)) :
    sc.placeable.lookup n = (admitted nodes).lookup n := by
  unfold Scope.placeable
  rw [Dict.lookup_filterMap]
  cases hadm : (admitted nodes).lookup n with
  | some address =>
    obtain ⟨host, hheld, hc, ha, -⟩ := h.2 address hadm
    simp [hheld, hc, ha]
  | none =>
    cases hheld : sc.held.lookup n with
    | none => rfl
    | some host => simp [h.1 host hheld hadm]

theorem Swept.published (h : Swept a (Removed a.nodes) sc c) (n : String) :
    sc.published.lookup n = (admitted a.nodes).lookup n := by
  have hplaced : sc.placeable.lookup n = (admitted a.nodes).lookup n := by
    refine placeable_lookup sc c.refused ?_
    rw [h.1.listed n]
    exact (h.2 n).1.1
  unfold Scope.published
  rw [h.1.desired]
  dsimp only
  rw [Dict.lookup_filterMap, hplaced]
  cases hadm : (admitted a.nodes).lookup n with
  | none => rfl
  | some address =>
    have hentry : entry a.desired n = address := by
      unfold entry
      rw [a.wants n, hadm]
      rfl
    simp [hentry]

/-- The Hosts battery and the Pool Controller should have. -/
structure Target (nodes : List Node) (c : Calm) : Prop where
  placed : ∀ n a, (admitted nodes).lookup n = some a →
    ∃ h, c.shared.hosts.find n = some h ∧ h.cordoned = false ∧ h.address = a ∧ h.tls = tls
  others : ∀ n h, c.shared.hosts.find n = some h → (admitted nodes).lookup n = none →
    h.cordoned = true ∧ h.tls = tls
  removed : ∀ n h, c.shared.hosts.find n = some h → n ∈ liveNames nodes ∨ n ∈ c.refused
  published : c.shared.hostSet.synced = true ∧
    ∀ n, c.shared.hostSet.hosts.lookup n = (admitted nodes).lookup n

theorem HostSet.synced_publish (s : HostSet) (hosts : Hosts) :
    (s.publish hosts).synced = true := by
  unfold HostSet.publish
  split
  next h => exact h.1
  · rfl

/-- Publishing leaves battery alone. -/
theorem Knows.publish (h : Knows a sc c) (hostSet : HostSet) :
    Knows a sc { c with shared := { c.shared with hostSet := hostSet } } :=
  { h with }

/-- What `Settle` wants once every change has settled. -/
theorem settled_wants {d : Duration} {now : Time}
    (hu : ∀ n, ¬ Unsettled d (admittedScope sc) now n) (n : String) :
    (settled d (admittedScope sc) now).desired.lookup n = (admitted sc.nodes).lookup n := by
  rw [(settle_lookup d (admittedScope sc) now n).1, wanted, if_neg (hu n)]
  exact present_entry_admitted sc.nodes n

/-- The aim of a run in which every change has settled. -/
def aimOf (d : Duration) (sc : Scope) (now : Time) (mounted : Except MountError Bytes)
    (hu : ∀ n, ¬ Unsettled d (admittedScope sc) now n) : Aim where
  nodes := sc.nodes
  desired := (settled d (admittedScope sc) now).desired
  cert := sc.clientCertificate
  mounted := mounted
  wants := settled_wants hu

/-- **What a settled run leaves.** -/
theorem awp_firstRun (hl : Listed sc c.shared)
    (hu : ∀ n, ¬ Unsettled r.options.settleTime (admittedScope sc) c.shared.now n) :
    CalmWp r (r.chain.run sc) (fun o c' => Target sc.nodes c' ∧
      Reached (aimOf _ sc c.shared.now c.shared.mounted hu) r.digest o.scope c') c := by
  generalize ha : aimOf _ sc c.shared.now c.shared.mounted hu = a
  have hnodes : a.nodes = sc.nodes := by rw [← ha]; rfl
  have steps : Ends (calm r) (alone fun _ => True) ()
      (fun sc' c' => sc' = sc ∧ c' = c) (fun x => Reached a r.digest x.1) r.chain.steps := by
    refine ends_alone (Q := fun sc' c' => sc' = admittedScope sc ∧ c' = c) (fun sc' c' h => ?_) ?_
    · obtain ⟨rfl, rfl⟩ := h
      exact awp_goOn ⟨rfl, rfl⟩ rfl rfl
    refine ends_alone (Q := Knows a) (fun sc' c' h => ?_) ?_
    · obtain ⟨rfl, rfl⟩ := h
      refine awp_call trivial fun f now c' hx => ?_
      obtain ⟨-, rfl, rfl⟩ := calmExec_ok (fun _ => by simp) hx
      refine awp_goOn ?_ rfl (settle_stop _ _ _ _ _)
      rw [← ha]
      exact ⟨hl, rfl, rfl, rfl, rfl⟩
    refine ends_alone (Q := Knows a) (fun sc' c' h => ?_) ?_
    · refine awp_call trivial fun f _ c' hx => ?_
      obtain ⟨-, -, rfl⟩ := calmExec_ok (fun _ => by simp) hx
      exact awp_goOn (h.publish _) rfl rfl
    refine ends_alone (fun _ _ h => awp_cordonPass h) ?_
    refine ends_alone (fun _ _ h => awp_registerPass h) ?_
    refine ends_alone (fun _ _ h => awp_securePass h) ?_
    refine ends_alone (fun _ _ h => awp_removePass h) ?_
    refine ends_alone (fun _ _ h => awp_reloadPass h) ?_
    exact ends_nil (fun _ => stable_alone _) fun _ _ _ _ h => h
  refine awp_seq (steps sc c {} ⟨rfl, rfl⟩) fun x c1 h => ?_
  obtain ⟨sc1, out, errs⟩ := x
  refine awp_seq (R := fun x c2 => Target sc.nodes c2 ∧ Reached a r.digest x.1 c2) ?_
    fun x c2 h => awp_done h
  refine awp_seq (R := fun o c2 => Target sc.nodes c2 ∧ Reached a r.digest o.scope c2) ?_
    fun o c2 h => awp_seq (awp_done h) fun o c3 h => awp_done h
  refine awp_call trivial fun f _ c2 hx => ?_
  obtain ⟨-, -, rfl⟩ := calmExec_ok (fun _ => by simp) hx
  refine awp_done ⟨?_, ⟨h.1.1.publish _, h.1.2⟩, h.2⟩
  rw [← hnodes]
  refine ⟨fun n address hadm => (h.1.2 n).1.1.2 address hadm, fun n host hh hnot => ?_,
    fun n host hh => (h.1.2 n).2 host hh, HostSet.synced_publish _ _, fun n => ?_⟩
  · exact ⟨(h.1.2 n).1.1.1 host hh hnot, (h.1.2 n).1.2 host hh⟩
  · exact (HostSet.lookup_publish _ _ n).trans (h.1.published n)

end FirstRun

/-! ## 2. The second run -/

/-- What a run from the target may ask battery for: to remove the Hosts it did not before. -/
def Quiet (refused : List String) : Op → Prop
  | .addHost _ _ => False
  | .updateHost _ _ => False
  | .cordonHost _ _ => False
  | .uncordonHost _ => False
  | .removeHost name => name ∈ refused
  | _ => True

/-- A run's picture, at the target. -/
structure AtTarget (a : Aim) (refused : List String) (digest : Bytes → String) (sc : Scope) :
    Prop where
  held : ∀ n, Removed a.nodes refused n (sc.held.lookup n)
  desired : sc.desired = some a.desired
  nodes : sc.nodes = a.nodes
  cert : sc.clientCertificate = a.cert
  reloaded : ∀ cert, a.cert = some cert →
    sc.state.reloaded = digest cert ∨ a.mounted ≠ .ok cert

/-- The picture is at the target, and the mount is what it was. -/
def Still (a : Aim) (refused : List String) (digest : Bytes → String) (sc : Scope) (s : Shared) :
    Prop := AtTarget a refused digest sc ∧ s.mounted = a.mounted

/-- What a program needs to end in `Q` and to ask for nothing but such removals, whatever it is
    answered. -/
abbrev QuietWp (r : InventoryReconciler) (refused : List String) {α : Type} (p : Code α)
    (Q : α → Shared → Prop) (s : Shared) : Prop :=
  wp (machine r) (alone (Quiet refused)) () p Q s

section SecondRun

variable {r : InventoryReconciler} {a : Aim} {refused : List String} {digest : Bytes → String}
  {sc : Scope} {s : Shared} {name : String}

section AtTarget

variable (h : AtTarget a refused digest sc)
include h

theorem AtTarget.isDesired (n : String) :
    sc.isDesired n = ((admitted a.nodes).lookup n).isSome := by
  unfold Scope.isDesired
  rw [h.desired]
  exact congrArg Option.isSome (a.wants n)

theorem AtTarget.cordon : cordon sc name = pure sc := by
  unfold Inventory.cordon
  split
  · rfl
  next host hheld =>
    refine if_pos ?_
    rw [h.isDesired]
    cases hadm : (admitted a.nodes).lookup name with
    | none => exact .inl ((h.held name).1.1.1 host hheld hadm)
    | some address => exact .inr rfl

theorem AtTarget.registerNext (hm : name ∈ a.desired) :
    registerNext a.desired sc name = pure sc := by
  obtain ⟨address, hd⟩ := Option.isSome_iff_exists.mp (AList.lookup_isSome.mpr hm)
  have hentry : entry a.desired name = address := by
    unfold entry
    rw [hd]
    rfl
  rw [a.wants name] at hd
  obtain ⟨host, hheld, hc, ha, ht⟩ := (h.held name).1.1.2 address hd
  have hregister : register sc name address = pure (sc, none) := by
    unfold register bringInStep uncordon
    simp [hheld, hc, ha, ht]
  unfold Inventory.registerNext
  rw [hentry, hregister]
  rfl

theorem AtTarget.secure : secure sc name = pure sc := by
  unfold Inventory.secure
  split
  · rfl
  next host hheld => exact if_pos (.inr ((h.held name).1.2 host hheld))

/-- Without a Host that is not admitted, the picture is still one of the target. -/
theorem AtTarget.drop (hnot : (admitted a.nodes).lookup name = none) :
    AtTarget a refused digest (sc.drop name) :=
  { h with
    held n := by
      by_cases hn : n = name
      · subst hn
        rw [lookup_drop_self]
        refine ⟨⟨⟨nofun, fun address hadm => ?_⟩, nofun⟩,
          nofun⟩
        simp [hnot] at hadm
      · rw [lookup_drop_ne sc hn]
        exact h.held n }

end AtTarget

/-- **Remove asks only for what was refused.** -/
theorem qwp_remove {o : Options} {res : Result} (hres : res.stop = false)
    (h : AtTarget a refused digest sc) (hs : s.mounted = a.mounted) :
    QuietWp r refused (remove o (liveNames a.nodes) (sc, res) name)
      (fun x s' => x.2.stop = false ∧ Still a refused digest x.1 s') s := by
  unfold remove
  dsimp only
  split
  · exact awp_done ⟨hres, h, hs⟩
  next host hheld =>
    split
    · exact awp_done ⟨hres, h, hs⟩
    next hno =>
      rw [not_or] at hno
      have hduty : name ∈ refused := ((h.held name).2 host hheld).resolve_left hno.1
      have hnot : (admitted a.nodes).lookup name = none := by
        cases hadm : (admitted a.nodes).lookup name with
        | none => rfl
        | some address => exact absurd (mem_liveNames_of_admitted hadm) hno.1
      refine awp_call hduty fun f got s' hx => ?_
      have hs' : s'.mounted = a.mounted := by
        have hsame : s'.mounted = s.mounted := by
          cases f with
          | ok =>
            cases hx
            rfl
          | fail applied e => cases applied <;> cases hx <;> rfl
        exact hsame.trans hs
      cases got with
      | ok => exact awp_done ⟨hres, h.drop hnot, hs'⟩
      | error e =>
        refine awp_done ?_
        split
        · exact ⟨hres, h.drop hnot, hs'⟩
        · split
          · exact ⟨by simp [Result.merge, hres], h, hs'⟩
          · exact ⟨hres, { h with }, hs'⟩

/-- **Reload has nothing to do**: it has been done, or the certificate is not mounted. -/
theorem qwp_reload {o : Options} {R : Left Scope → Shared → Prop} (h : AtTarget a refused digest sc)
    (hs : s.mounted = a.mounted) :
    QuietWp r refused (Reload.reconcile o digest sc) (Next (fun _ _ => True) R) s := by
  have done : ∀ (o : Outcome Scope) (s : Shared), o.err = none → o.result.stop = false →
      QuietWp r refused (pure o) (Next (fun _ _ => True) R) s :=
    fun o s herr hstop => awp_done (Next.of_goOn trivial herr hstop)
  unfold Reload.reconcile
  rw [h.cert]
  cases hcert : a.cert with
  | none => exact done _ _ rfl rfl
  | some cert =>
    dsimp only
    split
    · exact done _ _ rfl rfl
    next hne =>
      have hother := (h.reloaded cert hcert).resolve_left hne
      refine awp_call trivial fun f mounted s' hx => ?_
      have hmounted : mounted = a.mounted := by
        rw [← hs]
        exact (congrArg Prod.fst (Option.some.inj hx)).symm
      match mounted with
      | .error (.other text) => exact done _ _ rfl rfl
      | .error .notExist => exact done _ _ rfl rfl
      | .ok mounted =>
        dsimp only
        split
        next he =>
          rw [he] at hmounted
          exact absurd hmounted.symm hother
        · exact done _ _ rfl rfl

/-- At the target nothing differs. -/
theorem not_unsettled (d : Duration) (now : Time)
    (h : ∀ n, Placed sc.nodes refused n (sc.held.lookup n)) (n : String) :
    ¬ Unsettled d (admittedScope sc) now n := by
  rintro ⟨hne, -⟩
  refine hne ?_
  have hplaced : (admittedScope sc).placeable.lookup n = (admitted sc.nodes).lookup n :=
    placeable_lookup (admittedScope sc) refused (h n)
  unfold entry
  rw [hplaced]
  rfl

/-- **What a run from the target asks for.** -/
theorem awp_secondRun (h : ∀ n, Removed sc.nodes refused n (sc.held.lookup n))
    (hreloaded : ∀ cert, sc.clientCertificate = some cert →
      sc.state.reloaded = r.digest cert ∨ s.mounted ≠ .ok cert) :
    QuietWp r refused (r.chain.run sc) (fun _ _ => True) s := by
  have hu := not_unsettled r.options.settleTime s.now fun n => (h n).1.1
  generalize ha : aimOf _ sc s.now s.mounted hu = a
  have steps : Ends (machine r) (alone (Quiet refused)) ()
      (fun sc' s' => sc' = sc ∧ s' = s) (fun _ _ => True) r.chain.steps := by
    have same : ∀ {sc' : Scope} {s' : Shared}, Still a refused r.digest sc' s' →
        QuietWp r refused (pure { scope := sc' })
          (Next (Still a refused r.digest) fun _ _ => True) s' :=
      fun hk => awp_done (Next.of_goOn hk rfl rfl)
    refine ends_alone (Q := fun sc' s' => sc' = admittedScope sc ∧ s' = s) (fun sc' s' h' => ?_) ?_
    · obtain ⟨rfl, rfl⟩ := h'
      exact awp_done (Next.of_goOn ⟨rfl, rfl⟩ rfl rfl)
    refine ends_alone (Q := Still a refused r.digest) (fun sc' s' h' => ?_) ?_
    · obtain ⟨rfl, rfl⟩ := h'
      refine awp_call trivial fun f now s' hx => ?_
      cases hx
      refine awp_done (Next.of_goOn ?_ rfl (settle_stop _ _ _ _ _))
      rw [← ha]
      exact ⟨⟨h, rfl, rfl, rfl, hreloaded⟩, rfl⟩
    refine ends_alone (Q := Still a refused r.digest) (fun sc' s' hk => ?_) ?_
    · refine awp_call trivial fun f _ s'' hx => ?_
      cases hx
      exact same hk
    refine ends_alone (Q := Still a refused r.digest) (fun sc' s' hk => ?_) ?_
    · unfold Cordon.reconcile
      rw [Prog.foldlM_pure fun n _ => hk.1.cordon]
      exact same hk
    refine ends_alone (Q := Still a refused r.digest) (fun sc' s' hk => ?_) ?_
    · unfold Register.reconcile
      rw [hk.1.desired]
      dsimp only [Option.getD_some]
      rw [Prog.foldlM_pure fun n hn => hk.1.registerNext (Dict.mem_sortedKeys.mp hn)]
      exact same hk
    refine ends_alone (Q := Still a refused r.digest) (fun sc' s' hk => ?_) ?_
    · unfold Secure.reconcile
      rw [Prog.foldlM_pure fun n _ => hk.1.secure]
      exact same hk
    refine ends_alone (Q := Still a refused r.digest) (fun sc' s' hk => ?_) ?_
    · unfold Remove.reconcile
      rw [hk.1.nodes]
      refine awp_seq (awp_loop (I := fun _ (x : Scope × Result) s' =>
        x.2.stop = false ∧ Still a refused r.digest x.1 s') _ (fun n _ x s' hx => ?_) ⟨rfl, hk⟩)
        fun x s' hx => ?_
      · obtain ⟨sc', res⟩ := x
        exact qwp_remove hx.1 hx.2.1 hx.2.2
      · obtain ⟨sc', res⟩ := x
        exact awp_done (Next.of_goOn hx.2 rfl hx.1)
    refine ends_alone (Q := fun _ _ => True) (fun sc' s' hk => qwp_reload hk.1 hk.2) ?_
    exact ends_nil (fun _ => stable_alone _) fun _ _ _ _ h => h
  refine awp_seq (steps sc s {} ⟨rfl, rfl⟩) fun x s1 _ => ?_
  obtain ⟨sc1, out, errs⟩ := x
  refine awp_seq (R := fun _ _ => True) ?_ fun x s2 _ => awp_done trivial
  refine awp_seq (R := fun _ _ => True) ?_
    fun o s2 _ => awp_seq (R := fun _ _ => True) (awp_done trivial)
      fun o s3 _ => awp_done trivial
  exact awp_call trivial fun f _ s2 _ => awp_done trivial

end SecondRun

/-! ## 3. Both runs -/

/-- **One settled run reaches the target, and a second does nothing.** A run starts from any Nodes,
    Hosts and memory, in which every difference has been observed for the settle time; every
    HostAdmin call of it succeeds, or is a RemoveHost that battery refused. It leaves battery and
    the HostSet at the target. A second run with the same Nodes, Secret, mount and Hosts, at any
    time and whatever it is answered, asks battery for nothing but the refused removals. -/
theorem settled_run_reaches_target {r : InventoryReconciler} {nodes : List Node}
    {cert : Option Bytes} {st : State} {s : Shared} {c : Calm} {asked : List (Asked Op Op.Ans)}
    {o : Outcome Scope}
    (hsettled : ∀ n, ¬ Unsettled r.options.settleTime
      (admittedScope (startScope nodes s.hosts.list cert st)) s.now n)
    (hends : (r.chain.run (startScope nodes s.hosts.list cert st)).Ends asked o)
    (hserved : (calm r).Served () { shared := s } asked c) :
    (∀ n a, (admitted nodes).lookup n = some a → ∃ h, c.shared.hosts.find n = some h ∧
      h.cordoned = false ∧ h.address = a ∧ h.tls = tls) ∧
    (∀ n h, c.shared.hosts.find n = some h → (admitted nodes).lookup n = none →
      h.cordoned = true ∧ h.tls = tls) ∧
    (∀ n h, c.shared.hosts.find n = some h → n ∈ liveNames nodes ∨ n ∈ c.refused) ∧
    (c.shared.hostSet.synced = true ∧
      ∀ n, c.shared.hostSet.hosts.lookup n = (admitted nodes).lookup n) ∧
    ∀ (now : Time) (again : List (Asked Op Op.Ans)) (o' : Outcome Scope) (s' : Shared),
      (r.chain.run (startScope nodes c.shared.hosts.list cert o.scope.state)).Ends again o' →
      (machine r).Served () { c.shared with now := now } again s' →
      ∀ e ∈ again, Quiet c.refused e.1 := by
  have hl : Listed (startScope nodes s.hosts.list cert st) s :=
    fun n => lookup_byName s.hosts n
  obtain ⟨-, htarget, hreached⟩ := wp_served (awp_firstRun hl hsettled) hends hserved
  refine ⟨htarget.placed, htarget.others, htarget.removed, htarget.published, ?_⟩
  intro now again o' s' hends' hserved'
  refine (wp_served (awp_secondRun (fun n => ?_) fun cert' hc => ?_) hends' hserved').1
  · have hheld : (startScope nodes c.shared.hosts.list cert o.scope.state).held.lookup n =
        c.shared.hosts.find n := lookup_byName c.shared.hosts n
    rw [hheld]
    exact hreached.1.2 n
  · have hmounted : c.shared.mounted = s.mounted := hreached.1.1.mounted
    rcases hreached.2 cert' hc with h | h
    · exact .inl h
    · exact .inr fun hm => h (hmounted.symm.trans hm)

/-- How battery reached a Host before it was given the TLS settings. -/
def insecure : HostTLS := ⟨true, "", "", ""⟩

/-- battery holds two Hosts: one has moved, and the other one's Node is gone. A third is new. -/
def twoHosts : Shared where
  nodes := [hostNode, readyNode "host-3" "10.0.0.3:9090"]
  secret := .ok [1]
  mounted := .ok [1]
  now := 0
  hosts := (HostTable.empty.put
    { name := "host-1", address := "10.0.0.9:9090", tls := insecure, cordoned := true }
    (by decide)).put { name := "host-2", address := "10.0.0.2:9090", tls := insecure } (by decide)
  hostSet := {}
  state := {}

/-- The run, in which battery refuses to remove a Host. -/
def refusedRun : Option (List (Asked Op Op.Ans) × Outcome Scope × Calm) :=
  (calm atOnce).serve ()
    (fun o => match o with
      | .removeHost _ => .fail false ⟨.failedPrecondition, "it has MicroVMs"⟩
      | _ => .ok)
    (atOnce.chain.run (startScope twoHosts.nodes twoHosts.hosts.list (some [1]) {}))
    { shared := twoHosts }

/-- The Host that moved and the new one are placed, the third is cordoned and its removal is all
    that is left to ask for. -/
theorem settled_run_reaches_target_two_hosts :
    ∃ asked o c, refusedRun = some (asked, o, c) ∧ c.refused = ["host-2"] ∧
      (∃ h, c.shared.hosts.find "host-1" = some h ∧ h.cordoned = false ∧
        h.address = "10.0.0.1:9090" ∧ h.tls = tls) ∧
      (∃ h, c.shared.hosts.find "host-3" = some h ∧ h.cordoned = false ∧
        h.address = "10.0.0.3:9090" ∧ h.tls = tls) ∧
      (∃ h, c.shared.hosts.find "host-2" = some h ∧ h.cordoned = true ∧ h.tls = tls) ∧
      ∀ (now : Time) (again : List (Asked Op Op.Ans)) (o' : Outcome Scope) (s' : Shared),
        (atOnce.chain.run (startScope twoHosts.nodes c.shared.hosts.list (some [1])
          o.scope.state)).Ends again o' →
        (machine atOnce).Served () { c.shared with now := now } again s' →
        ∀ e ∈ again, Quiet ["host-2"] e.1 := by
  have hrun : refusedRun.any (fun x => x.2.2.refused = ["host-2"] ∧
      (x.2.2.shared.hosts.find "host-2").isSome = true) = true := by decide +kernel
  obtain ⟨⟨asked, o, c⟩, hrun, hx⟩ := (Option.any_eq_true ..).mp hrun
  obtain ⟨hrefused, hheld⟩ := of_decide_eq_true hx
  obtain ⟨hends, hserved⟩ := serve_spec hrun
  have hsettled : ∀ n, ¬ Unsettled atOnce.options.settleTime (admittedScope
      (startScope twoHosts.nodes twoHosts.hosts.list (some [1]) {})) twoHosts.now n := by
    rintro n ⟨-, hlt⟩
    exact absurd hlt (Int.lt_irrefl 0)
  obtain ⟨hplaced, hothers, -, -, hquiet⟩ := settled_run_reaches_target hsettled hends hserved
  obtain ⟨host, hfind⟩ := Option.isSome_iff_exists.mp hheld
  dsimp only at hrefused
  rw [hrefused] at hquiet
  exact ⟨asked, o, c, hrun, hrefused, hplaced _ _ (by decide +kernel),
    hplaced _ _ (by decide +kernel), ⟨host, hfind, hothers _ _ hfind (by decide +kernel)⟩, hquiet⟩

end BatteryOperator.Inventory
