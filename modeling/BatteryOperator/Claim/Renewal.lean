/-
  Subject:   WHAT A STATUS SAYS OF A RENEWAL: `observedRenewTime`, the Holder's renewal that was
             relayed to battery, and `leaseExpiresAt`, the expiry battery gave the Lease.

  * `renewal_relayed` -- **a renewal reported as relayed was relayed**, in every run in which no
    ClaimVM is answered with a Lease that is older than a renewal of its Holder. Bind takes every
    answer for a new Lease: `replay_reported_as_renewal`;
  * `expiry_not_optimistic` -- **the published expiry is no later than battery's**, as long as the
    threshold of the Lease's Pool is kept.
-/
import BatteryOperator.Claim.Ownership
import BatteryOperator.Expiries

namespace BatteryOperator

open Lib

variable {r : MicroVMClaimReconciler} {w w' : ClaimWorld}

/-! ## 1. The relayed renewal -/

/-- Battery created the Lease, or renewed it, after `g`. -/
def GrantedSince (h : List Fact) (leaseID : String) (g : Fact) : Prop :=
  ∃ f ∈ h, (f.expiryOf leaseID).isSome = true ∧ Precedes g f h

instance (h : List Fact) (leaseID : String) (g : Fact) : Decidable (GrantedSince h leaseID g) := by
  unfold GrantedSince
  infer_instance

variable {h : List Fact} {id : String} {e : Time} {k : ObjectKey} {v : MicroVMClaim}

theorem GrantedSince.mono {h' : List Fact} {g : Fact} (hg : GrantedSince h id g) (hle : h <:+ h') :
    GrantedSince h' id g := by
  obtain ⟨f, hm, he, hp⟩ := hg
  exact ⟨f, hle.mem hm, he, hp.mono hle⟩

theorem GrantedSince.of_precedes {g f : Fact} (hp : Precedes g f h) (hf : f.expiryOf id = some e) :
    GrantedSince h id g :=
  ⟨f, hp.newer_mem, by rw [hf]; rfl, hp⟩

/-- Battery answers a ClaimVM with a Lease it holds already only if the Holder wrote no `renewTime`
    since that Lease was created. -/
def replayInTime (w : ClaimWorld) : ClaimAct → Bool
  | .exec t (.serve .carryOut _) =>
    match w.running t with
    | some (.op (.receive _ (.claimVM _ rid)) _) =>
      match w.shared.battery.byRequest rid with
      | some l => w.shared.history.all fun f =>
        match f with
        | .wrote uid _ => uid ≠ rid || decide (GrantedSince w.shared.history l.leaseID f)
        | _ => true
      | none => true
    | _ => true
  | _ => true

/-- Whatever the Holder wrote before a Lease was named again, battery created or renewed the Lease
    since. -/
def Replays (h : List Fact) : Prop :=
  ∀ uid id t, Precedes (.wrote uid t) (.replayed uid id) h → GrantedSince h id (.wrote uid t)

/-- The history goes on without naming a Lease again. -/
theorem Replays.append {new : List Fact} (hR : Replays h)
    (hnew : ∀ uid id, Fact.replayed uid id ∉ new) : Replays (new ++ h) := fun uid id t hp =>
  (hR uid id t (hp.of_append (hnew uid id))).mono (List.suffix_append new h)

/-- ... by one fact. -/
theorem Replays.cons {f : Fact} (hR : Replays h) (hf : ∀ uid id, f ≠ .replayed uid id) :
    Replays (f :: h) := by
  have hnew : ∀ uid id, Fact.replayed uid id ∉ [f] := fun uid id hm =>
    hf uid id (List.mem_singleton.mp hm).symm
  exact hR.append hnew

/-- A Lease is named again, which is no older than what its Holder wrote. -/
theorem Replays.replay (hR : Replays h) {rid : String}
    (hg : ∀ t, Fact.wrote rid t ∈ h → GrantedSince h id (.wrote rid t)) :
    Replays (.replayed rid id :: h) := by
  intro uid id' t hp
  rcases precedes_cons_iff.mp hp with ⟨heq, hm⟩ | hp
  · injection heq with hu hi
    subst hu hi
    exact (hg t hm).mono (List.suffix_cons _ _)
  · exact (hR uid id' t hp).mono (List.suffix_cons _ _)

section Battery

variable {b b' : Battery} {now : Time} {h h' : List Fact}

theorem Replays.act (hR : Replays h) {a : BatteryAct} (ha : b.act now h a = some (b', h')) :
    Replays h' := by
  cases Battery.act_cases ha with
  | leased | ended => exact hR.cons nofun
  | threshold | emitted => exact hR

theorem Replays.serve (hR : Replays h) {c : Call} {sv : Serve} {x : Except BatteryError c.Answer}
    (hmet : ∀ pool rid l, c = .claimVM pool rid → sv = .carryOut → b.byRequest rid = some l →
      ∀ t, Fact.wrote rid t ∈ h → GrantedSince h l.leaseID (.wrote rid t))
    (hs : b.serve now h c sv = some (x, b', h')) : Replays h' := by
  cases Battery.serve_cases hs with
  | refused | marked | listed => exact hR
  | granted pool rid id vm =>
    have hleased := hR.cons (f := .leased id vm rid pool (now + b.threshold pool)) nofun
    exact hleased.cons nofun
  | replayed pool rid l known carried =>
    exact (hR.replay (hmet pool rid l rfl carried known)).cons nofun
  | renewed | released => exact hR.cons nofun

end Battery

theorem ReachableBy.replays (h : ReachableBy r (fun w a => replayInTime w a = true) w) :
    Replays w.shared.history := by
  refine h.battery_invariant (C := fun s => Replays s.history) (fun w0 h0 uid id t hp => ?_)
    ?_ ?_ ?_
  · rw [h0.history] at hp
    exact absurd hp not_precedes_nil
  · intro s s' hR ha _
    obtain ⟨new, heq, hnew⟩ := ha.history
    rw [heq]
    exact hR.append fun uid id hm => hnew _ hm trivial
  · exact fun w a s' _ _ hR _ _ ha => hR.act ha
  · intro w t uid call g sv lost r0 s' hok hrun _ _ hR _ _ hs
    refine hR.serve (fun pool rid l hc hsv hl rt hm => ?_) hs
    subst hc hsv
    simp only [replayInTime, hrun, hl, List.all_eq_true] at hok
    simpa using hok _ hm

/-- **A renewal reported as relayed was relayed**: battery created the recorded Lease or renewed it
    after the Holder wrote the `renewTime` that the status shows as observed. -/
theorem renewal_relayed (h : ReachableBy r (fun w a => replayInTime w a = true) w)
    (hv : Version w.shared.claims k v) {t : MicroTime} (ho : v.status.observedRenewTime = some t) :
    GrantedSince w.shared.history v.status.leaseID (.wrote v.uid t) := by
  have hne : v.status.leaseID ≠ "" := by
    intro hid
    simp [((h.inv.store.ok k v hv).unbound hid).observedRenewTime] at ho
  rcases ((h.inv.store.ok k v hv).recorded hne).observed t ho with ⟨vm, p, e, hp⟩ | ⟨e, hp⟩ | hp
  · exact .of_precedes hp (if_pos rfl)
  · exact .of_precedes hp (if_pos rfl)
  · exact h.replays _ _ t hp

/-- The Holder renews a Bound claim, and a reconcile relays that. -/
def relayed : List ClaimAct :=
  bound none ++ .env (.renew claimKey (some 40000000)) :: reconcileNow ++ operations 4 ++
    .exec (.claim claimKey) (.serve .carryOut none) :: operations 9

/-- The renewal the stored status shows as observed. -/
def observedOf (w : ClaimWorld) : Option MicroTime :=
  (w.shared.stored claimKey).bind fun c => c.status.observedRenewTime

theorem renewal_relayed_renewed : ∃ w c, ReachableBy {} (fun w a => replayInTime w a = true) w ∧
    w.shared.stored claimKey = some c ∧ c.status.observedRenewTime = some 40000000 ∧
    GrantedSince w.shared.history c.status.leaseID (.wrote c.uid 40000000) := by
  obtain ⟨w, hr, ho⟩ := exists_after replayInTime relayed
    (fun w => observedOf w = some 40000000) (by decide +kernel)
  obtain ⟨c, hc, ho⟩ := Option.bind_eq_some_iff.mp ho
  exact ⟨w, c, hr, hc, ho, renewal_relayed hr (Inv.stored_version hc) ho⟩

/-- A first ClaimVM's answer is lost. The Holder renews the Pending claim, and the next ClaimVM
    gets the Lease of the first one, whose expiry is what it was: the status shows a renewal that
    battery never saw. -/
theorem replay_reported_as_renewal : ∃ w c, Reachable {} w ∧
    w.shared.stored claimKey = some c ∧ c.status.observedRenewTime = some 40000000 ∧
      Fact.wrote c.uid 40000000 ∈ w.shared.history ∧
      ¬ GrantedSince w.shared.history c.status.leaseID (.wrote c.uid 40000000) :=
  exists_stored (claimSent none ++ .exec (.claim claimKey) (.serve
      (.grant "lease-1" "vm-1" ⟨"node-1", ""⟩) (some ⟨.unavailable, "connection reset"⟩)) ::
    operations 5 ++ .env (.renew claimKey (some 40000000)) :: reconcileNow ++ operations 5 ++
    .exec (.claim claimKey) (.serve .carryOut none) :: operations 5) claimKey _ (by decide +kernel)

/-! ## 2. The published expiry -/

/-- The threshold of the Pool does not change while battery holds the Lease. -/
def thresholdKept (leaseID : String) (w : ClaimWorld) : ClaimAct → Bool
  | .env (.battery (.setThreshold pool d)) =>
    w.shared.battery.leases.all fun l =>
      l.leaseID ≠ leaseID || l.pool ≠ pool || d = w.shared.battery.threshold pool
  | _ => true

theorem thresholdKept_spec {pool : PoolRef} {d : Duration}
    (hok : thresholdKept id w (.env (.battery (.setThreshold pool d))) = true) {l : Lease}
    (hl : l ∈ w.shared.battery.leases) (hid : l.leaseID = id) (hp : l.pool = pool) :
    d = w.shared.battery.threshold pool := by
  have hall := List.all_eq_true.mp hok l hl
  simpa [hid, hp] using hall

/-- The Lease is steady in every state reached. -/
theorem ReachableBy.steady {ok : ClaimWorld → ClaimAct → Prop} (h : ReachableBy r ok w)
    (hok : ∀ w a, ok w a → thresholdKept id w a = true) :
    Steady id w.shared.battery w.shared.now w.shared.history := by
  refine h.battery_invariant (C := fun s => Steady id s.battery s.now s.history) ?_ ?_ ?_ ?_
  · intro w0 h0
    rw [h0.history]
    constructor
    case held =>
      rw [h0.leases]
      exact fun l hl => absurd hl List.not_mem_nil
    case leased =>
      intro e hp
      obtain ⟨f, hm, _⟩ := published_iff.mp hp
      exact absurd hm List.not_mem_nil
    case latest =>
      intro e hp
      obtain ⟨f, hm, _⟩ := published_iff.mp hp
      exact absurd hm List.not_mem_nil
    case swept => exact fun at_ hm => absurd hm List.not_mem_nil
  · intro s s' hS ha _
    obtain ⟨new, heq, hnew⟩ := ha.history
    rw [ha.battery, heq]
    refine (hS.lapse ha.now).append fun f hf => ?_
    have hother := hnew f hf
    cases f with
    | created | wrote | sent | expired => exact ⟨rfl, nofun⟩
    | leased | replayed | replied | renewed | ended => exact absurd trivial hother
  · intro w a s' hw hI hS _ hnow ha
    rw [hnow]
    refine hS.act hI.ledger (fun pool d hd l hl hid hp => ?_) ha
    subst hd
    exact thresholdKept_spec (hok w _ hw) hl hid hp
  · intro w t uid call g sv lost r0 s' _ _ hI _ hS _ hnow hs
    rw [hnow]
    exact hS.serve hI.ledger hs

/-- A status shows an expiry that battery gave the Lease, to the second. -/
theorem Inv.expiry_published {s : Shared} (hI : Inv s) (hv : Version s.claims k v)
    (he : v.status.leaseExpiresAt = some e) :
    ∃ e', e ≤ e' ∧ Published s.history v.status.leaseID e' := by
  have hne : v.status.leaseID ≠ "" := by
    intro hid
    simp [((hI.store.ok k v hv).unbound hid).leaseExpiresAt] at he
  obtain ⟨e', rfl, hp⟩ := ((hI.store.ok k v hv).recorded hne).expiry e he
  exact ⟨e', truncSecond_le e', hp⟩

/-- **The published expiry is never optimistic**: of a Lease that battery holds, no status shows an
    expiry later than battery's. -/
theorem expiry_not_optimistic
    (h : ReachableBy r (fun w a => thresholdKept v.status.leaseID w a = true) w)
    (hv : Version w.shared.claims k v) (he : v.status.leaseExpiresAt = some e) {l : Lease}
    (hl : l ∈ w.shared.battery.leases) (hid : l.leaseID = v.status.leaseID) : e ≤ l.expiresAt := by
  obtain ⟨e', hle, hp⟩ := h.inv.expiry_published hv he
  have hsteady := h.steady fun _ _ hok => hok
  exact Int.le_trans hle (hsteady.le_expiresAt hl hid hp)

/-- The Lease and the expiry that the stored status shows. -/
def shownLease (w : ClaimWorld) : Option (String × Option Time) :=
  (w.shared.stored claimKey).map fun c => (c.status.leaseID, c.status.leaseExpiresAt)

theorem expiry_not_optimistic_renewed : ∃ w l e,
    ReachableBy {} (fun w a => thresholdKept "lease-1" w a = true) w ∧
    shownLease w = some ("lease-1", some e) ∧ l ∈ w.shared.battery.leases ∧
    l.leaseID = "lease-1" ∧ e ≤ l.expiresAt := by
  obtain ⟨w, hr, hs, l, hl, hid⟩ := exists_after (thresholdKept "lease-1") relayed
    (fun w => shownLease w = some ("lease-1", some 30000000000) ∧
      ∃ l ∈ w.shared.battery.leases, l.leaseID = "lease-1") (by decide +kernel)
  obtain ⟨c, hc, heq⟩ := Option.map_eq_some_iff.mp hs
  injection heq with hcid he
  rw [← hcid] at hr hid
  have hle := expiry_not_optimistic hr (Inv.stored_version hc) he hl hid
  rw [hcid] at hr hid
  exact ⟨w, l, _, hr, hs, hl, hid, hle⟩

end BatteryOperator
