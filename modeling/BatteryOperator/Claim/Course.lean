/-
  Subject:   How each step of the Claim Controller's chain can end, and after which answers.

  A step ends as its answers tell it. `Released`, `Claimed`, `Bound`, ... list the ends of a step: a
  case has what the step was answered, in order, and the outcome it left; `release_ends`, ... say
  that there is no other. What a claim says about all answers of a reconcile is a walk through these
  cases, and no proof about them opens a step again.

  * `exchange`, `calls`, `looked` -- a call to battery among the answers, all that ended, and what
    `Recover` looked up;
  * `expiredBy`, `recoveredBy`, `pendingBy` -- the scopes the steps
    leave.
-/
import BatteryOperator.Claim.Controller
import BatteryOperator.ReconcileLogic

namespace BatteryOperator.Course

open Lib Prog

/-! ## 1. What a step is answered -/

/-- Operations of the Claim Controller with their answers. -/
abbrev Trace := List (Asked Op Op.Ans)

/-- A call to battery and its end. -/
def exchange (uid : String) (call : Call) (r : Except BatteryError call.Answer) : Trace :=
  [⟨.send uid call, ()⟩, ⟨.receive uid call, r⟩]

/-- The answer of `expire`'s operations. -/
def expiring (s : Scope) (why : Why) (now : Time) : Trace :=
  [⟨.now, now⟩, ⟨.logExpired s.object.uid s.object.status.leaseID why, ()⟩]

/-- A call that was made, and how it ended. -/
abbrev Made := (call : Call) × Except BatteryError call.Answer

/-- The call that ended with this answer, if it is one. -/
def madeOf : Asked Op Op.Ans → Option Made
  | ⟨.receive _ call, r⟩ => some ⟨call, r⟩
  | _ => none

/-- The calls to battery that ended, in their order. -/
def calls (asked : Trace) : List Made := asked.filterMap madeOf

@[simp] theorem calls_nil : calls [] = [] := rfl

@[simp] theorem calls_append (a b : Trace) : calls (a ++ b) = calls a ++ calls b :=
  List.filterMap_append

theorem calls_cons (e : Asked Op Op.Ans) (asked : Trace) :
    calls (e :: asked) = (madeOf e).toList ++ calls asked := by
  unfold calls
  cases he : madeOf e <;> simp [he]

/-- What the recovery knew of a Lease, if this looked it up. -/
def lookupOf : Asked Op Op.Ans → Option (Option (Option LeaseRecord))
  | ⟨.lookup _, known⟩ => some known
  | _ => none

/-- What `Recover` looked up. -/
def looked (asked : Trace) : Option (Option (Option LeaseRecord)) := asked.findSome? lookupOf

theorem looked_append (a b : Trace) : looked (a ++ b) = (looked a).or (looked b) :=
  List.findSome?_append

/-- The error of a call, if it failed. -/
def errorOf {α : Type} : Except BatteryError α → Option BatteryError
  | .ok _ => none
  | .error e => some e

/-- Battery fails every call with one error. -/
def failing (e : BatteryError) : (o : Op) → o.Ans
  | .cacheGet _ => .error ⟨.other, ""⟩
  | .apiGet _ => .error ⟨.other, ""⟩
  | .poolGet _ => .error ⟨.other, ""⟩
  | .nodeGet _ => .error ⟨.other, ""⟩
  | .cacheList => .ok []
  | .now => 0
  | .tryAcquire _ => true
  | .releaseSlot => ()
  | .send _ _ => ()
  | .receive _ _ => .error e
  | .deletedHas _ => false
  | .lookup _ => none
  | .record _ _ => ()
  | .logExpired _ _ _ => ()
  | .patchMeta _ _ => .error ⟨.other, ""⟩
  | .patchStatus _ _ => .error ⟨.other, ""⟩

section Shared

variable {α : Type} {asked : Trace} {a : α}

theorem callBattery_ends {uid : String} {call : Call}
    {f : Except BatteryError call.Answer → Code α} (h : (callBattery uid call >>= f).Ends asked a) :
    ∃ r rest, asked = exchange uid call r ++ rest ∧ (f r).Ends rest a := by
  obtain ⟨_, rest, rfl, h1⟩ := ends_call.mp h
  obtain ⟨r, rest, rfl, h2⟩ := ends_call.mp h1
  exact ⟨r, rest, rfl, h2⟩

/-- The scope `expire` leaves. -/
def expiredBy (s : Scope) (why : Why) (now : Time) : Scope :=
  (s.setStatus { s.object.status with phase := .expired }).setCondition .bound .false
    reasonLeaseExpired why.text now

theorem expire_ends {s : Scope} {why : Why} {f : Scope → Code α}
    (h : (expire s why >>= f).Ends asked a) :
    ∃ now rest, asked = expiring s why now ++ rest ∧ (f (expiredBy s why now)).Ends rest a := by
  obtain ⟨now, rest, rfl, h1⟩ := ends_call.mp h
  obtain ⟨_, rest, rfl, h2⟩ := ends_call.mp h1
  exact ⟨now, rest, rfl, h2⟩

theorem until_ends {t : Time} {f : Duration → Code α} (h : (until_ t >>= f).Ends asked a) :
    ∃ now rest, asked = ⟨.now, now⟩ :: rest ∧ (f (max (t - now) second)).Ends rest a := by
  obtain ⟨now, rest, rfl, h1⟩ := ends_call.mp h
  exact ⟨now, rest, rfl, h1⟩

theorem retryAfter_ends {s : Scope} {b : Backoff} {f : Duration → Code α}
    (h : (retryAfter s b >>= f).Ends asked a) :
    ∃ now since rest, asked = ⟨.now, now⟩ :: rest ∧ (f (b.after (now - since))).Ends rest a := by
  obtain ⟨now, rest, rfl, h1⟩ := ends_call.mp h
  exact ⟨now, _, rest, rfl, h1⟩

theorem unavailableSince_ends {s : Scope} {f : Time → Code α}
    (h : (unavailableSince s >>= f).Ends asked a) :
    ∃ (since : Time) (times : List Time) (rest : Trace), asked = times.map (⟨.now, ·⟩) ++ rest ∧
      (f since).Ends rest a := by
  unfold unavailableSince at h
  split at h
  · split at h
    · obtain ⟨since, rest, rfl, h1⟩ := ends_call.mp h
      exact ⟨since, [since], rest, rfl, h1⟩
    · exact ⟨_, [], asked, rfl, h⟩
  · obtain ⟨since, rest, rfl, h1⟩ := ends_call.mp h
    exact ⟨since, [since], rest, rfl, h1⟩

end Shared

/-! ## 2. Release -/

/-- How `Release` ends. -/
inductive Released (r : Release) (sc : Scope) : Trace → Outcome Scope → Prop where
  | idle (hd : sc.object.deleting = false) : Released r sc [] { scope := sc }
  | done (hd : sc.object.deleting = true) (hr : sc.object.hasRelease = false) :
      Released r sc [] (.stopped sc)
  | unleased (hd : sc.object.deleting = true) (hr : sc.object.hasRelease = true)
      (hl : sc.object.status.leaseID = "") :
      Released r sc [] (.stopped sc.removeFinalizer)
  | released (hd : sc.object.deleting = true) (hr : sc.object.hasRelease = true)
      (hl : sc.object.status.leaseID ≠ "") (ans : Except BatteryError Unit)
      (hans : ∀ e, ans = .error e → e.kind = .notFound) :
      Released r sc (exchange sc.object.uid (.releaseVM sc.object.status.leaseID) ans)
        (.stopped (sc.called methodReleaseVM (errorOf ans)).removeFinalizer)
  | transit (hd : sc.object.deleting = true) (hr : sc.object.hasRelease = true)
      (hl : sc.object.status.leaseID ≠ "") (e : BatteryError)
      (ht : failedInTransit (some e) = true) (now since : Time) (times : List Time) :
      Released r sc
        (exchange sc.object.uid (.releaseVM sc.object.status.leaseID) (.error e) ++
          ⟨.now, now⟩ :: times.map (⟨.now, ·⟩))
        { scope := sc.called methodReleaseVM (some e),
          result := { stop := true, requeueAfter := r.backoff.after (now - since) } }
  | failed (hd : sc.object.deleting = true) (hr : sc.object.hasRelease = true)
      (hl : sc.object.status.leaseID ≠ "") (e : BatteryError) (hk : e.kind ≠ .notFound)
      (ht : failedInTransit (some e) = false) :
      Released r sc (exchange sc.object.uid (.releaseVM sc.object.status.leaseID) (.error e))
        { scope := sc.called methodReleaseVM (some e), result := { stop := true },
          err := some ("releasing Lease " ++ sc.object.status.leaseID ++ ": " ++ e.text) }

variable {sc : Scope} {asked : Trace} {o : Outcome Scope}

theorem release_ends {r : Release} (h : (r.reconcile sc).Ends asked o) : Released r sc asked o := by
  unfold Release.reconcile at h
  split at h
  next hd =>
    cases h
    exact .idle (by simpa using hd)
  next hd =>
    have hd : sc.object.deleting = true := by simpa using hd
    split at h
    next hr =>
      cases h
      exact .done hd (by simpa using hr)
    next hr =>
      have hr : sc.object.hasRelease = true := by simpa using hr
      split at h
      next hl =>
        cases h
        exact .unleased hd hr hl
      next hl =>
        obtain ⟨ans, rest, rfl, h1⟩ := callBattery_ends h
        cases ans with
        | ok a =>
          cases h1
          exact .released hd hr hl (.ok a) nofun
        | error e =>
          dsimp only at h1
          split at h1
          next hk =>
            cases h1
            refine .released hd hr hl (.error e) fun e' he => ?_
            cases he
            exact hk
          next hk =>
            split at h1
            next ht =>
              obtain ⟨now, rest, rfl, h2⟩ := ends_call.mp h1
              obtain ⟨since, times, rest, rfl, h3⟩ := unavailableSince_ends h2
              cases h3
              rw [List.append_nil]
              exact .transit hd hr hl e ht now since times
            next ht =>
              cases h1
              exact .failed hd hr hl e hk (Bool.eq_false_iff.mpr ht)

/-! ## 3. EnsureFinalizer -/

/-- How `EnsureFinalizer` ends; it asks for nothing. -/
inductive Ensured (sc : Scope) : Trace → Outcome Scope → Prop where
  | deleted (hd : sc.object.deleting = true) :
      Ensured sc [] (.stopped sc)
  | there (hd : sc.object.deleting = false) (hr : sc.object.hasRelease = true) :
      Ensured sc [] { scope := sc }
  | added (hd : sc.object.deleting = false) (hr : sc.object.hasRelease = false) :
      Ensured sc [] (.stopped sc.addFinalizer)

theorem ensureFinalizer_ends (h : (EnsureFinalizer.reconcile sc).Ends asked o) :
    Ensured sc asked o := by
  unfold EnsureFinalizer.reconcile at h
  split at h
  next hd =>
    cases h
    exact .deleted hd
  next hd =>
    have hd : sc.object.deleting = false := Bool.eq_false_iff.mpr hd
    split at h
    next hr =>
      cases h
      exact .there hd hr
    next hr =>
      cases h
      exact .added hd (Bool.eq_false_iff.mpr hr)

/-! ## 4. Bind -/

/-- Pending answers for the error of a ClaimVM. -/
def pends (e : BatteryError) : Bool :=
  e.kind = .exhausted || e.kind = .notFound || e.kind = .aborted || failedInTransit (some e)

/-- The scope `Bind` leaves of a claim that battery leased a MicroVM for. -/
def boundBy (sc : Scope) (claimed : Claim) (now : Time) : Scope :=
  ((sc.called methodClaimVM none).setStatus
    (boundStatus sc.object claimed sc.object.spec.renewTime now)).setCondition .bound .true
      reasonBound ("Leased MicroVM " ++ claimed.vmUID ++ " on Node " ++ claimed.host.name) now

/-- How the ClaimVM of `Bind` ends. -/
inductive Claimed (sc : Scope) (fresh : MicroVMClaim) : Trace → Outcome Scope → Prop where
  | granted (claimed : Claim) (now : Time) :
      Claimed sc fresh
        (exchange sc.object.uid (.claimVM (poolOf sc.object) fresh.uid) (.ok claimed) ++
          [⟨.now, now⟩])
        (.stopped (boundBy sc claimed now))
  | pends (e : BatteryError) (hp : pends e = true) :
      Claimed sc fresh (exchange sc.object.uid (.claimVM (poolOf sc.object) fresh.uid) (.error e))
        { scope := sc.called methodClaimVM (some e) }
  | failed (e : BatteryError) (hp : Course.pends e = false) :
      Claimed sc fresh (exchange sc.object.uid (.claimVM (poolOf sc.object) fresh.uid) (.error e))
        { scope := sc.called methodClaimVM (some e),
          err := some ("claiming a MicroVM from Pool " ++ (poolOf sc.object).string ++ ": " ++
            e.text) }

theorem claim_ends {fresh : MicroVMClaim} (h : (Bind.claim sc fresh).Ends asked o) :
    Claimed sc fresh asked o := by
  obtain ⟨ans, rest, rfl, h1⟩ := callBattery_ends h
  cases ans with
  | ok claimed =>
    obtain ⟨now, rest, rfl, h2⟩ := ends_call.mp h1
    cases h2
    exact .granted claimed now
  | error e =>
    dsimp only at h1
    split at h1
    next hp =>
      cases h1
      exact .pends e (by simpa [pends, or_assoc] using hp)
    next hp =>
      cases h1
      refine .failed e (Bool.eq_false_iff.mpr fun hpe => hp ?_)
      simpa [pends, or_assoc] using hpe

/-- The claim as the API server has it may be bound. -/
def free (fresh : MicroVMClaim) : Bool :=
  fresh.status.leaseID = "" && !fresh.deleting && fresh.hasRelease

/-- The Pool as the API server has it is not being deleted. -/
def poolStays : Except ApiError PoolObject → Bool
  | .ok pool => pool.deletionTimestamp.isNone
  | .error e => e.isNotFound

/-- The key of a claim's Pool. -/
def poolKey (c : MicroVMClaim) : ObjectKey := ⟨c.namespace_, c.spec.poolRef⟩

/-- What a ClaimVM in a slot has before and after it. -/
inductive InSlot : Option Nat → Trace → Trace → Prop where
  | unbounded (asked : Trace) : InSlot none asked asked
  | taken (n : Nat) (asked : Trace) :
      InSlot (some n) (⟨.tryAcquire n, true⟩ :: (asked ++ [⟨.releaseSlot, ()⟩])) asked

/-- How `Bind` ends. -/
inductive Bound (b : Bind) (sc : Scope) : Trace → Outcome Scope → Prop where
  | idle (hl : sc.object.status.leaseID ≠ "") : Bound b sc [] { scope := sc }
  | unread (hl : sc.object.status.leaseID = "") (e : ApiError) (hn : e.isNotFound = false) :
      Bound b sc [⟨.apiGet sc.object.key, .error e⟩]
        { scope := sc,
          err := some ("reading MicroVMClaim " ++ sc.object.key.string ++
            " before claiming a MicroVM: " ++ e.text) }
  | gone (hl : sc.object.status.leaseID = "") (e : ApiError) (hn : e.isNotFound = true) :
      Bound b sc [⟨.apiGet sc.object.key, .error e⟩] (.stopped sc)
  | taken (hl : sc.object.status.leaseID = "") (fresh : MicroVMClaim) (hf : free fresh = false) :
      Bound b sc [⟨.apiGet sc.object.key, .ok fresh⟩] (.stopped sc)
  | poolUnread (hl : sc.object.status.leaseID = "") (fresh : MicroVMClaim) (hf : free fresh = true)
      (e : ApiError) (hn : e.isNotFound = false) :
      Bound b sc [⟨.apiGet sc.object.key, .ok fresh⟩, ⟨.poolGet (poolKey sc.object), .error e⟩]
        { scope := sc,
          err := some ("reading Pool " ++ (poolKey sc.object).string ++
            " before claiming a MicroVM: " ++ e.text) }
  | poolDeleting (hl : sc.object.status.leaseID = "") (fresh : MicroVMClaim)
      (hf : free fresh = true) (pool : PoolObject) (hp : pool.deletionTimestamp.isSome = true) :
      Bound b sc [⟨.apiGet sc.object.key, .ok fresh⟩, ⟨.poolGet (poolKey sc.object), .ok pool⟩]
        { scope := { sc with poolDeleting := true } }
  | full (hl : sc.object.status.leaseID = "") (fresh : MicroVMClaim) (hf : free fresh = true)
      (pool : Except ApiError PoolObject) (hp : poolStays pool = true) (n : Nat)
      (hn : b.slots = some n) :
      Bound b sc
        [⟨.apiGet sc.object.key, .ok fresh⟩, ⟨.poolGet (poolKey sc.object), pool⟩,
          ⟨.tryAcquire n, false⟩]
        { scope := sc,
          result := { stop := true,
                      requeueAfter := if b.slotWait ≤ 0 then defaultSlotWait else b.slotWait } }
  | claim (hl : sc.object.status.leaseID = "") (fresh : MicroVMClaim) (hf : free fresh = true)
      (pool : Except ApiError PoolObject) (hp : poolStays pool = true)
      (asked slotted : Trace) (hs : InSlot b.slots slotted asked) (o : Outcome Scope)
      (hc : Claimed sc fresh asked o) :
      Bound b sc
        (⟨.apiGet sc.object.key, .ok fresh⟩ :: ⟨.poolGet (poolKey sc.object), pool⟩ :: slotted) o

theorem withSlot_ends {b : Bind} {fresh : MicroVMClaim} (hl : sc.object.status.leaseID = "")
    (hf : free fresh = true) {pool : Except ApiError PoolObject} (hp : poolStays pool = true)
    (h : (b.withSlot sc fresh).Ends asked o) :
    Bound b sc
      (⟨.apiGet sc.object.key, .ok fresh⟩ :: ⟨.poolGet (poolKey sc.object), pool⟩ :: asked) o := by
  unfold Bind.withSlot at h
  split at h
  next hn =>
    refine .claim hl fresh hf pool hp asked asked ?_ o (claim_ends h)
    rw [hn]
    exact .unbounded asked
  next n hn =>
    obtain ⟨acquired, rest, rfl, h1⟩ := ends_call.mp h
    cases acquired with
    | false =>
      cases h1
      exact .full hl fresh hf pool hp n hn
    | true =>
      obtain ⟨asked, after, o', rfl, hc, h2⟩ := ends_bind.mp h1
      obtain ⟨_, rest, rfl, h3⟩ := ends_call.mp h2
      cases h3
      refine .claim hl fresh hf pool hp asked _ ?_ _ (claim_ends hc)
      rw [hn]
      exact .taken n asked

theorem bind_ends {b : Bind} (h : (b.reconcile sc).Ends asked o) : Bound b sc asked o := by
  unfold Bind.reconcile at h
  dsimp only at h
  split at h
  next hl =>
    cases h
    exact .idle hl
  next hl =>
    have hl : sc.object.status.leaseID = "" := not_not.mp hl
    obtain ⟨ans, rest, rfl, h1⟩ := ends_call.mp h
    cases ans with
    | error e =>
      dsimp only at h1
      split at h1
      next hn =>
        cases h1
        exact .gone hl e hn
      next hn =>
        cases h1
        exact .unread hl e (Bool.eq_false_iff.mpr hn)
    | ok fresh =>
      dsimp only at h1
      split at h1
      next hf =>
        cases h1
        exact .taken hl fresh (by simp [free, hf])
      next hf1 =>
        split at h1
        next hf =>
          cases h1
          exact .taken hl fresh (by simp [free, hf])
        next hf2 =>
          split at h1
          next hf =>
            cases h1
            exact .taken hl fresh (by simp [free, Bool.not_eq_true' .. ▸ hf])
          next hf3 =>
            have hf : free fresh = true := by simp_all [free]
            obtain ⟨before, after, pd, rfl, hpd, h2⟩ := ends_bind.mp h1
            obtain ⟨pool, rest, rfl, hpool⟩ := ends_call.mp hpd
            cases pool with
            | ok pool =>
              cases hpool
              cases hdel : pool.deletionTimestamp with
              | some t =>
                rw [hdel] at h2
                cases h2
                exact .poolDeleting hl fresh hf pool (by rw [hdel]; rfl)
              | none =>
                rw [hdel] at h2
                exact withSlot_ends hl hf (by simp [poolStays, hdel]) h2
            | error e =>
              dsimp only at hpool
              split at hpool
              next hn =>
                cases hpool
                exact withSlot_ends hl hf hn h2
              next hn =>
                cases hpool
                cases h2
                exact .poolUnread hl fresh hf e (Bool.eq_false_iff.mpr hn)

/-! ## 5. Pending -/

/-- The scope `Pending` leaves. -/
def pendingBy (sc : Scope) (reason message : String) (now : Time) : Scope :=
  (sc.setStatus { sc.object.status with phase := .pending }).setCondition .bound .false reason
    message now

/-- When the Bound condition got its status. -/
def boundSince (sc : Scope) (now : Time) : Time :=
  match findStatusCondition sc.object.status.conditions .bound with
  | some c => c.lastTransitionTime
  | none => now

/-- How `Pending` ends. -/
inductive Pended (p : Pending) (sc : Scope) : Trace → Outcome Scope → Prop where
  | idle (h : pendingReason sc (claimError sc) = none) : Pended p sc [] { scope := sc }
  | pending (reason message : String)
      (h : pendingReason sc (claimError sc) = some (reason, message)) (now : Time) :
      Pended p sc [⟨.now, now⟩]
        { scope := pendingBy sc reason message now,
          result := ⟨false,
            p.backoff.after (now - boundSince (pendingBy sc reason message now) now)⟩ }

theorem pending_ends {p : Pending} (h : (p.reconcile sc).Ends asked o) : Pended p sc asked o := by
  unfold Pending.reconcile at h
  split at h
  next hr =>
    cases h
    exact .idle hr
  next reason message hr =>
    obtain ⟨now, rest, rfl, h1⟩ := ends_call.mp h
    cases h1
    exact .pending reason message hr now

/-! ## 6. ExpireDeleted and Recover -/

/-- How `ExpireDeleted` ends. -/
inductive Deleted (sc : Scope) : Trace → Outcome Scope → Prop where
  | idle (h : holdsLease sc.object = false ∨ sc.object.status.microVM = none) :
      Deleted sc [] { scope := sc }
  | there (hh : holdsLease sc.object = true) (vm : MicroVMReference)
      (hvm : sc.object.status.microVM = some vm) :
      Deleted sc [⟨.deletedHas vm.uid, false⟩] { scope := sc }
  | gone (hh : holdsLease sc.object = true) (vm : MicroVMReference)
      (hvm : sc.object.status.microVM = some vm) (now : Time) :
      Deleted sc (⟨.deletedHas vm.uid, true⟩ :: expiring sc (.deletedVM vm.uid) now)
        (.stopped (expiredBy sc (.deletedVM vm.uid) now))

theorem expireDeleted_ends (h : (ExpireDeleted.reconcile sc).Ends asked o) :
    Deleted sc asked o := by
  unfold ExpireDeleted.reconcile at h
  split at h
  next hh =>
    cases h
    exact .idle (.inl (by simpa using hh))
  next hh =>
    have hh : holdsLease sc.object = true := by simpa using hh
    split at h
    next hvm =>
      cases h
      exact .idle (.inr hvm)
    next vm hvm =>
      obtain ⟨has, rest, rfl, h1⟩ := ends_call.mp h
      cases has with
      | false =>
        cases h1
        exact .there hh vm hvm
      | true =>
        obtain ⟨now, rest, rfl, h2⟩ := expire_ends h1
        cases h2
        rw [List.append_nil]
        exact .gone hh vm hvm now

/-- The expiry of a status after `Recover` has looked it up. -/
def raised (exp : Option Time) : Option (Option LeaseRecord) → Option Time
  | some (some rec) =>
    match exp with
    | none => some rec.expiresAt
    | some t => if t < rec.expiresAt then some rec.expiresAt else some t
  | _ => exp

/-- The scope `Recover` leaves of a Lease that battery listed. -/
def recoveredBy (sc : Scope) (rec : LeaseRecord) : Scope :=
  (sc.called methodListLeases none).setStatus { sc.object.status with
    leaseExpiresAt := raised sc.object.status.leaseExpiresAt (some (some rec)) }

/-- How `Recover` ends. -/
inductive Recovered (sc : Scope) : Trace → Outcome Scope → Prop where
  | idle (h : holdsLease sc.object = false) : Recovered sc [] { scope := sc }
  | unknown (hh : holdsLease sc.object = true) :
      Recovered sc [⟨.lookup sc.object.status.leaseID, none⟩] { scope := sc }
  | missing (hh : holdsLease sc.object = true) (now : Time) :
      Recovered sc
        (⟨.lookup sc.object.status.leaseID, some none⟩ ::
          expiring sc (.recovered sc.object.status.leaseID) now)
        (.stopped (expiredBy (sc.called methodListLeases none)
          (.recovered sc.object.status.leaseID) now))
  | listed (hh : holdsLease sc.object = true) (rec : LeaseRecord) :
      Recovered sc [⟨.lookup sc.object.status.leaseID, some (some rec)⟩]
        { scope := recoveredBy sc rec }

theorem recover_ends (h : (Recover.reconcile sc).Ends asked o) : Recovered sc asked o := by
  unfold Recover.reconcile at h
  split at h
  next hh =>
    cases h
    exact .idle (by simpa using hh)
  next hh =>
    have hh : holdsLease sc.object = true := by simpa using hh
    obtain ⟨known, rest, rfl, h1⟩ := ends_call.mp h
    match known, h1 with
    | none, h1 =>
      cases h1
      exact .unknown hh
    | some none, h1 =>
      obtain ⟨now, rest, rfl, h2⟩ := expire_ends h1
      cases h2
      rw [List.append_nil]
      exact .missing hh now
    | some (some rec), h1 =>
      have ho : rest = [] ∧ o = { scope := recoveredBy sc rec } := by
        unfold recoveredBy raised
        cases hexp : sc.object.status.leaseExpiresAt with
        | none =>
          simp only [Scope.called, hexp, if_true] at h1
          exact ends_pure.mp h1
        | some t =>
          simp only [Scope.called, hexp, decide_eq_true_eq] at h1
          dsimp only
          split at h1
          next hlt =>
            rw [if_pos hlt]
            exact ends_pure.mp h1
          next hlt =>
            rw [if_neg hlt, ← hexp]
            exact ends_pure.mp h1
      obtain ⟨rfl, rfl⟩ := ho
      exact .listed hh rec

/-! ## 7. Renew and CheckExpiry -/

/-- The scope `Renew` leaves of a Lease that battery renewed. -/
def renewedBy (sc : Scope) (expiresAt : Time) : Scope :=
  (sc.called methodHeartbeat none).setStatus
    { sc.object.status with
      leaseExpiresAt := some expiresAt, observedRenewTime := sc.object.spec.renewTime }

/-- How `Renew` ends. -/
inductive Renewed (r : Renew) (sc : Scope) : Trace → Outcome Scope → Prop where
  | idle (h : holdsLease sc.object = false ∨ pendingRenewal sc.object = false) :
      Renewed r sc [] { scope := sc }
  | gone (hh : holdsLease sc.object = true) (hp : pendingRenewal sc.object = true)
      (e : BatteryError) (hk : e.kind = .notFound) (now : Time) :
      Renewed r sc
        (exchange sc.object.uid (.heartbeat sc.object.status.leaseID) (.error e) ++
          expiring sc (.heartbeatNotFound sc.object.status.leaseID) now)
        (.stopped (expiredBy (sc.called methodHeartbeat (some e))
          (.heartbeatNotFound sc.object.status.leaseID) now))
  | transit (hh : holdsLease sc.object = true) (hp : pendingRenewal sc.object = true)
      (e : BatteryError) (ht : failedInTransit (some e) = true) (now since : Time) :
      Renewed r sc
        (exchange sc.object.uid (.heartbeat sc.object.status.leaseID) (.error e) ++ [⟨.now, now⟩])
        { scope := sc.called methodHeartbeat (some e),
          result := { requeueAfter := r.backoff.after (now - since) } }
  | failed (hh : holdsLease sc.object = true) (hp : pendingRenewal sc.object = true)
      (e : BatteryError) (hk : e.kind ≠ .notFound) (ht : failedInTransit (some e) = false) :
      Renewed r sc (exchange sc.object.uid (.heartbeat sc.object.status.leaseID) (.error e))
        { scope := sc.called methodHeartbeat (some e), result := { stop := true },
          err := some ("renewing Lease " ++ sc.object.status.leaseID ++ ": " ++ e.text) }
  | renewed (hh : holdsLease sc.object = true) (hp : pendingRenewal sc.object = true)
      (expiresAt now : Time) :
      Renewed r sc
        (exchange sc.object.uid (.heartbeat sc.object.status.leaseID) (.ok expiresAt) ++
          [⟨.now, now⟩])
        { scope := renewedBy sc expiresAt,
          result := { requeueAfter := max (expiresAt - now) second } }

theorem renew_ends {r : Renew} (h : (r.reconcile sc).Ends asked o) : Renewed r sc asked o := by
  unfold Renew.reconcile at h
  split at h
  next hidle =>
    cases h
    exact .idle (by simpa using hidle)
  next hidle =>
    have hboth : holdsLease sc.object = true ∧ pendingRenewal sc.object = true := by
      simpa using hidle
    obtain ⟨hh, hp⟩ := hboth
    obtain ⟨ans, rest, rfl, h1⟩ := callBattery_ends h
    cases ans with
    | ok expiresAt =>
      obtain ⟨now, rest, rfl, h2⟩ := until_ends h1
      cases h2
      exact .renewed hh hp expiresAt now
    | error e =>
      dsimp only at h1
      split at h1
      next hk =>
        obtain ⟨now, rest, rfl, h2⟩ := expire_ends h1
        cases h2
        rw [List.append_nil]
        exact .gone hh hp e hk now
      next hk =>
        split at h1
        next ht =>
          obtain ⟨now, since, rest, rfl, h2⟩ := retryAfter_ends h1
          cases h2
          exact .transit hh hp e ht now since
        next ht =>
          cases h1
          exact .failed hh hp e hk (Bool.eq_false_iff.mpr ht)

/-- The record of a claim's Lease among those listed. -/
def listedFor (sc : Scope) (leases : List LeaseRecord) : Option LeaseRecord :=
  leases.find? fun l => l.leaseID = sc.object.status.leaseID

/-- How `CheckExpiry` ends once ListLeases has answered; `now` is the time before the call. -/
inductive Settled (sc : Scope) (now : Time) (leases : List LeaseRecord) :
    Trace → Outcome Scope → Prop where
  | missing (hl : listedFor sc leases = none) (at_ : Time) :
      Settled sc now leases (expiring sc (.notListed sc.object.status.leaseID) at_)
        (.stopped (expiredBy (sc.called methodListLeases none)
          (.notListed sc.object.status.leaseID) at_))
  | overdue (rec : LeaseRecord) (hl : listedFor sc leases = some rec) (ho : rec.expiresAt ≤ now)
      (at_ : Time) :
      Settled sc now leases
        (expiring sc (.overdue sc.object.status.leaseID rec.expiresAt) at_)
        (.stopped (expiredBy (sc.called methodListLeases none)
          (.overdue sc.object.status.leaseID rec.expiresAt) at_))
  | listed (rec : LeaseRecord) (hl : listedFor sc leases = some rec) (ho : now < rec.expiresAt)
      (at_ : Time) :
      Settled sc now leases [⟨.now, at_⟩]
        { scope := (sc.called methodListLeases none).setStatus
            { sc.object.status with leaseExpiresAt := some rec.expiresAt },
          result := { requeueAfter := max (rec.expiresAt - at_) second } }

/-- How `CheckExpiry` ends. -/
inductive Checked (c : CheckExpiry) (sc : Scope) : Trace → Outcome Scope → Prop where
  | idle (h : holdsLease sc.object = false ∨ pendingRenewal sc.object = true) :
      Checked c sc [] { scope := sc }
  | coming (hh : holdsLease sc.object = true) (hp : pendingRenewal sc.object = false)
      (now exp at_ : Time) (hc : comingExpiry sc.object now = some exp) :
      Checked c sc [⟨.now, now⟩, ⟨.now, at_⟩]
        { scope := sc, result := { requeueAfter := max (exp - at_) second } }
  | transit (hh : holdsLease sc.object = true) (hp : pendingRenewal sc.object = false)
      (now : Time) (hc : comingExpiry sc.object now = none) (e : BatteryError)
      (ht : failedInTransit (some e) = true) (at_ since : Time) :
      Checked c sc
        (⟨.now, now⟩ ::
          (exchange sc.object.uid (.listLeases (some (poolOf sc.object))) (.error e) ++
            [⟨.now, at_⟩]))
        { scope := sc.called methodListLeases (some e),
          result := { requeueAfter := c.backoff.after (at_ - since) } }
  | failed (hh : holdsLease sc.object = true) (hp : pendingRenewal sc.object = false)
      (now : Time) (hc : comingExpiry sc.object now = none) (e : BatteryError)
      (ht : failedInTransit (some e) = false) :
      Checked c sc
        (⟨.now, now⟩ ::
          exchange sc.object.uid (.listLeases (some (poolOf sc.object))) (.error e))
        { scope := sc.called methodListLeases (some e), result := { stop := true },
          err := some ("listing the Leases of Pool " ++ (poolOf sc.object).string ++ ": " ++
            e.text) }
  | answered (hh : holdsLease sc.object = true) (hp : pendingRenewal sc.object = false)
      (now : Time) (hc : comingExpiry sc.object now = none) (leases : List LeaseRecord)
      (asked : Trace) (o : Outcome Scope) (hs : Settled sc now leases asked o) :
      Checked c sc
        (⟨.now, now⟩ ::
          (exchange sc.object.uid (.listLeases (some (poolOf sc.object))) (.ok leases) ++ asked)) o

theorem settle_ends {now : Time} {leases : List LeaseRecord}
    (h : (CheckExpiry.settle (sc.called methodListLeases none) now leases).Ends asked o) :
    Settled sc now leases asked o := by
  unfold CheckExpiry.settle at h
  dsimp only at h
  split at h
  next hl =>
    obtain ⟨at_, rest, rfl, h1⟩ := expire_ends h
    cases h1
    rw [List.append_nil]
    exact Settled.missing (show listedFor sc leases = none from hl) at_
  next rec hl =>
    split at h
    next ho =>
      obtain ⟨at_, rest, rfl, h1⟩ := expire_ends h
      cases h1
      rw [List.append_nil]
      exact Settled.overdue rec (show listedFor sc leases = some rec from hl) ho at_
    next ho =>
      obtain ⟨at_, rest, rfl, h1⟩ := until_ends h
      cases h1
      exact Settled.listed rec (show listedFor sc leases = some rec from hl)
        (Int.not_le.mp ho) at_

theorem checkExpiry_ends {c : CheckExpiry} (h : (c.reconcile sc).Ends asked o) :
    Checked c sc asked o := by
  unfold CheckExpiry.reconcile at h
  split at h
  next hidle =>
    cases h
    exact .idle (by simpa using hidle)
  next hidle =>
    have hboth : holdsLease sc.object = true ∧ pendingRenewal sc.object = false := by
      simpa using hidle
    obtain ⟨hh, hp⟩ := hboth
    obtain ⟨now, rest, rfl, h1⟩ := ends_call.mp h
    dsimp only at h1
    split at h1
    next exp hc =>
      obtain ⟨at_, rest, rfl, h2⟩ := until_ends h1
      cases h2
      exact .coming hh hp now exp at_ hc
    next hc =>
      obtain ⟨ans, rest, rfl, h2⟩ := callBattery_ends h1
      cases ans with
      | ok leases => exact .answered hh hp now hc leases rest o (settle_ends h2)
      | error e =>
        dsimp only at h2
        split at h2
        next ht =>
          obtain ⟨at_, since, rest, rfl, h3⟩ := retryAfter_ends h2
          cases h3
          exact .transit hh hp now hc e ht at_ since
        next ht =>
          cases h2
          exact .failed hh hp now hc e (Bool.eq_false_iff.mpr ht)

/-! ## 8. AgentAddress and HostReady -/

/-- How `AgentAddress` ends. -/
inductive Addressed (sc : Scope) : Trace → Outcome Scope → Prop where
  | idle (h : boundNode sc.object = none) : Addressed sc [] { scope := sc }
  | unread (host : HostReference) (hb : boundNode sc.object = some host)
      (res : Except ApiError Node) (err : String) :
      Addressed sc [⟨.nodeGet host.nodeName, res⟩] { scope := sc, err := some err }
  | read (host : HostReference) (hb : boundNode sc.object = some host)
      (res : Except ApiError Node) (address : String) (status : ConditionStatus)
      (reason message : String) (now : Time) :
      Addressed sc [⟨.nodeGet host.nodeName, res⟩, ⟨.now, now⟩]
        { scope := (sc.setStatus
            { sc.object.status with host := some ⟨host.nodeName, address⟩ }).setCondition
              .agentAvailable status reason message now }

theorem agentAddress_ends (h : (AgentAddress.reconcile sc).Ends asked o) :
    Addressed sc asked o := by
  unfold AgentAddress.reconcile at h
  split at h
  next hb =>
    cases h
    exact .idle hb
  next host hb =>
    obtain ⟨res, rest, rfl, h1⟩ := ends_call.mp h
    dsimp only at h1
    split at h1
    · cases h1
      exact .unread host hb res _
    next address _ =>
      obtain ⟨now, rest, rfl, h2⟩ := ends_call.mp h1
      split at h2
      · cases h2
        exact .read host hb res address _ _ _ now
      · cases h2
        exact .read host hb res address _ _ _ now

/-- How `HostReady` ends. -/
inductive Reported (sc : Scope) : Trace → Outcome Scope → Prop where
  | idle (h : boundNode sc.object = none) : Reported sc [] { scope := sc }
  | unread (host : HostReference) (hb : boundNode sc.object = some host) (now : Time)
      (res : Except ApiError Node) (err : String) :
      Reported sc [⟨.now, now⟩, ⟨.nodeGet host.nodeName, res⟩] { scope := sc, err := some err }
  | read (host : HostReference) (hb : boundNode sc.object = some host) (now : Time)
      (res : Except ApiError Node) (status : ConditionStatus) (reason message : String) :
      Reported sc [⟨.now, now⟩, ⟨.nodeGet host.nodeName, res⟩]
        { scope := sc.setCondition .hostReady status reason message now }

theorem hostReady_ends (h : (HostReady.reconcile sc).Ends asked o) : Reported sc asked o := by
  unfold HostReady.reconcile at h
  split at h
  next hb =>
    cases h
    exact .idle hb
  next host hb =>
    obtain ⟨now, rest, rfl, h1⟩ := ends_call.mp h
    obtain ⟨res, rest, rfl, h2⟩ := ends_call.mp h1
    dsimp only at h2
    split at h2
    · cases h2
      exact .unread host hb now res _
    next status reason message _ =>
      cases h2
      exact .read host hb now res status reason message

/-! ## 9. Synced -/

/-- How `Synced` ends. -/
inductive Reflected (sc : Scope) : Trace → Outcome Scope → Prop where
  | idle (h : sc.batteryCall = none) : Reflected sc [] { scope := sc }
  | set (call : BatteryCall) (h : sc.batteryCall = some call) (now : Time) :
      Reflected sc [⟨.now, now⟩]
        { scope := sc.setCondition .synced (syncedReport call).1 (syncedReport call).2.1
            (syncedReport call).2.2 now }

theorem synced_ends (h : (Synced.reconcile sc).Ends asked o) : Reflected sc asked o := by
  unfold Synced.reconcile at h
  split at h
  next hc =>
    cases h
    exact .idle hc
  next call hc =>
    obtain ⟨now, rest, rfl, h1⟩ := ends_call.mp h
    cases h1
    exact .set call hc now

end BatteryOperator.Course
