/-
  Subject:   The expiries battery gives one Lease while its Pool's threshold stays as it is.

  * `lastExpiry` -- the expiry a Lease was given last;
  * `Steady` -- a held Lease has it, none it was given before is later, and a sweep comes after all
    of them;
  * `Steady.serve`, `Steady.act` -- **battery keeps it**, as long as the threshold of the Lease's
    Pool is kept.
-/
import BatteryOperator.Ledger

namespace BatteryOperator

open Lib

/-! ## 1. The last expiry -/

/-- The expiry a fact gives the Lease. -/
def Fact.expiryOf (id : String) : Fact → Option Time
  | .leased id' _ _ _ e => if id' = id then some e else none
  | .renewed id' e => if id' = id then some e else none
  | _ => none

/-- **The expiry battery gave the Lease last.** -/
def lastExpiry (id : String) (h : List Fact) : Option Time := h.findSome? (Fact.expiryOf id)

/-- The fact says nothing about the Lease's expiry, and is no sweep of it. -/
def Fact.Silent (id : String) (f : Fact) : Prop :=
  f.expiryOf id = none ∧ ∀ at_, f ≠ .ended id at_ .swept

section Published

variable {id : String} {h : List Fact} {f : Fact} {e : Time}

theorem published_iff : Published h id e ↔ ∃ f ∈ h, f.expiryOf id = some e := by
  constructor
  · intro hpub
    rcases hpub with ⟨vm, rid, p, hm⟩ | hm
    · exact ⟨_, hm, if_pos rfl⟩
    · exact ⟨_, hm, if_pos rfl⟩
  · intro hfact
    obtain ⟨f, hm, hf⟩ := hfact
    cases f with
    | leased id' vm rid p e' =>
      obtain ⟨rfl, he⟩ := Option.ite_none_right_eq_some.mp hf
      cases he
      exact .inl ⟨vm, rid, p, hm⟩
    | renewed id' e' =>
      obtain ⟨rfl, he⟩ := Option.ite_none_right_eq_some.mp hf
      cases he
      exact .inr hm
    | created | wrote | sent | replayed | replied | ended | expired => cases hf

theorem published_cons :
    Published (f :: h) id e ↔ f.expiryOf id = some e ∨ Published h id e := by
  simp only [published_iff, List.mem_cons, exists_eq_or_imp]

theorem lastExpiry_cons_none (hf : f.expiryOf id = none) :
    lastExpiry id (f :: h) = lastExpiry id h := by
  unfold lastExpiry
  rw [List.findSome?_cons, hf]

theorem lastExpiry_cons_some (hf : f.expiryOf id = some e) :
    lastExpiry id (f :: h) = some e := by
  unfold lastExpiry
  rw [List.findSome?_cons, hf]

end Published

/-! ## 2. A steady Lease -/

/-- **The expiries of one Lease** under a threshold that is kept: a held Lease has the last one,
    which is its last heartbeat's time and the threshold; the last one is the latest; and a sweep
    comes after all of them. -/
structure Steady (id : String) (b : Battery) (now : Time) (h : List Fact) : Prop where
  held : ∀ l ∈ b.leases, l.leaseID = id → lastExpiry id h = some l.expiresAt ∧
    l.expiresAt = l.lastHeartbeatAt + b.threshold l.pool ∧ l.lastHeartbeatAt ≤ now
  leased : ∀ e, Published h id e → ∃ vm rid p e', Fact.leased id vm rid p e' ∈ h
  latest : ∀ e, Published h id e → ∃ e0, lastExpiry id h = some e0 ∧ e ≤ e0
  swept : ∀ at_, Fact.ended id at_ .swept ∈ h → ∀ e, Published h id e → e ≤ at_

namespace Steady

variable {id : String} {b b' : Battery} {now : Time} {h h' : List Fact} {f : Fact}

variable (hS : Steady id b now h)
include hS

/-- No expiry of a held Lease is later than the one it has. -/
theorem le_expiresAt {l : Lease} (hl : l ∈ b.leases) (hid : l.leaseID = id) {e : Time}
    (hp : Published h id e) : e ≤ l.expiresAt := by
  obtain ⟨e0, hlast, hle⟩ := hS.latest e hp
  rw [(hS.held l hl hid).1] at hlast
  cases hlast
  exact hle

/-- Time passes. -/
theorem lapse {now' : Time} (hle : now ≤ now') : Steady id b now' h :=
  { hS with
    held l hl hid := by
      obtain ⟨hlast, heq, hbeat⟩ := hS.held l hl hid
      exact ⟨hlast, heq, Int.le_trans hbeat hle⟩ }

/-- The history goes on with something that gives no expiry; if a sweep ends the Lease, then after
    its expiries. -/
theorem cons (hf : f.expiryOf id = none)
    (hsw : ∀ at_, f = .ended id at_ .swept → ∀ e, Published h id e → e ≤ at_) :
    Steady id b now (f :: h) := by
  have back : ∀ e, Published (f :: h) id e → Published h id e := fun e hp =>
    (published_cons.mp hp).resolve_left fun heq => by
      simp [hf] at heq
  have hlast : lastExpiry id (f :: h) = lastExpiry id h := lastExpiry_cons_none hf
  constructor
  case held =>
    intro l hl hid
    rw [hlast]
    exact hS.held l hl hid
  case leased =>
    intro e hp
    obtain ⟨vm, rid, p, e', hm⟩ := hS.leased e (back e hp)
    exact ⟨vm, rid, p, e', List.mem_cons_of_mem _ hm⟩
  case latest =>
    intro e hp
    rw [hlast]
    exact hS.latest e (back e hp)
  case swept =>
    intro at_ hm e hp
    rcases List.mem_cons.mp hm with heq | hold
    · exact hsw at_ heq.symm e (back e hp)
    · exact hS.swept at_ hold e (back e hp)

/-- The history goes on with something else. -/
theorem note (hf : f.Silent id) : Steady id b now (f :: h) :=
  hS.cons hf.1 fun at_ heq => absurd heq (hf.2 at_)

theorem append {new : List Fact} (hf : ∀ f ∈ new, f.Silent id) : Steady id b now (new ++ h) := by
  induction new with
  | nil => exact hS
  | cons f new ih =>
    exact (ih fun g hg => hf g (List.mem_cons_of_mem f hg)).note (hf f List.mem_cons_self)

/-- Some Leases are no longer held, and of the others neither the expiry nor the last heartbeat nor
    the threshold of the Pool moves. -/
theorem keep
    (hl : ∀ l' ∈ b'.leases, l'.leaseID = id → ∃ l ∈ b.leases, l.leaseID = id ∧
      l'.expiresAt = l.expiresAt ∧ l'.lastHeartbeatAt = l.lastHeartbeatAt ∧
      b'.threshold l'.pool = b.threshold l.pool) :
    Steady id b' now h :=
  { hS with
    held l' hl' hid' := by
      obtain ⟨l, hmem, hid, he, hb, ht⟩ := hl l' hl' hid'
      rw [he, hb, ht]
      exact hS.held l hmem hid }

omit hS in
/-- The Lease, which has not ended, is given a new expiry, none of the old ones being later. -/
theorem publish {e0 : Time} (hf : f.expiryOf id = some e0)
    (hle : ∀ e, Published h id e → e ≤ e0) (hg : ¬ Gone h id)
    (hm : ∃ vm rid p e, Fact.leased id vm rid p e ∈ f :: h)
    (hheld : ∀ l ∈ b'.leases, l.leaseID = id → l.expiresAt = e0 ∧
      l.expiresAt = l.lastHeartbeatAt + b'.threshold l.pool ∧ l.lastHeartbeatAt ≤ now) :
    Steady id b' now (f :: h) := by
  have hlast : lastExpiry id (f :: h) = some e0 := lastExpiry_cons_some hf
  constructor
  case held =>
    intro l hl hid
    obtain ⟨he, hrest⟩ := hheld l hl hid
    exact ⟨by rw [hlast, he], hrest⟩
  case leased => exact fun e _ => hm
  case latest =>
    intro e hp
    refine ⟨e0, hlast, ?_⟩
    rcases published_cons.mp hp with heq | hold
    · rw [hf] at heq
      cases heq
      exact Int.le_refl _
    · exact hle e hold
  case swept =>
    intro at_ hm' e hp
    rcases List.mem_cons.mp hm' with heq | hold
    · -- the new fact is no end
      rw [← heq] at hf
      cases hf
    · exact absurd ⟨at_, _, hold⟩ hg

/-- A Lease is created. -/
theorem grant (hL : Ledger b h) {id' vm rid : String} {pool : PoolRef} {host : HostRef}
    (hn : b.isNew h id' vm = true) :
    Steady id { b with leases := b.newLease now id' vm rid pool host :: b.leases } now
      (.leased id' vm rid pool (now + b.threshold pool) :: h) := by
  obtain ⟨_, _, hnew, _⟩ := Ledger.isNew_spec hn
  by_cases hid : id' = id
  · subst hid
    -- nothing was said about the id before
    have never : ∀ e, ¬ Published h id' e := by
      intro e hp
      obtain ⟨vm', rid', p', e', hm⟩ := hS.leased e hp
      exact (hnew _ _ _ _ _ hm).1 rfl
    refine publish (if_pos rfl) (fun e hp => absurd hp (never e)) ?_
      ⟨vm, rid, pool, _, List.mem_cons_self⟩ ?_
    · exact hL.not_gone_of_new hn
    · intro l hl hlid
      rcases List.mem_cons.mp hl with rfl | hl
      · exact ⟨rfl, rfl, Int.le_refl _⟩
      · exact absurd hlid (hL.not_held_of_new hn l hl)
  · have hsilent : (Fact.leased id' vm rid pool (now + b.threshold pool)).Silent id :=
      ⟨if_neg hid, nofun⟩
    refine (hS.note hsilent).keep fun l hl hlid => ?_
    rcases List.mem_cons.mp hl with rfl | hl
    · exact absurd hlid hid
    · exact ⟨l, hl, hlid, rfl, rfl, rfl⟩

/-- A Heartbeat gives a Lease a new expiry, which is no earlier: time does not go back. -/
theorem renew (hL : Ledger b h) {id' : String} {l0 : Lease} (hf : b.find id' = some l0) :
    Steady id (b.update id' fun m =>
        { m with lastHeartbeatAt := now, expiresAt := now + b.threshold l0.pool }) now
      (.renewed id' (now + b.threshold l0.pool) :: h) := by
  obtain ⟨hl0, hid0⟩ := Ledger.find_some hf
  by_cases hid : id' = id
  · subst hid
    obtain ⟨_, heq, hbeat⟩ := hS.held l0 hl0 hid0
    refine publish (if_pos rfl) (fun e hp => ?_) ?_ ?_ ?_
    · calc e ≤ l0.expiresAt := hS.le_expiresAt hl0 hid0 hp
        _ = l0.lastHeartbeatAt + b.threshold l0.pool := heq
        _ ≤ now + b.threshold l0.pool := Int.add_le_add_right hbeat _
    · exact fun hg => hL.not_held_of_gone hg l0 hl0 hid0
    · obtain ⟨e, hm⟩ := hL.held l0 hl0
      rw [hid0] at hm
      exact ⟨_, _, _, e, List.mem_cons_of_mem _ hm⟩
    · intro l hl hlid
      obtain ⟨m, hm, rfl⟩ := List.mem_map.mp hl
      by_cases hmid : m.leaseID = id'
      · have hsame : m = l0 := hL.same m hm l0 hl0 (hmid.trans hid0.symm)
        subst hsame
        rw [if_pos hmid]
        exact ⟨rfl, rfl, Int.le_refl _⟩
      · rw [if_neg hmid] at hlid
        exact absurd hlid hmid
  · have hsilent : (Fact.renewed id' (now + b.threshold l0.pool)).Silent id :=
      ⟨if_neg hid, nofun⟩
    refine (hS.note hsilent).keep fun l hl hlid => ?_
    obtain ⟨m, hm, rfl⟩ := List.mem_map.mp hl
    by_cases hmid : m.leaseID = id'
    · rw [if_pos hmid] at hlid
      exact absurd (hmid.symm.trans hlid) hid
    · rw [if_neg hmid] at hlid ⊢
      exact ⟨m, hm, hlid, rfl, rfl, rfl⟩

/-- A Lease ends; a sweep ends it after its expiry. -/
theorem finish {id' : String} {l0 : Lease} {cause : Cause} (hf : b.find id' = some l0)
    (hsw : cause = .swept → l0.expiresAt ≤ now) :
    Steady id (b.remove id') now (.ended id' now cause :: h) := by
  obtain ⟨hl0, hid0⟩ := Ledger.find_some hf
  refine (hS.cons rfl fun at_ heq e hp => ?_).keep fun l hl hid => ?_
  · injection heq with hid hat hc
    rw [← hat]
    exact Int.le_trans (hS.le_expiresAt hl0 (hid0.trans hid) hp) (hsw hc)
  · exact ⟨l, (List.mem_filter.mp hl).1, hid, rfl, rfl, rfl⟩

/-- A Lease is marked for deletion. -/
theorem mark (id' : String) :
    Steady id (b.update id' fun l => { l with deleting := true }) now h := by
  refine hS.keep fun l hl hlid => ?_
  obtain ⟨m, hm, rfl⟩ := List.mem_map.mp hl
  by_cases hmid : m.leaseID = id'
  · rw [if_pos hmid] at hlid ⊢
    exact ⟨m, hm, hlid, rfl, rfl, rfl⟩
  · rw [if_neg hmid] at hlid ⊢
    exact ⟨m, hm, hlid, rfl, rfl, rfl⟩

/-! ## 3. Battery keeps it -/

/-- **An answer keeps a Lease steady.** -/
theorem serve (hL : Ledger b h) {c : Call} {s : Serve} {r : Except BatteryError c.Answer}
    (hs : b.serve now h c s = some (r, b', h')) : Steady id b' now h' := by
  have answer : ∀ {b : Battery} {h : List Fact} rid claimed, Steady id b now h →
      Steady id b now (.replied rid claimed :: h) := fun _ _ hS =>
    hS.note ⟨rfl, nofun⟩
  cases Battery.serve_cases hs with
  | refused | listed => exact hS
  | granted _ _ _ _ _ _ new => exact answer _ _ (hS.grant hL new)
  | replayed => exact answer _ _ (hS.note ⟨rfl, nofun⟩)
  | renewed _ _ found => exact hS.renew hL found
  | marked id' => exact hS.mark id'
  | released _ _ found => exact hS.finish found nofun

/-- **An action of battery keeps a Lease steady** unless it changes the threshold of the Lease's
    Pool. -/
theorem act (hL : Ledger b h) {a : BatteryAct}
    (hkept : ∀ pool d, a = .setThreshold pool d → ∀ l ∈ b.leases, l.leaseID = id →
      l.pool = pool → d = b.threshold pool)
    (ha : b.act now h a = some (b', h')) : Steady id b' now h' := by
  cases Battery.act_cases ha with
  | leased id' vm pool host new => exact hS.grant hL new
  | ended id' l cause found why =>
    refine hS.finish found fun hc => ?_
    rcases why with ⟨_, hle⟩ | ⟨hc', _⟩ | ⟨hc', _⟩
    · exact hle
    · simp [hc] at hc'
    · simp [hc] at hc'
  | threshold pool d act =>
    refine hS.keep fun l hl hid => ⟨l, hl, hid, rfl, rfl, ?_⟩
    show (if l.pool = pool then d else b.threshold l.pool) = b.threshold l.pool
    split
    next hp => rw [hkept pool d act l hl hid hp, hp]
    · rfl
  | emitted ev => exact hS.keep fun l hl hid => ⟨l, hl, hid, rfl, rfl, rfl⟩

end Steady

end BatteryOperator
