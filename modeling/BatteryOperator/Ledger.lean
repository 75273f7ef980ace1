/-
  Subject:   What battery's contract guarantees over whole histories.

  * `Ledger` -- what holds of the Leases held and the history, in every state: a lease id and a
    MicroVM are leased once, a Lease that is not held has ended, one request id has one Lease at a
    time and each after the end of the one before;
  * `Ledger.grant`, `Ledger.finish`, `Ledger.change`, `Ledger.note` -- the four ways the Leases and
    the history move;
  * `Ledger.serve`, `Ledger.act` -- **battery keeps the ledger**.
-/
import BatteryOperator.Contract

namespace BatteryOperator

open Lib

/-- **The ledger of battery's Leases.** -/
structure Ledger (b : Battery) (h : List Fact) : Prop where
  held : ∀ l ∈ b.leases, ∃ e, Fact.leased l.leaseID l.vmUID l.requestID l.pool e ∈ h
  current : ∀ l ∈ b.leases, Published h l.leaseID l.expiresAt
  live : ∀ l ∈ b.leases, ¬ Gone h l.leaseID
  kept : ∀ l ∈ b.leases, ∀ ev ∈ b.outbox, reportsDeletion ev = true → ev.vmUID ≠ l.vmUID
  hosted : ∀ l ∈ b.leases, l.host.name ≠ ""
  same : ∀ l ∈ b.leases, ∀ l' ∈ b.leases, l.leaseID = l'.leaseID → l = l'
  one : ∀ l ∈ b.leases, ∀ l' ∈ b.leases, l.requestID = l'.requestID → l.requestID ≠ "" → l = l'
  lost : ∀ id vm rid p e, Fact.leased id vm rid p e ∈ h →
    Gone h id ∨ ∃ l ∈ b.leases, l.leaseID = id
  created : ∀ id, Gone h id → ∃ vm rid p e, Fact.leased id vm rid p e ∈ h
  once : ∀ id vm rid p e id' vm' rid' p' e', Fact.leased id vm rid p e ∈ h →
    Fact.leased id' vm' rid' p' e' ∈ h → id = id' ∨ vm = vm' →
    Fact.leased id vm rid p e = Fact.leased id' vm' rid' p' e'
  named : ∀ id vm rid p e, Fact.leased id vm rid p e ∈ h → id ≠ "" ∧ vm ≠ ""
  order : ∀ id vm rid p e id' vm' p' e', Fact.leased id vm rid p e ∈ h →
    Fact.leased id' vm' rid p' e' ∈ h → rid ≠ "" → id ≠ id' →
    (∃ at_ cause, Precedes (.ended id at_ cause) (.leased id' vm' rid p' e') h) ∨
      ∃ at_ cause, Precedes (.ended id' at_ cause) (.leased id vm rid p e) h
  asked : ∀ id vm rid p e, Fact.leased id vm rid p e ∈ h → rid ≠ "" →
    Precedes (.sent rid (.claimVM p rid)) (.leased id vm rid p e) h
  replied : ∀ rid c, Fact.replied rid c ∈ h → c.host.name ≠ "" ∧
    ∃ p e, Fact.leased c.leaseID c.vmUID rid p e ∈ h ∧
      Precedes (.sent rid (.claimVM p rid)) (.replied rid c) h

namespace Ledger

variable {b : Battery} {h : List Fact}

/-! ## 1. What the ledger says of one Lease -/

variable {id vm rid : String} {p : PoolRef} {e : Time} {l : Lease}

/-- A lease id names one Lease. -/
theorem leased_unique (hL : Ledger b h) {vm' rid' : String} {p' : PoolRef} {e' : Time}
    (h1 : Fact.leased id vm rid p e ∈ h) (h2 : Fact.leased id vm' rid' p' e' ∈ h) :
    vm = vm' ∧ rid = rid' ∧ p = p' ∧ e = e' := by
  have heq := hL.once _ _ _ _ _ _ _ _ _ _ h1 h2 (.inl rfl)
  injection heq with _ hvm hrid hp he
  exact ⟨hvm, hrid, hp, he⟩

/-- A Lease that battery holds is as it was created. -/
theorem held_as_leased (hL : Ledger b h) (hl : l ∈ b.leases) (hm : Fact.leased id vm rid p e ∈ h)
    (hid : l.leaseID = id) : l.vmUID = vm ∧ l.requestID = rid ∧ l.pool = p := by
  obtain ⟨e', hheld⟩ := hL.held l hl
  rw [hid] at hheld
  obtain ⟨hvm, hrid, hp, _⟩ := hL.leased_unique hheld hm
  exact ⟨hvm, hrid, hp⟩

/-- A Lease that ended is not held. -/
theorem not_held_of_gone (hL : Ledger b h) (hg : Gone h id) : ∀ l ∈ b.leases, l.leaseID ≠ id := by
  intro l hl he
  subst he
  exact hL.live l hl hg

/-- A Lease that was created and is not held has ended. -/
theorem gone_of_not_held (hL : Ledger b h) (hm : Fact.leased id vm rid p e ∈ h)
    (hn : ∀ l ∈ b.leases, l.leaseID ≠ id) : Gone h id := by
  rcases hL.lost _ _ _ _ _ hm with hg | ⟨l, hl, he⟩
  · exact hg
  · exact absurd he (hn l hl)

/-- A Lease on a MicroVM that an event reported deleted has ended. -/
theorem gone_of_reported (hL : Ledger b h) (hm : Fact.leased id vm rid p e ∈ h)
    {ev : BatteryEvent} (hev : ev ∈ b.outbox) (hr : reportsDeletion ev = true)
    (hvm : ev.vmUID = vm) : Gone h id := by
  refine hL.gone_of_not_held hm fun l hl he => ?_
  obtain ⟨hv, _⟩ := hL.held_as_leased hl hm he
  exact hL.kept l hl ev hev hr (hvm.trans hv.symm)

theorem find_some (hf : b.find id = some l) : l ∈ b.leases ∧ l.leaseID = id :=
  ⟨List.mem_of_find?_eq_some hf, by simpa using List.find?_some hf⟩

theorem find_none (hf : b.find id = none) : ∀ l ∈ b.leases, l.leaseID ≠ id := by
  intro l hl he
  have := List.find?_eq_none.mp hf l hl
  simp [he] at this

theorem byRequest_some (hf : b.byRequest rid = some l) :
    l ∈ b.leases ∧ l.requestID = rid ∧ rid ≠ "" := by
  obtain ⟨hne, hf⟩ := Option.ite_none_left_eq_some.mp hf
  exact ⟨List.mem_of_find?_eq_some hf, by simpa using List.find?_some hf, hne⟩

theorem byRequest_none (hf : b.byRequest rid = none) (hne : rid ≠ "") :
    ∀ l ∈ b.leases, l.requestID ≠ rid := by
  intro l hl he
  rw [Battery.byRequest, if_neg hne] at hf
  have := List.find?_eq_none.mp hf l hl
  simp [he] at this

/-! ## 2. The moves -/

/-- The history goes on with a fact that creates no Lease, and battery holds the Leases that have
    not ended; an answer to a ClaimVM names a Lease that was created for the request, which was
    sent. -/
theorem move (hL : Ledger b h) {b' : Battery} {f : Fact}
    (hl : ∀ id vm rid p e, f ≠ .leased id vm rid p e) (hout : b'.outbox = b.outbox)
    (hsub : ∀ l ∈ b'.leases, l ∈ b.leases ∧ ¬ Gone (f :: h) l.leaseID)
    (hlost : ∀ l ∈ b.leases, Gone (f :: h) l.leaseID ∨ l ∈ b'.leases)
    (hgone : ∀ id, Gone (f :: h) id → Gone h id ∨ ∃ l ∈ b.leases, l.leaseID = id)
    (hr : ∀ rid c, f = .replied rid c → c.host.name ≠ "" ∧
      ∃ p e, Fact.leased c.leaseID c.vmUID rid p e ∈ h ∧ Fact.sent rid (.claimVM p rid) ∈ h) :
    Ledger b' (f :: h) := by
  have hsuf : h <:+ f :: h := List.suffix_cons f h
  have leased_mem : ∀ {id vm rid p e}, Fact.leased id vm rid p e ∈ f :: h →
      Fact.leased id vm rid p e ∈ h := fun hm =>
    (List.mem_cons.mp hm).resolve_left fun heq => hl _ _ _ _ _ heq.symm
  constructor
  case held =>
    intro l hl'
    obtain ⟨e, hm⟩ := hL.held l (hsub l hl').1
    exact ⟨e, hsuf.mem hm⟩
  case current => exact fun l hl' => (hL.current l (hsub l hl').1).mono hsuf
  case live => exact fun l hl' => (hsub l hl').2
  case kept =>
    rw [hout]
    exact fun l hl' => hL.kept l (hsub l hl').1
  case hosted => exact fun l hl' => hL.hosted l (hsub l hl').1
  case same => exact fun l1 h1 l2 h2 => hL.same l1 (hsub l1 h1).1 l2 (hsub l2 h2).1
  case one => exact fun l1 h1 l2 h2 => hL.one l1 (hsub l1 h1).1 l2 (hsub l2 h2).1
  case lost =>
    intro id vm rid p e hm
    rcases hL.lost id vm rid p e (leased_mem hm) with hg | ⟨l, hl', rfl⟩
    · exact .inl (hg.mono hsuf)
    · exact (hlost l hl').imp_right fun hin => ⟨l, hin, rfl⟩
  case created =>
    intro id hg
    rcases hgone id hg with hg | ⟨l, hl', rfl⟩
    · obtain ⟨vm, rid, p, e, hm⟩ := hL.created id hg
      exact ⟨vm, rid, p, e, hsuf.mem hm⟩
    · obtain ⟨e, hm⟩ := hL.held l hl'
      exact ⟨_, _, _, e, hsuf.mem hm⟩
  case once =>
    intro id vm rid p e id' vm' rid' p' e' hm hm' heq
    exact hL.once _ _ _ _ _ _ _ _ _ _ (leased_mem hm) (leased_mem hm') heq
  case named => exact fun id vm rid p e hm => hL.named id vm rid p e (leased_mem hm)
  case order =>
    intro id vm rid p e id' vm' p' e' hm hm' hne hid
    rcases hL.order _ _ _ _ _ _ _ _ _ (leased_mem hm) (leased_mem hm') hne hid with
      ⟨at_, cause, hp⟩ | ⟨at_, cause, hp⟩
    · exact .inl ⟨at_, cause, hp.mono hsuf⟩
    · exact .inr ⟨at_, cause, hp.mono hsuf⟩
  case asked =>
    intro id vm rid p e hm hne
    exact (hL.asked id vm rid p e (leased_mem hm) hne).mono hsuf
  case replied =>
    intro rid c hm
    rcases List.mem_cons.mp hm with heq | hm
    · subst heq
      obtain ⟨hn, p, e, hle, hs⟩ := hr rid c rfl
      exact ⟨hn, p, e, hsuf.mem hle, precedes_cons_self hs⟩
    · obtain ⟨hn, p, e, hle, hp⟩ := hL.replied rid c hm
      exact ⟨hn, p, e, hsuf.mem hle, hp.mono hsuf⟩

/-- The history goes on with a fact that neither creates nor ends a Lease. -/
theorem extend (hL : Ledger b h) {f : Fact} (hl : ∀ id vm rid p e, f ≠ .leased id vm rid p e)
    (he : ∀ id at_ cause, f ≠ .ended id at_ cause)
    (hr : ∀ rid c, f = .replied rid c → c.host.name ≠ "" ∧
      ∃ p e, Fact.leased c.leaseID c.vmUID rid p e ∈ h ∧ Fact.sent rid (.claimVM p rid) ∈ h) :
    Ledger b (f :: h) := by
  have gone_mem : ∀ {id}, Gone (f :: h) id → Gone h id := by
    intro id hgone
    obtain ⟨at_, cause, hm⟩ := hgone
    exact ⟨at_, cause, (List.mem_cons.mp hm).resolve_left fun heq => he _ _ _ heq.symm⟩
  exact hL.move hl rfl (fun l hl' => ⟨hl', fun hg => hL.live l hl' (gone_mem hg)⟩)
    (fun l hl' => .inr hl') (fun id hg => .inl (gone_mem hg)) hr

/-- A fact the ledger's rules do not speak about. -/
def Quiet : Fact → Prop
  | .leased _ _ _ _ _ => False
  | .ended _ _ _ => False
  | .replied _ _ => False
  | _ => True

/-- The history goes on with a fact the rules do not speak about. -/
theorem note (hL : Ledger b h) {f : Fact} (hf : Quiet f) : Ledger b (f :: h) := by
  refine hL.extend ?_ ?_ ?_
  · intro id vm rid p e he
    subst he
    exact hf
  · intro id at_ cause he
    subst he
    exact hf
  · intro rid c he
    subst he
    exact hf.elim

/-- A Lease battery holds ends. -/
theorem finish (hL : Ledger b h) {l0 : Lease} (hf : b.find id = some l0) (at_ : Time)
    (cause : Cause) : Ledger (b.remove id) (.ended id at_ cause :: h) := by
  have gone_cases : ∀ {id'}, Gone (.ended id at_ cause :: h) id' → id' = id ∨ Gone h id' := by
    intro id' hgone
    obtain ⟨at', cause', hm⟩ := hgone
    rcases List.mem_cons.mp hm with heq | hm
    · injection heq with hid
      exact .inl hid
    · exact .inr ⟨at', cause', hm⟩
  refine hL.move nofun rfl (fun l hl => ?_) (fun l hl => ?_) (fun id' hg => ?_) nofun
  · obtain ⟨hin, hne⟩ : l ∈ b.leases ∧ l.leaseID ≠ id := by simpa [Battery.remove] using hl
    exact ⟨hin, fun hg => (gone_cases hg).elim hne (hL.live l hin)⟩
  · by_cases hid : l.leaseID = id
    · subst hid
      exact .inl ⟨at_, cause, List.mem_cons_self⟩
    · exact .inr (by simpa [Battery.remove] using ⟨hl, hid⟩)
  · rcases gone_cases hg with rfl | hg
    · exact .inr ⟨l0, find_some hf⟩
    · exact .inl hg

/-- The Leases held change in nothing the ledger's rules speak about but their expiry, and that is
    a published one. -/
theorem change (hL : Ledger b h) (g : Lease → Lease)
    (hg : ∀ l, (g l).leaseID = l.leaseID ∧ (g l).vmUID = l.vmUID ∧
      (g l).requestID = l.requestID ∧ (g l).pool = l.pool ∧ (g l).host = l.host)
    (hexp : ∀ l ∈ b.leases, Published h l.leaseID (g l).expiresAt) :
    Ledger { b with leases := b.leases.map g } h := by
  refine { hL with held := ?held, current := ?current, live := ?live, kept := ?kept,
                   hosted := ?hosted, same := ?same, one := ?one, lost := ?lost }
  case held =>
    refine List.forall_mem_map.mpr fun l hl => ?_
    obtain ⟨hid, hvm, hrid, hp, _⟩ := hg l
    rw [hid, hvm, hrid, hp]
    exact hL.held l hl
  case current =>
    refine List.forall_mem_map.mpr fun l hl => ?_
    rw [(hg l).1]
    exact hexp l hl
  case live =>
    refine List.forall_mem_map.mpr fun l hl => ?_
    rw [(hg l).1]
    exact hL.live l hl
  case kept =>
    refine List.forall_mem_map.mpr fun l hl => ?_
    rw [(hg l).2.1]
    exact hL.kept l hl
  case hosted =>
    refine List.forall_mem_map.mpr fun l hl => ?_
    rw [(hg l).2.2.2.2]
    exact hL.hosted l hl
  case same =>
    intro l1 hl1 l2 hl2 heq
    obtain ⟨m1, hm1, rfl⟩ := List.mem_map.mp hl1
    obtain ⟨m2, hm2, rfl⟩ := List.mem_map.mp hl2
    rw [(hg m1).1, (hg m2).1] at heq
    rw [hL.same m1 hm1 m2 hm2 heq]
  case one =>
    intro l1 hl1 l2 hl2 heq hne
    obtain ⟨m1, hm1, rfl⟩ := List.mem_map.mp hl1
    obtain ⟨m2, hm2, rfl⟩ := List.mem_map.mp hl2
    rw [(hg m1).2.2.1] at heq hne
    rw [(hg m2).2.2.1] at heq
    rw [hL.one m1 hm1 m2 hm2 heq hne]
  case lost =>
    intro id vm rid p e hm
    rcases hL.lost id vm rid p e hm with hgone | ⟨l, hl, he⟩
    · exact .inl hgone
    · exact .inr ⟨g l, List.mem_map_of_mem hl, (hg l).1.trans he⟩

theorem isNew_spec (hn : b.isNew h id vm = true) :
    id ≠ "" ∧ vm ≠ "" ∧
      (∀ id' vm' rid p e, Fact.leased id' vm' rid p e ∈ h → id' ≠ id ∧ vm' ≠ vm) ∧
      ∀ ev ∈ b.outbox, reportsDeletion ev = true → ev.vmUID ≠ vm := by
  unfold Battery.isNew at hn
  simp only [Bool.and_eq_true, decide_eq_true_eq, List.all_eq_true] at hn
  obtain ⟨⟨⟨hid, hvm⟩, hall⟩, hout⟩ := hn
  refine ⟨hid, hvm, fun id' vm' rid p e hm => ?_, fun ev hev hr he => ?_⟩
  · simpa using hall _ hm
  · have := hout ev hev
    simp [hr, he] at this

/-- A new lease id is none that battery holds. -/
theorem not_held_of_new (hL : Ledger b h) (hn : b.isNew h id vm = true) :
    ∀ l ∈ b.leases, l.leaseID ≠ id := by
  intro l hl
  obtain ⟨e, hm⟩ := hL.held l hl
  exact ((isNew_spec hn).2.2.1 _ _ _ _ _ hm).1

/-- A new lease id is none that ended. -/
theorem not_gone_of_new (hL : Ledger b h) (hn : b.isNew h id vm = true) : ¬ Gone h id := by
  intro hg
  obtain ⟨vm', rid, p, e, hm⟩ := hL.created id hg
  exact ((isNew_spec hn).2.2.1 _ _ _ _ _ hm).1 rfl

/-- Where battery holds no Lease for a request id, every Lease created for it has ended. -/
theorem gone_of_byRequest_none (hL : Ledger b h) (hr : b.byRequest rid = none) (hne : rid ≠ "")
    (hm : Fact.leased id vm rid p e ∈ h) : Gone h id := by
  refine hL.gone_of_not_held hm fun l hl he => ?_
  obtain ⟨_, hrid, _⟩ := hL.held_as_leased hl hm he
  exact byRequest_none hr hne l hl hrid

/-- A Lease is created, for a request id that has none. -/
theorem grant (hL : Ledger b h) {now : Time} {pool : PoolRef} {host : HostRef}
    (hn : b.isNew h id vm = true) (hhost : host.name ≠ "") (hr : b.byRequest rid = none)
    (hs : rid ≠ "" → Fact.sent rid (.claimVM pool rid) ∈ h) :
    Ledger { b with leases := b.newLease now id vm rid pool host :: b.leases }
      (.leased id vm rid pool (now + b.threshold pool) :: h) := by
  obtain ⟨hid, hvm, hnew, hout⟩ := isNew_spec hn
  have hsuf : h <:+ Fact.leased id vm rid pool (now + b.threshold pool) :: h :=
    List.suffix_cons _ h
  have other : ∀ l ∈ b.leases, l.leaseID ≠ id := hL.not_held_of_new hn
  have gone_mem : ∀ {id'},
      Gone (Fact.leased id vm rid pool (now + b.threshold pool) :: h) id' → Gone h id' := by
    intro id' hgone
    obtain ⟨at_, cause, hm⟩ := hgone
    exact ⟨at_, cause, (List.mem_cons.mp hm).resolve_left nofun⟩
  constructor
  case held =>
    refine List.forall_mem_cons.mpr ⟨⟨_, List.mem_cons_self⟩, fun l hl => ?_⟩
    obtain ⟨e, hm⟩ := hL.held l hl
    exact ⟨e, hsuf.mem hm⟩
  case current =>
    refine List.forall_mem_cons.mpr ⟨.inl ⟨vm, rid, pool, List.mem_cons_self⟩, fun l hl => ?_⟩
    exact (hL.current l hl).mono hsuf
  case live =>
    refine List.forall_mem_cons.mpr ⟨fun hg => ?_, fun l hl hg => hL.live l hl (gone_mem hg)⟩
    exact hL.not_gone_of_new hn (gone_mem hg)
  case kept => exact List.forall_mem_cons.mpr ⟨hout, hL.kept⟩
  case hosted => exact List.forall_mem_cons.mpr ⟨hhost, hL.hosted⟩
  case same =>
    intro l hl l' hl' heq
    rcases List.mem_cons.mp hl with rfl | hl <;> rcases List.mem_cons.mp hl' with rfl | hl'
    · rfl
    · exact absurd heq.symm (other l' hl')
    · exact absurd heq (other l hl)
    · exact hL.same l hl l' hl' heq
  case one =>
    intro l hl l' hl' heq hne
    rcases List.mem_cons.mp hl with rfl | hl <;> rcases List.mem_cons.mp hl' with rfl | hl'
    · rfl
    · exact absurd heq.symm (byRequest_none hr hne l' hl')
    · have hne' : rid ≠ "" := fun hz => hne (heq.trans hz)
      exact absurd heq (byRequest_none hr hne' l hl)
    · exact hL.one l hl l' hl' heq hne
  case lost =>
    intro id' vm' rid' p' e' hm
    rcases List.mem_cons.mp hm with heq | hm
    · injection heq with hid'
      exact .inr ⟨_, List.mem_cons_self, hid'.symm⟩
    · rcases hL.lost _ _ _ _ _ hm with hg | ⟨l, hl, he⟩
      · exact .inl (hg.mono hsuf)
      · exact .inr ⟨l, List.mem_cons_of_mem _ hl, he⟩
  case created =>
    intro id' hg
    obtain ⟨vm', rid', p', e', hm⟩ := hL.created id' (gone_mem hg)
    exact ⟨vm', rid', p', e', hsuf.mem hm⟩
  case once =>
    intro i1 v1 r1 p1 e1 i2 v2 r2 p2 e2 hm1 hm2 heq
    rcases List.mem_cons.mp hm1 with h1 | h1 <;> rcases List.mem_cons.mp hm2 with h2 | h2
    · exact h1.trans h2.symm
    · cases h1
      exact absurd (heq.imp Eq.symm Eq.symm) (not_or.mpr (hnew _ _ _ _ _ h2))
    · cases h2
      exact absurd heq (not_or.mpr (hnew _ _ _ _ _ h1))
    · exact hL.once _ _ _ _ _ _ _ _ _ _ h1 h2 heq
  case named =>
    intro id' vm' rid' p' e' hm
    rcases List.mem_cons.mp hm with heq | hm
    · cases heq
      exact ⟨hid, hvm⟩
    · exact hL.named _ _ _ _ _ hm
  case order =>
    -- an older Lease of the request id ended before this one was created
    have ended : ∀ {id' vm' p' e'}, Fact.leased id' vm' rid p' e' ∈ h → rid ≠ "" →
        ∃ at_ cause, Precedes (Fact.ended id' at_ cause)
          (.leased id vm rid pool (now + b.threshold pool))
          (.leased id vm rid pool (now + b.threshold pool) :: h) := by
      intro id' vm' p' e' hm hne
      obtain ⟨at_, cause, hmem⟩ := hL.gone_of_byRequest_none hr hne hm
      exact ⟨at_, cause, precedes_cons_self hmem⟩
    intro i1 v1 r1 p1 e1 i2 v2 p2 e2 hm1 hm2 hne hid12
    rcases List.mem_cons.mp hm1 with h1 | h1 <;> rcases List.mem_cons.mp hm2 with h2 | h2
    · cases h1
      cases h2
      exact absurd rfl hid12
    · cases h1
      exact .inr (ended h2 hne)
    · cases h2
      exact .inl (ended h1 hne)
    · rcases hL.order _ _ _ _ _ _ _ _ _ h1 h2 hne hid12 with ⟨at_, cause, hp⟩ | ⟨at_, cause, hp⟩
      · exact .inl ⟨at_, cause, hp.mono hsuf⟩
      · exact .inr ⟨at_, cause, hp.mono hsuf⟩
  case asked =>
    intro id' vm' rid' p' e' hm hne
    rcases List.mem_cons.mp hm with heq | hm
    · cases heq
      exact precedes_cons_self (hs hne)
    · exact (hL.asked _ _ _ _ _ hm hne).mono hsuf
  case replied =>
    intro rid' c hm
    have hm' := (List.mem_cons.mp hm).resolve_left nofun
    obtain ⟨hn', p', e', hle, hp⟩ := hL.replied rid' c hm'
    exact ⟨hn', p', e', hsuf.mem hle, hp.mono hsuf⟩

/-- Battery answers a ClaimVM it was sent with a Lease it has for the request id. -/
theorem reply (hL : Ledger b h) (hl : l ∈ b.leases) (hrid : l.requestID = rid)
    (hs : Fact.sent rid (.claimVM l.pool rid) ∈ h) : Ledger b (.replied rid l.claim :: h) := by
  refine hL.extend nofun nofun fun rid' c heq => ?_
  cases heq
  obtain ⟨e, hle⟩ := hL.held l hl
  rw [hrid] at hle
  exact ⟨hL.hosted l hl, l.pool, e, hle, hs⟩

end Ledger

/-! ## 3. What an answer did -/

/-- **What an answer of battery did.** -/
inductive Battery.Answered (b : Battery) (now : Time) (h : List Fact) (s : Serve) :
    (c : Call) → Except BatteryError c.Answer → Battery → List Fact → Prop
  | refused (c : Call) (e : BatteryError) (may : b.mayRefuse c e = true) :
      Answered b now h s c (.error e) b h
  | granted (pool : PoolRef) (rid id vm : String) (host : HostRef)
      (unknown : b.byRequest rid = none) (new : b.isNew h id vm = true) (named : host.name ≠ "") :
      Answered b now h s (.claimVM pool rid) (.ok ⟨id, vm, host⟩)
        { b with leases := b.newLease now id vm rid pool host :: b.leases }
        (.replied rid ⟨id, vm, host⟩ :: .leased id vm rid pool (now + b.threshold pool) :: h)
  | replayed (pool : PoolRef) (rid : String) (l : Lease) (known : b.byRequest rid = some l)
      (carried : s = .carryOut) (same : l.pool = pool) :
      Answered b now h s (.claimVM pool rid) (.ok l.claim) b
        (.replied rid l.claim :: .replayed rid l.leaseID :: h)
  | renewed (id : String) (l : Lease) (found : b.find id = some l) :
      Answered b now h s (.heartbeat id) (.ok (now + b.threshold l.pool))
        (b.update id fun m =>
          { m with lastHeartbeatAt := now, expiresAt := now + b.threshold l.pool })
        (.renewed id (now + b.threshold l.pool) :: h)
  | released (id : String) (l : Lease) (found : b.find id = some l) :
      Answered b now h s (.releaseVM id) (.ok ()) (b.remove id) (.ended id now .released :: h)
  | marked (id text : String) :
      Answered b now h s (.releaseVM id) (.error ⟨.unavailable, text⟩)
        (b.update id fun l => { l with deleting := true }) h
  | listed (pool : Option PoolRef) (leases : List LeaseRecord)
      (all : ∀ rec, rec ∈ leases ↔ ∃ l ∈ b.leases, l.toLeaseRecord = rec ∧
        (pool = none ∨ pool = some l.pool)) :
      Answered b now h s (.listLeases pool) (.ok leases) b h

theorem Battery.serve_cases {b b' : Battery} {now : Time} {h h' : List Fact} {c : Call} {s : Serve}
    {r : Except BatteryError c.Answer} (hs : b.serve now h c s = some (r, b', h')) :
    b.Answered now h s c r b' h' := by
  cases s with
  | refuse e =>
    obtain ⟨hm, hs⟩ := Option.ite_none_right_eq_some.mp hs
    cases hs
    exact .refused c e hm
  | grant id vm host =>
    cases c with
    | claimVM pool rid =>
      obtain ⟨hc, hs⟩ := Option.ite_none_right_eq_some.mp hs
      cases hs
      exact .granted pool rid id vm host hc.1 hc.2.1 hc.2.2
    | heartbeat | releaseVM | listLeases => cases hs
  | unconfirmed text =>
    cases c with
    | releaseVM id =>
      simp only [Battery.serve] at hs
      split at hs
      · cases hs
      · cases hs
        exact .marked id text
    | claimVM | heartbeat | listLeases => cases hs
  | carryOut =>
    cases c with
    | claimVM pool rid =>
      simp only [Battery.serve] at hs
      split at hs
      · cases hs
      next l hl =>
        obtain ⟨hc, hs⟩ := Option.ite_none_right_eq_some.mp hs
        cases hs
        exact .replayed pool rid l hl rfl hc.1
    | heartbeat id =>
      simp only [Battery.serve] at hs
      split at hs
      · cases hs
      next l hl =>
        cases hs
        exact .renewed id l hl
    | releaseVM id =>
      simp only [Battery.serve] at hs
      split at hs
      · cases hs
      next l hl =>
        cases hs
        exact .released id l hl
    | listLeases pool =>
      cases hs
      refine .listed pool _ fun rec => ?_
      cases pool with
      | none => simp
      | some p =>
        simp only [List.mem_map, List.mem_filter, decide_eq_true_eq, reduceCtorEq, false_or,
          Option.some.injEq]
        constructor
        · rintro ⟨l, ⟨hl, hp⟩, hrec⟩
          exact ⟨l, hl, hrec, hp.symm⟩
        · rintro ⟨l, hl, hrec, hp⟩
          exact ⟨l, ⟨hl, hp.symm⟩, hrec⟩

/-- A NOT_FOUND is for a Lease that is not held. -/
theorem Battery.find_of_mayRefuse {b : Battery} {e : BatteryError} {id : String}
    (hk : e.kind = .notFound) (may : b.mayRefuse (.heartbeat id) e = true) : b.find id = none := by
  simpa [Battery.mayRefuse, answered, hk] using may

/-- **What an action of battery does.** -/
inductive Battery.Acted (b : Battery) (now : Time) (h : List Fact) (a : BatteryAct) :
    Battery → List Fact → Prop
  | leased (id vm : String) (pool : PoolRef) (host : HostRef) (new : b.isNew h id vm = true)
      (named : host.name ≠ "") :
      Acted b now h a { b with leases := b.newLease now id vm "" pool host :: b.leases }
        (.leased id vm "" pool (now + b.threshold pool) :: h)
  | ended (id : String) (l : Lease) (cause : Cause) (found : b.find id = some l)
      (why : (cause = .swept ∧ l.expiresAt ≤ now) ∨ (cause = .released ∧ l.deleting = true) ∨
        (cause = .dropped ∧ a = .drop id)) :
      Acted b now h a (b.remove id) (.ended id now cause :: h)
  | threshold (pool : PoolRef) (d : Duration) (act : a = .setThreshold pool d) :
      Acted b now h a { b with threshold := fun p => if p = pool then d else b.threshold p } h
  | emitted (ev : BatteryEvent)
      (unleased : reportsDeletion ev = true → ∀ l ∈ b.leases, l.vmUID ≠ ev.vmUID) :
      Acted b now h a { b with outbox := ev :: b.outbox } h

theorem Battery.act_cases {b b' : Battery} {now : Time} {h h' : List Fact} {a : BatteryAct}
    (ha : b.act now h a = some (b', h')) : b.Acted now h a b' h' := by
  cases a with
  | lease id vm pool host =>
    obtain ⟨hc, ha⟩ := Option.ite_none_right_eq_some.mp ha
    cases ha
    exact .leased id vm pool host hc.1 hc.2
  | sweep id =>
    simp only [Battery.act] at ha
    split at ha
    next l hf =>
      obtain ⟨hle, ha⟩ := Option.ite_none_right_eq_some.mp ha
      cases ha
      exact .ended id l .swept hf (.inl ⟨rfl, hle⟩)
    · cases ha
  | finishRelease id =>
    simp only [Battery.act] at ha
    split at ha
    next l hf =>
      obtain ⟨hd, ha⟩ := Option.ite_none_right_eq_some.mp ha
      cases ha
      exact .ended id l .released hf (.inr (.inl ⟨rfl, hd⟩))
    · cases ha
  | drop id =>
    simp only [Battery.act] at ha
    split at ha
    next l hf =>
      cases ha
      exact .ended id l .dropped hf (.inr (.inr ⟨rfl, rfl⟩))
    · cases ha
  | setThreshold pool d =>
    cases ha
    exact .threshold pool d rfl
  | emit ev =>
    obtain ⟨hc, ha⟩ := Option.ite_none_left_eq_some.mp ha
    cases ha
    exact .emitted ev fun hr l hl he => hc ⟨hr, l, hl, he⟩

/-! ## 4. Battery keeps the ledger -/

namespace Ledger

variable {b b' : Battery} {now : Time} {h h' : List Fact}

theorem renew (hL : Ledger b h) (id : String) (e : Time) :
    Ledger (b.update id fun l => { l with lastHeartbeatAt := now, expiresAt := e })
      (.renewed id e :: h) := by
  have hn : Ledger b (.renewed id e :: h) := hL.note trivial
  refine hn.change _ (fun l => ?_) fun l hl => ?_
  · split
    · exact ⟨rfl, rfl, rfl, rfl, rfl⟩
    · exact ⟨rfl, rfl, rfl, rfl, rfl⟩
  · split
    next he =>
      rw [he]
      exact .inr List.mem_cons_self
    · exact hn.current l hl

theorem mark (hL : Ledger b h) (id : String) :
    Ledger (b.update id fun l => { l with deleting := true }) h := by
  refine hL.change _ (fun l => ?_) fun l hl => ?_
  · split
    · exact ⟨rfl, rfl, rfl, rfl, rfl⟩
    · exact ⟨rfl, rfl, rfl, rfl, rfl⟩
  · split
    · exact hL.current l hl
    · exact hL.current l hl

/-- **An answer keeps the ledger**, to a ClaimVM that was sent. -/
theorem serve (hL : Ledger b h) {c : Call} {s : Serve} {r : Except BatteryError c.Answer}
    (hsent : ∀ pool rid, c = .claimVM pool rid → rid ≠ "" ∧ Fact.sent rid c ∈ h)
    (hs : b.serve now h c s = some (r, b', h')) : Ledger b' h' := by
  cases Battery.serve_cases hs with
  | refused | listed => exact hL
  | granted pool rid id vm host unknown new named =>
    obtain ⟨hne, hm⟩ := hsent pool rid rfl
    have hg : Ledger { b with leases := b.newLease now id vm rid pool host :: b.leases }
        (.leased id vm rid pool (now + b.threshold pool) :: h) :=
      hL.grant new named unknown fun _ => hm
    have hl : b.newLease now id vm rid pool host ∈
        b.newLease now id vm rid pool host :: b.leases := List.mem_cons_self
    exact hg.reply hl rfl (List.mem_cons_of_mem _ hm)
  | replayed pool rid l known _ same =>
    obtain ⟨hne, hm⟩ := hsent pool rid rfl
    obtain ⟨hmem, hrid, _⟩ := byRequest_some known
    have hn : Ledger b (.replayed rid l.leaseID :: h) := hL.note trivial
    rw [← same] at hm
    exact hn.reply hmem hrid (List.mem_cons_of_mem _ hm)
  | renewed id => exact hL.renew id _
  | marked id => exact hL.mark id
  | released id l found => exact hL.finish found now .released

/-- **An action of battery keeps the ledger.** -/
theorem act (hL : Ledger b h) {a : BatteryAct} (ha : b.act now h a = some (b', h')) :
    Ledger b' h' := by
  cases Battery.act_cases ha with
  | leased id vm pool host new named => exact hL.grant new named rfl fun hne => absurd rfl hne
  | ended id l cause found => exact hL.finish found now cause
  | threshold pool d => exact { hL with }
  | emitted ev unleased =>
    refine { hL with kept := fun l hl ev' hev hr => ?_ }
    rcases List.mem_cons.mp hev with rfl | hev
    · exact fun he => unleased hr l hl he.symm
    · exact hL.kept l hl ev' hev hr

end Ledger

end BatteryOperator
