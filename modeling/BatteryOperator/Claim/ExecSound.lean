/-
  Subject:   An operation of a thread that meets its duty keeps the invariant and meets every other
             thread's rely.

  * `Battery.serve_frame` -- what an answer of battery leaves of the history and the Leases;
  * `exec_cases` -- **what an operation does to the shared state**, said once;
  * `exec_inv`, `exec_rely` -- **the results**.
-/
import BatteryOperator.Claim.WriteSound

namespace BatteryOperator

open Lib

variable {s s' : Shared} {k : ObjectKey}

/-! ## 1. Answers of battery -/

namespace Battery

/-- The facts battery's answers add. -/
def OwnFact : Fact → Prop
  | .leased .. => True
  | .replayed .. => True
  | .replied .. => True
  | .renewed .. => True
  | .ended .. => True
  | _ => False

/-- What an answer of battery leaves: facts of its own in the history, a Lease only from a ClaimVM,
    under its request id, and an expiry moved only by a Heartbeat. -/
structure ServeFrame (c : Call) (b : Battery) (h : List Fact) (b' : Battery) (h' : List Fact) :
    Prop where
  suffix : h <:+ h'
  outbox : b'.outbox = b.outbox
  facts : ∀ f ∈ h', f ∈ h ∨ OwnFact f
  leased : ∀ id vm rid p e, Fact.leased id vm rid p e ∈ h' →
    Fact.leased id vm rid p e ∈ h ∨ c = .claimVM p rid
  leases : ∀ l' ∈ b'.leases,
    (∃ l ∈ b.leases, l.leaseID = l'.leaseID ∧ l.requestID = l'.requestID ∧
      l.expiresAt = l'.expiresAt) ∨
    (∃ pool, c = .claimVM pool l'.requestID) ∨
    (c = .heartbeat l'.leaseID ∧ ∃ l ∈ b.leases, l.leaseID = l'.leaseID ∧
      l.requestID = l'.requestID)

variable {b b' : Battery} {h h' : List Fact} {c : Call}

theorem ServeFrame.same (ho : b'.outbox = b.outbox) (hl : b'.leases ⊆ b.leases) :
    ServeFrame c b h b' h where
  suffix := List.suffix_refl _
  outbox := ho
  facts _ hf := .inl hf
  leased _ _ _ _ _ hm := .inl hm
  leases l hm := .inl ⟨l, hl hm, rfl, rfl, rfl⟩

theorem ServeFrame.note {f : Fact} (hs : ServeFrame c b h b' h') (hf : OwnFact f)
    (hl : ∀ id vm rid p e, .leased id vm rid p e = f → c = .claimVM p rid) :
    ServeFrame c b h b' (f :: h') :=
  { hs with
    suffix := hs.suffix.trans (List.suffix_cons _ _)
    facts g hg := by
      rcases List.mem_cons.mp hg with rfl | hg
      · exact .inr hf
      · exact hs.facts g hg
    leased id vm rid p e hm := by
      rcases List.mem_cons.mp hm with heq | hm
      · exact .inr (hl id vm rid p e heq)
      · exact hs.leased id vm rid p e hm }

/-- **An answer of battery.** -/
theorem serve_frame {now : Time} {sv : Serve} {r : Except BatteryError c.Answer}
    (hs : b.serve now h c sv = some (r, b', h')) : ServeFrame c b h b' h' := by
  have same : ServeFrame c b h b h := .same rfl (List.Subset.refl _)
  cases Battery.serve_cases hs with
  | refused | listed => exact same
  | granted pool rid =>
    refine .note (.note { same with leases := fun l' hl' => ?_ } trivial ?_) trivial nofun
    · rcases List.mem_cons.mp hl' with rfl | hl'
      · exact .inr (.inl ⟨pool, rfl⟩)
      · exact same.leases l' hl'
    · intro id' vm' rid' p' e' heq
      cases heq
      rfl
  | replayed => exact .note (.note same trivial nofun) trivial nofun
  | renewed id =>
    refine .note { same with leases := fun l' hl' => ?_ } trivial nofun
    obtain ⟨m, hm, rfl⟩ := List.mem_map.mp hl'
    split
    next he => exact .inr (.inr ⟨by rw [← he], m, hm, rfl, rfl⟩)
    · exact same.leases m hm
  | marked id =>
    refine { same with leases := fun l' hl' => ?_ }
    obtain ⟨m, hm, rfl⟩ := List.mem_map.mp hl'
    split
    · exact .inl ⟨m, hm, rfl, rfl, rfl⟩
    · exact same.leases m hm
  | released => exact .note (.same rfl List.filter_sublist.subset) trivial nofun

end Battery

/-! ## 2. What an operation does -/

variable {f : Choice} {t : Thread} {call : Call} {uid : String}
  {r : Except BatteryError call.Answer}

theorem execRead_state {α : Type} {value : Except ApiError α} {r : Except ApiError α}
    (hx : execRead value s f = some (r, s')) : s' = s := by
  unfold execRead at hx
  split at hx
  · cases hx
    rfl
  · cases hx
    rfl
  · cases hx

theorem execWrite_state {written : Except ApiError MicroVMClaim × Shared}
    {r : Except ApiError MicroVMClaim} (hx : execWrite written s f = some (r, s')) :
    s' = s ∨ s' = written.2 := by
  unfold execWrite at hx
  split at hx
  · cases hx
    exact .inr rfl
  · cases hx
    exact .inr rfl
  · cases hx
    exact .inl rfl
  · cases hx

/-- **How a call ends**: it never reached battery, or battery served it and its answer arrived or
    was dropped. -/
inductive Received (t : Thread) (call : Call) (s : Shared) :
    Choice → Except BatteryError call.Answer → Shared → Prop
  | lost (e : BatteryError) (ha : answered (some e) = false) :
      Received t call s (.lost e) (.error e) (settleBinding t s call (.error e))
  | served (sv : Serve) (r : Except BatteryError call.Answer) (b : Battery) (h : List Fact)
      (hs : s.battery.serve s.now s.history call sv = some (r, b, h)) :
      Received t call s (.serve sv none) r
        (settleBinding t { s with battery := b, history := h } call r)
  | dropped (sv : Serve) (r : Except BatteryError call.Answer) (b : Battery) (h : List Fact)
      (hs : s.battery.serve s.now s.history call sv = some (r, b, h)) (e : BatteryError)
      (ha : answered (some e) = false) :
      Received t call s (.serve sv (some e)) (.error e)
        (settleBinding t { s with battery := b, history := h } call (.error e))

theorem execReceive_cases (hx : execReceive t call s f = some (r, s')) :
    Received t call s f r s' := by
  unfold execReceive at hx
  split at hx
  next e =>
    obtain ⟨ha, hx⟩ := Option.ite_none_left_eq_some.mp hx
    cases hx
    exact .lost e (by simpa using ha)
  next sv lost =>
    split at hx
    · cases hx
    next r0 b h hs =>
      split at hx
      · cases hx
      next r1 har =>
        cases hx
        cases lost with
        | none =>
          cases har
          exact .served sv r b h hs
        | some e =>
          obtain ⟨ha, har⟩ := Option.ite_none_left_eq_some.mp har
          cases har
          exact .dropped sv r0 b h hs e (by simpa using ha)
  · cases hx

/-- **What an operation does to the shared state**, whatever it answers. -/
inductive Executed (t : Thread) (f : Choice) (s : Shared) : Op → Shared → Prop
  /-- A read, or one more or one fewer slot taken. -/
  | idle (o : Op) (n : Nat) : Executed t f s o { s with slots := n }
  | sent (uid : String) (call : Call) : Executed t f s (.send uid call) (execSend t uid call s)
  | received (uid : String) (call : Call) (r : Except BatteryError call.Answer) (s' : Shared)
      (hx : execReceive t call s f = some (r, s')) : Executed t f s (.receive uid call) s'
  | lookedUp (id : String) :
      Executed t f s (.lookup id) { s with recovered := (s.recovered.lookup id).2 }
  | recorded (ids : List String) (listed : List LeaseRecord) :
      Executed t f s (.record ids listed) { s with recovered := RecoveredLeases.record ids listed }
  | logged (uid id : String) (why : Why) :
      Executed t f s (.logExpired uid id why) (s.note (.expired uid id why))
  | patchedMeta (original object : MicroVMClaim) (s' : Shared)
      (h : s' = s ∨ s' = (s.patchMeta original object).2) :
      Executed t f s (.patchMeta original object) s'
  | patchedStatus (base object : MicroVMClaim) (s' : Shared)
      (h : s' = s ∨ s' = (s.patchStatus base object).2) :
      Executed t f s (.patchStatus base object) (t.setBinding s' none)

theorem exec_cases {o : Op} {r : o.Ans} (hx : exec t f o s = some (r, s')) :
    Executed t f s o s' := by
  have read : s' = s → Executed t f s o s' := by
    intro he
    subst he
    exact .idle o s'.slots
  cases o with
  | cacheGet | apiGet | poolGet | nodeGet | cacheList => exact read (execRead_state hx)
  | now | deletedHas =>
    cases hx
    exact read rfl
  | tryAcquire n =>
    simp only [exec] at hx
    split at hx
    · cases hx
      exact .idle _ _
    · cases hx
      exact read rfl
  | releaseSlot =>
    cases hx
    exact .idle _ _
  | send uid call =>
    cases hx
    exact .sent uid call
  | receive uid call => exact .received uid call r s' hx
  | lookup id =>
    cases hx
    exact .lookedUp id
  | record ids listed =>
    cases hx
    exact .recorded ids listed
  | logExpired uid id why =>
    cases hx
    exact .logged uid id why
  | patchMeta original object => exact .patchedMeta original object s' (execWrite_state hx)
  | patchStatus base object =>
    obtain ⟨⟨r', s1⟩, hw, heq⟩ := Option.map_eq_some_iff.mp hx
    cases heq
    exact .patchedStatus base object s1 (execWrite_state hw)

/-- The operations that leave a reconcile, its own included, nothing it does not rely on. -/
def Op.calm : Op → Bool
  | .send _ (.claimVM _ _) => false
  | .receive _ (.listLeases _) => true
  | .receive _ _ => false
  | .patchMeta _ _ => false
  | .patchStatus _ _ => false
  | _ => true

/-- The end of a ListLeases changes nothing. -/
theorem receive_listLeases {pool : Option PoolRef}
    {r : Except BatteryError (Call.listLeases pool).Answer}
    (hx : execReceive t (.listLeases pool) s f = some (r, s')) : s' = s := by
  cases execReceive_cases hx with
  | lost => rfl
  | served _ _ _ _ hs | dropped _ _ _ _ hs => cases Battery.serve_cases hs <;> rfl

theorem rely_calm (u : Thread) {o : Op} {r : o.Ans} (hc : o.calm = true)
    (hx : exec t f o s = some (r, s')) : Rely u s s' := by
  cases exec_cases hx with
  | idle | lookedUp | recorded => exact Rely.same rfl rfl rfl (Int.le_refl _) rfl rfl
  | sent uid call =>
    cases call with
    | claimVM pool rid => cases hc
    | heartbeat | releaseVM | listLeases => exact Rely.note nofun
  | received uid call _ _ hcall =>
    cases call with
    | claimVM | heartbeat | releaseVM => cases hc
    | listLeases pool =>
      rw [receive_listLeases hcall]
      exact Rely.refl u s
  | logged uid id why => exact Rely.note nofun
  | patchedMeta | patchedStatus => cases hc

/-! ## 3. Calls -/

section Calls

variable (hI : Inv s)
include hI

/-- The claim a ClaimVM is owed for has no Lease in any version. -/
theorem Awaiting.unrecorded {pool : PoolRef} (ha : Awaiting s k uid pool) :
    ¬ ∃ k' v, Version s.claims k' v ∧ v.status.leaseID ≠ "" ∧ v.uid = uid := by
  intro hrecorded
  obtain ⟨k', v, hv, hne, hu⟩ := hrecorded
  obtain ⟨st, hst, hstu, _, he, _⟩ := ha
  have hver := Inv.stored_version hst
  have hk : k' = k := hI.store.same_key hv hver (hu.trans hstu.symm)
  subst hk
  have hkeeps := hI.store.keeps hst hv (hu.trans hstu.symm)
  rw [(hkeeps.lease hne).1] at he
  exact hne he

theorem Awaiting.created {pool : PoolRef} (ha : Awaiting s k uid pool) :
    Fact.created k uid ∈ s.history := by
  obtain ⟨st, hst, rfl, _⟩ := ha
  exact hI.store.created k st (Inv.stored_version hst)

/-- A Lease battery holds for a recorded lease id was created for the claim that records it. -/
theorem Inv.held_requestID {v : MicroVMClaim} (hv : Version s.claims k v)
    (hne : v.status.leaseID ≠ "") {l : Lease} (hl : l ∈ s.battery.leases)
    (hid : l.leaseID = v.status.leaseID) : l.requestID = v.uid := by
  obtain ⟨c, e, _, hleased, heq, _⟩ := ((hI.store.ok k v hv).recorded hne).answered
  obtain ⟨_, hrid, _⟩ := hI.ledger.held_as_leased hl hleased (hid.trans heq)
  exact hrid

/-- A call leaves. -/
theorem inv_send (hc : CallOk s k uid call) : Inv (execSend (.claim k) uid call s) := by
  have sent : ∀ {s1 : Shared}, Inv s1 → Inv (s1.note (.sent uid call)) := fun hI1 =>
    hI1.note trivial nofun nofun
  cases call with
  | claimVM pool rid =>
    obtain ⟨rfl, st, hst, hu, hr, he, _⟩ := hc
    refine sent (hI.setBinding fun b' hb' => ?_)
    cases hb'
    exact ⟨st, hst, hu, hr, he⟩
  | heartbeat | releaseVM | listLeases => exact sent hI

/-- Battery serves a call. -/
theorem inv_serve (hc : CallOk s k uid call) (hsent : Fact.sent uid call ∈ s.history) {sv : Serve}
    {b : Battery} {h : List Fact} (hs : s.battery.serve s.now s.history call sv = some (r, b, h)) :
    Inv { s with battery := b, history := h } := by
  obtain ⟨hle, hout, hfact, hleased, _⟩ := Battery.serve_frame hs
  have hL : Ledger b h := by
    refine hI.ledger.serve (fun pool rid heq => ?_) hs
    subst heq
    obtain ⟨rfl, ha⟩ := hc
    exact ⟨hI.store.named k rid (ha.created hI), hsent⟩
  refine hI.extend hL hle (fun ev hev => by rw [hout]; exact hev) ?_ ?_ ?_
  · intro k' uid' hm
    exact (hfact _ hm).resolve_right id
  · intro uid' leaseID why hm _
    exact .inl ((hfact _ hm).resolve_right id)
  · intro id vm uid' p e hm hrec
    rcases hleased id vm uid' p e hm with hold | heq
    · exact hold
    · subst heq
      obtain ⟨rfl, ha⟩ := hc
      exact absurd hrec (ha.unrecorded hI)

/-- A call ends. -/
theorem inv_receive (hc : CallOk s k uid call) (hsent : Fact.sent uid call ∈ s.history)
    (hx : execReceive (.claim k) call s f = some (r, s')) : Inv s' := by
  -- whatever battery did, the claims are as they were when the call ended
  have settle : ∀ {s1 : Shared}, Inv s1 → s1.claims = s.claims →
      Inv (settleBinding (.claim k) s1 call r) := by
    intro s1 hI1 hcl
    cases call with
    | claimVM pool rid =>
      obtain ⟨rfl, st, hst, hu, hr, he, _⟩ := hc
      cases r with
      | error e => exact hI1.setBinding fun b' hb' => by cases hb'
      | ok claimed =>
        refine hI1.setBinding fun b' hb' => ?_
        cases hb'
        refine ⟨st, ?_, hu, hr, he⟩
        unfold Shared.stored
        rw [hcl]
        exact hst
    | heartbeat | releaseVM | listLeases => exact hI1
  cases execReceive_cases hx with
  | lost => exact settle hI rfl
  | served _ _ _ _ hs | dropped _ _ _ _ hs => exact settle (inv_serve hI hc hsent hs) rfl

/-! ## 4. The Operator's memory -/

theorem inv_lookup (id : String) : Inv { s with recovered := (s.recovered.lookup id).2 } := by
  have hl : s.recovered.lookup id = ((s.recovered.lookup id).1, (s.recovered.lookup id).2) := rfl
  have hmem := (RecoveredLeases.lookup_mem hl).2
  refine { hI with memory := ⟨hI.memory.deleted, ?_, ?_⟩ }
  · exact fun id' hm => hI.memory.unlisted id' (hmem _ hm)
  · exact fun id' rec hm => hI.memory.listed id' rec (hmem _ hm)

theorem inv_record {recorded : List String} {listed : List LeaseRecord}
    (hr : RecordOk s.history recorded listed) :
    Inv { s with recovered := RecoveredLeases.record recorded listed } := by
  refine { hI with memory := ⟨hI.memory.deleted, ?_, ?_⟩ }
  · intro id hm
    obtain ⟨hid, heq⟩ := RecoveredLeases.mem_record hm
    exact (hr id hid).1 heq.symm
  · intro id rec hm
    obtain ⟨hid, heq⟩ := RecoveredLeases.mem_record hm
    exact (hr id hid).2 rec heq.symm

end Calls

/-! ## 5. The results -/

/-- **An operation under its duty keeps the invariant.** -/
theorem exec_inv (t : Thread) (f : Choice) (o : Op) (s : Shared) (r : o.Ans) (s' : Shared)
    (hI : Inv s) (hpre : Pre t o s) (hx : exec t f o s = some (r, s')) : Inv s' := by
  cases exec_cases hx with
  | idle _ n => exact { hI with }
  | sent uid call =>
    cases t with
    | claim k => exact inv_send hI hpre.1
    | recovery =>
      obtain ⟨pool, rfl⟩ := hpre
      exact hI.note trivial nofun nofun
  | received uid call _ _ hcall =>
    cases t with
    | claim k => exact inv_receive hI hpre.1 hpre.2.1 hcall
    | recovery =>
      obtain ⟨pool, rfl⟩ := hpre
      rw [receive_listLeases hcall]
      exact hI
  | lookedUp id => exact inv_lookup hI id
  | recorded ids listed =>
    have hr : RecordOk s.history ids listed := by
      cases t with
      | claim | recovery => exact hpre
    exact inv_record hI hr
  | logged uid id why =>
    have hl : LogOk s uid id why := by
      cases t with
      | claim | recovery => exact hpre
    refine hI.note trivial nofun fun uid' id' why' heq => ?_
    cases heq
    exact hl
  | patchedMeta original object _ h =>
    cases t with
    | claim k =>
      rcases h with rfl | rfl
      · exact hI
      · exact inv_patchMeta hI hpre
    | recovery => exact hpre.elim
  | patchedStatus base object s1 h =>
    cases t with
    | claim k =>
      rcases h with rfl | rfl
      · exact hI.setBinding nofun
      · exact inv_patchStatus hI hpre
    | recovery => exact hpre.elim

/-- A claim's ClaimVM is another reconcile's to settle. -/
theorem binding_setBinding {k' : ObjectKey} (hk : k' ≠ k) (s : Shared) (b : Option Binding) :
    (s.setBinding k b).binding k' = s.binding k' := Function.update_of_ne hk ..

theorem rely_setBinding (hne : Thread.claim k ≠ t) (s : Shared) (b : Option Binding) :
    Rely t s (s.setBinding k b) := by
  refine Rely.frame rfl rfl (List.suffix_refl _) (Int.le_refl _) fun k' hk => ⟨?_, ?_, ?_⟩
  · refine binding_setBinding (fun heq => hne ?_) s b
    rw [hk, heq]
  · exact fun l hl _ => ⟨l, hl, rfl, rfl, rfl⟩
  · exact fun _ _ _ _ _ _ hm => hm

/-- Battery serves a call for another claim. -/
theorem rely_serve (hne : Thread.claim k ≠ t) (hI : Inv s) (hc : CallOk s k uid call) {sv : Serve}
    {b : Battery} {h : List Fact} (hs : s.battery.serve s.now s.history call sv = some (r, b, h)) :
    Rely t s { s with battery := b, history := h } := by
  obtain ⟨hle, _, _, hleased, hleases⟩ := Battery.serve_frame hs
  -- a uid created under the other claim's key is not this one's
  have other : ∀ k' uid', t = .claim k' → Fact.created k' uid' ∈ s.history →
      Fact.created k uid' ∉ s.history := by
    intro k' uid' hk hc1 hc2
    rw [hI.store.once k' k uid' hc1 hc2] at hk
    exact hne hk.symm
  refine Rely.frame rfl rfl hle (Int.le_refl _) fun k' hk => ⟨rfl, fun l' hl' hcr => ?_, ?_⟩
  · rcases hleases l' hl' with hold | ⟨pool, heq⟩ | ⟨heq, l, hl, hid, hrid⟩
    · exact hold
    · subst heq
      obtain ⟨rfl, ha⟩ := hc
      exact absurd (ha.created hI) (other k' _ hk hcr)
    · subst heq
      obtain ⟨v, hv, _, hvid, hn, _⟩ := hc
      have hreq := hI.held_requestID hv (by rw [hvid]; exact hn) hl (hid.trans hvid.symm)
      have hcv := hI.store.created k v hv
      rw [← hreq, hrid] at hcv
      exact absurd hcv (other k' _ hk hcr)
  · intro id vm uid' p e hcr hm
    rcases hleased id vm uid' p e hm with hold | heq
    · exact hold
    · subst heq
      obtain ⟨rfl, ha⟩ := hc
      exact absurd (ha.created hI) (other k' _ hk hcr)

/-- A new version of another claim. -/
theorem rely_other (hne : Thread.claim k ≠ t) {c : Option MicroVMClaim}
    (hrv : ∀ v, c = some v → v.resourceVersion = s.revision + 1) : Rely t s (s.store k c) :=
  Rely.store hrv fun hk => absurd hk.symm hne

/-- **An operation under its duty meets every other thread's rely.** -/
theorem exec_rely (t u : Thread) (f : Choice) (o : Op) (s : Shared) (r : o.Ans) (s' : Shared)
    (hne : u ≠ t) (hI : Inv s) (hpre : Pre u o s) (hx : exec u f o s = some (r, s')) :
    Rely t s s' := by
  by_cases hc : o.calm = true
  · exact rely_calm t hc hx
  cases exec_cases hx with
  | idle _ n => exact Rely.same rfl rfl rfl (Int.le_refl _) rfl rfl
  | sent uid call =>
    cases u with
    | claim k =>
      cases call with
      | claimVM pool rid =>
        exact (rely_setBinding hne s _).trans (Rely.note fun _ _ _ _ _ heq => by cases heq)
      | _ => exact absurd rfl hc
    | recovery =>
      obtain ⟨pool, rfl⟩ := hpre
      exact absurd rfl hc
  | received uid call x _ hcall =>
    cases u with
    | claim k =>
      have settle : ∀ s1, Rely t s1 (settleBinding (.claim k) s1 call x) := by
        intro s1
        cases call with
        | claimVM pool rid =>
          cases x with
          | ok | error => exact rely_setBinding hne s1 _
        | heartbeat | releaseVM | listLeases => exact Rely.refl t s1
      cases execReceive_cases hcall with
      | lost => exact settle s
      | served _ _ _ _ hs | dropped _ _ _ _ hs =>
        exact (rely_serve hne hI hpre.1 hs).trans (settle _)
    | recovery =>
      obtain ⟨pool, rfl⟩ := hpre
      exact absurd rfl hc
  | lookedUp | recorded | logged => exact absurd rfl hc
  | patchedMeta original object _ h =>
    cases u with
    | claim k =>
      have hkey : original.key = k := hI.store.key k original hpre.version
      rcases h with rfl | rfl
      · exact Rely.refl t s'
      · rcases patchMeta_cases s original object with ⟨e, he⟩ | ⟨st, _, _, ⟨_, hp⟩ | ⟨_, hp⟩⟩
        · rw [he]
          exact Rely.refl t s
        · rw [hp, hkey]
          exact rely_other hne fun v hv => by cases hv
        · rw [hp, hkey]
          refine rely_other hne fun v hv => ?_
          cases hv
          rfl
    | recovery => exact hpre.elim
  | patchedStatus base object s1 h =>
    cases u with
    | claim k =>
      have hkey : base.key = k := hI.store.key k base hpre.version
      refine Rely.trans ?_ (rely_setBinding hne _ none)
      rcases h with rfl | rfl
      · exact Rely.refl t s1
      · rcases patchStatus_cases s base object with ⟨e, he⟩ | ⟨st, _, hp⟩
        · rw [he]
          exact Rely.refl t s
        · rw [hp, hkey]
          refine rely_other hne fun v hv => ?_
          cases hv
          rfl
    | recovery => exact hpre.elim

end BatteryOperator
