/-
  Subject:   A held claim is reported lost only when someone else took it.

  * `getClaim_seen`, `patchRenew_seen` -- **what a read says of a claim this Client has not
    deleted**: if it is gone, replaced or marked, someone else took it;
  * `lost_sound` -- every thread calls `lose` only then. The hold loop reads while it runs, and
    `Release` deletes after it has returned; `Dial` is ordered with neither.
-/
import BatteryOperator.ClaimClient.Lost

namespace BatteryOperator.ClaimClient.Lost

open Lib ExecAgent Machine Prog

variable {payload : Payload}

/-- The machine of the steps that meet the condition. -/
abbrev lostMachine (payload : Payload) :
    Machine Thread Choice ClientAct ClientOp ClientOp.Ans State :=
  (machine payload).restrict okExec okEnv

/-- What a program of thread `t` needs to end in `Q`. -/
abbrev LostWp (payload : Payload) (t : Thread) {α : Type}
    (p : ClientCode α) (Q : α → State → Prop) (s : State) : Prop :=
  wp (lostMachine payload) lostSpec t p Q s

/-- Nothing is owed at the end of a thread. -/
abbrev Done {α : Type} (_ : α) (_ : State) : Prop := True

/-! ## 1. What a read says -/

/-- A read of a claim that this Client has not deleted. -/
structure Seen (u : String) (r : Except ApiError MicroVMClaim) (s : State) : Prop where
  missing : ∀ e, r = .error e → e.isNotFound = true → u ∈ s.taken
  changed : ∀ obj, r = .ok obj → obj.uid ≠ u ∨ obj.deleting = true → u ∈ s.taken
  expired : ∀ obj, r = .ok obj → obj.uid = u → obj.status.phase = .expired → u ∈ s.expired

variable {s : State} {u : String} {t : Thread} {k : ObjectKey}

/-- A claim neither taken nor released is stored where it was made, and not marked. -/
theorem LostInv.stored (hI : LostInv s) (hm : s.made u = some (t, k)) (hr : u ∉ s.released)
    (ht : u ∉ s.taken) : ∃ c, s.claims k = some c ∧ c.uid = u ∧ c.deleting = false := by
  rcases hI.present u t k hm with hg | hc
  · rcases hg with hg | hg
    · exact absurd hg ht
    · exact absurd hg hr
  · exact hc

theorem getClaim_ok {obj : MicroVMClaim} (h : s.getClaim k = .ok obj) : s.claims k = some obj := by
  unfold State.getClaim at h
  split at h
  next c hc =>
    cases h
    exact hc
  · cases h

theorem getClaim_seen (hI : LostInv s) (hm : s.made u = some (t, k)) (hr : u ∉ s.released)
    (f : ApiFault) : Seen u (f.read (s.getClaim k)) s := by
  have hstored : ∀ obj, f.read (s.getClaim k) = .ok obj → s.claims k = some obj :=
    fun obj ho => getClaim_ok (ApiFault.read_ok ho)
  refine ⟨fun e he hnf => ?_, fun obj ho hch => ?_, fun obj ho hu hp => ?_⟩
  · by_contra ht
    obtain ⟨c, hc, _, _⟩ := hI.stored hm hr ht
    cases f with
    | none =>
      simp only [ApiFault.read, State.getClaim, hc] at he
      cases he
    | failed applied text =>
      cases he
      cases hnf
  · by_contra ht
    obtain ⟨c, hc, hu, hd⟩ := hI.stored hm hr ht
    have heq : c = obj := Option.some.inj (hc.symm.trans (hstored obj ho))
    subst heq
    rcases hch with hne | hdel
    · exact hne hu
    · simp [hd] at hdel
  · have hx := hI.expired k obj (hstored obj ho) hp
    rw [hu] at hx
    exact hx

variable {s' : State} {r : Except ApiError MicroVMClaim}

theorem patchRenew_seen (hI : LostInv s) (hm : s.made u = some (t, k)) (hr : u ∉ s.released)
    {v : Thread} {f : Choice} {renewTime : MicroTime}
    (hx : exec payload v f (.patchRenew k u renewTime) s = some (r, s')) : Seen u r s' := by
  have hrely : LostRely t s s' := exec_calm (o := .patchRenew k u renewTime) trivial hx t
  have h : f.fault.write (s.patchRenew k u renewTime f.invalid) s = (r, s') := Option.some.inj hx
  have hok : ∀ obj, r = .ok obj → ∃ c, s.claims k = some c ∧ u = c.uid ∧ obj.uid = c.uid ∧
      obj.deleting = c.deleting ∧ obj.status = c.status := by
    rintro obj rfl
    obtain ⟨hw, _⟩ := ApiFault.write_answered h fun e he => by cases he
    unfold State.patchRenew at hw
    split at hw
    · cases hw
    next c hc =>
      split at hw
      next hu =>
        cases hw
        exact ⟨c, hc, hu, rfl, rfl, rfl⟩
      · cases hw
  refine ⟨fun e he hnf => ?_, fun obj ho hch => ?_, fun obj ho hu hp => ?_⟩
  · by_contra ht
    obtain ⟨c, hc, hcu, _⟩ := hI.stored hm hr fun hx => ht (hrely.taken u hx)
    subst he
    obtain ⟨hw, _⟩ := ApiFault.write_answered h fun e' he' => by
      cases he'
      exact ApiError.kind_of_isNotFound hnf
    simp only [State.patchRenew, hc, hcu, if_true] at hw
    cases hw
  · by_contra ht
    obtain ⟨c, hc, hcu, hd⟩ := hI.stored hm hr fun hx => ht (hrely.taken u hx)
    obtain ⟨c', hc', hu', hou, hod, _⟩ := hok obj ho
    rw [hc] at hc'
    cases hc'
    rcases hch with hne | hdel
    · exact hne (hou.trans hcu)
    · rw [hod, hd] at hdel
      cases hdel
  · obtain ⟨c, hc, hcu, _, _, hst⟩ := hok obj ho
    rw [hst] at hp
    have hx := hI.expired k c hc hp
    rw [← hcu] at hx
    exact hrely.expired u hx

/-- A `Claim` on which a method runs. -/
def Known (u : String) (cl : Claim) (s : State) : Prop :=
  cl.uid = u ∧ ∃ t, s.made u = some (t, cl.key)

theorem stable_known (t : Thread) (u : String) (cl : Claim) : Stable lostSpec t (Known u cl) :=
  fun _ _ h hR _ => ⟨h.1, h.2.imp fun _ hm => hR.made u _ hm⟩

/-! ## 2. Losing a claim -/

section Programs

variable {t : Thread} {s : State} {α β : Type} {Q : β → State → Prop}

theorem stable_true : Stable lostSpec t fun _ => True := fun _ _ _ _ _ => trivial

variable {o : ClientOp} {p : ClientCode α} {u : String} {cl : Claim} {obj : MicroVMClaim}
  {k : ObjectKey}

/-- An operation, and what follows it. -/
theorem lwp_ask {P : State → Prop} (hP : Stable lostSpec t P) {k : o.Ans → ClientCode β} (h : P s)
    (hpre : ∀ s', P s' → LostPre t o s')
    (hk : ∀ s' f r s'', LostInv s' → P s' → okExec t f o s' = true →
      exec payload t f o s' = some (r, s'') → LostWp payload t (k r) Q s'') :
    LostWp payload t (clientAsk o >>= k) Q s :=
  wp_call hP h (fun s' _ hp => hpre s' hp) fun s' f r s'' hI hp hx _ =>
    hk s' f r s'' hI hp (restrict_exec hx).1 (restrict_exec hx).2

/-- An operation that leaves alone what the thread relies on. -/
theorem lwp_calm {P : State → Prop} (hP : ∀ s s', P s → LostRely t s s' → P s') (ho : Calm o)
    {k : o.Ans → ClientCode β} (h : P s)
    (hk : ∀ s' f r s'', LostInv s' → P s'' → okExec t f o s' = true →
      exec payload t f o s' = some (r, s'') → LostWp payload t (k r) Q s'') :
    LostWp payload t (clientAsk o >>= k) Q s :=
  lwp_ask (fun s s' hp hR _ => hP s s' hp hR) h (fun s' _ => calm_pre ho s')
    fun s' f r s'' hI hp hok hx => hk s' f r s'' hI
      (hP s' s'' hp (exec_calm ho hx t)) hok hx

/-- A program that owes nothing at its end, and what follows it. -/
theorem lwp_then {k : α → ClientCode β} (h : LostWp payload t p Done s)
    (hk : ∀ a s', LostWp payload t (k a) Q s') : LostWp payload t (p >>= k) Q s :=
  wp_bind (LostRely.refl t) _ _ (wp_mono (fun a s' _ _ => hk a s') _ h)

/-- A program that owes nothing. -/
theorem lwp_free (p : ClientCode α) (hp : p.Only fun o => ∀ s, LostPre t o s) :
    LostWp payload t p Done s :=
  wp_only (J := fun _ => True) (fun _ _ _ _ _ => trivial) (fun _ s' ho _ _ => ho s')
    (fun _ _ _ _ _ _ _ _ _ => trivial) p hp trivial

theorem stable_lost (u : String) : Stable lostSpec t fun s => LostToOthers s u :=
  fun _ _ h hR _ => hR.lost h

/-- `lose`, of a claim that someone else took. -/
theorem lwp_lose {why : String} (h : LostToOthers s u) :
    LostWp payload t (clientAsk (.lose u why)) Done s :=
  wp_last (stable_lost u) h fun _ _ hl => hl

/-- **`observe`** loses a claim only if what was read says so. -/
theorem lwp_observe (hu : cl.uid = u) (h : Seen u (.ok obj) s) :
    LostWp payload t (cl.observe obj) Done s := by
  subst hu
  unfold Claim.observe
  split
  next hne => exact lwp_lose (.inl (h.changed obj rfl (.inl hne)))
  next heq =>
    have huid : obj.uid = cl.uid := not_not.mp heq
    split
    next hdel => exact lwp_lose (.inl (h.changed obj rfl (.inr hdel)))
    · split
      next hexp => exact lwp_lose (.inr (h.expired obj rfl huid hexp))
      · refine lwp_free _ (only_bind ?_ fun _ => ?_)
        · exact (only_call _).mpr fun _ => trivial
        · exact (only_call _).mpr fun _ => trivial

/-! ## 3. The hold loop -/

theorem alive_not_released (hI : LostInv s) (h : Alive u s) : u ∉ s.released := by
  obtain ⟨cl, hcl, hd⟩ := h
  intro hr
  have hdone := hI.done u cl hcl hr
  simp [hd] at hdone

/-- What the hold loop knows after its select. -/
def Looping (u : String) (cl : Claim) (s : State) : Prop := Known u cl s ∧ Alive u s

theorem stable_looping (ht : t = .hold u) : Stable lostSpec t (Looping u cl) :=
  (stable_known t u cl).and fun _ _ h hR _ => hR.alive u ht h

section Loop

variable (ht : t = .hold u) (h : Looping u cl s)
include ht h

/-- The second read of `renew`. -/
theorem lwp_findOut : LostWp payload t cl.findOut Done s := by
  refine lwp_ask (stable_looping ht) h (fun _ _ => trivial) fun s' f r s'' hI hL _ hx => ?_
  obtain ⟨⟨hu, t', hm⟩, ha⟩ := hL
  have hseen : Seen u (f.fault.read (s'.getClaim cl.key)) s' :=
    getClaim_seen hI hm (alive_not_released hI ha) f.fault
  cases hx
  generalize f.fault.read (s'.getClaim cl.key) = r at hseen
  cases r with
  | ok obj => exact lwp_observe hu hseen
  | error e =>
    simp only
    split
    next hnf =>
      rw [hu]
      exact lwp_lose (.inl (hseen.missing e rfl hnf))
    · exact lwp_free _ (only_pure _)

theorem lwp_renewed (hseen : Seen u r s) : LostWp payload t (cl.renewed r) Done s := by
  have hu : cl.uid = u := h.1.1
  cases r with
  | ok obj => exact lwp_observe hu hseen
  | error e =>
    simp only [Claim.renewed]
    split
    next hnf =>
      rw [hu]
      exact lwp_lose (.inl (hseen.missing e rfl hnf))
    · split
      · exact lwp_findOut ht h
      · exact lwp_free _ (only_pure _)

/-- **`renew`**: while the hold loop runs, this Client has not deleted the claim. -/
theorem lwp_renew : LostWp payload t cl.renew Done s := by
  refine lwp_ask (stable_looping ht) h (fun _ _ => trivial) fun s1 f1 r1 s1' _ hL _ hx1 => ?_
  cases hx1
  refine lwp_ask (stable_looping ht) hL (fun _ _ => trivial) fun s2 f2 r2 s2' hI hL _ hx2 => ?_
  obtain ⟨⟨hu, t', hm⟩, ha⟩ := hL
  subst hu
  have hseen : Seen cl.uid r2 s2' := patchRenew_seen hI hm (alive_not_released hI ha) hx2
  have hrely : LostRely t s2 s2' := exec_calm (o := .patchRenew _ _ _) trivial hx2 t
  have hL' : Looping cl.uid cl s2' := ⟨⟨rfl, t', hrely.made _ _ hm⟩, hrely.alive _ ht ha⟩
  refine lwp_then (lwp_renewed ht hL' hseen) fun _ s3 => ?_
  refine lwp_free _ (only_bind ?_ fun _ => only_pure _)
  exact (only_call _).mpr fun _ => trivial

end Loop

theorem inquiry_calm (h : Inquiry o) : Calm o := by
  cases o with
  | now | tokenRequest | heartbeat => trivial
  | _ => exact h.elim

theorem lwp_refresh (cl : Claim) : LostWp payload t cl.refresh Done s := by
  have hreq : LostWp payload t cl.requestToken Done s :=
    wp_only (fun _ _ _ _ _ => trivial) (fun _ s' ho _ _ => calm_pre ho s')
      (fun _ _ _ _ _ _ _ _ _ => trivial) _
      ((only_requestToken cl).mono fun _ => inquiry_calm) trivial
  refine lwp_then hreq fun r s' => ?_
  cases r with
  | error e => exact lwp_free _ ((only_call _).mpr fun _ => trivial)
  | ok answer =>
    refine lwp_free _ (only_bind ?_ fun _ => ?_)
    · exact (only_call _).mpr fun _ => trivial
    · exact (only_call _).mpr fun _ => trivial

/-- Entering a method: the `Claim` is the one the library made. -/
theorem enter_known {f : Choice} {s : State} (hI : LostInv s)
    (h : exec payload t f (.enter u) s = some (cl, s')) : Known u cl s' := by
  obtain ⟨cl', hcl, he⟩ := Option.map_eq_some_iff.mp h
  cases he
  exact hI.held u cl hcl

/-- A select that is taken is taken by a loop that runs. -/
theorem wake_alive {w w' : Wake} (h : wake s cl w = some w') : cl.done = false := by
  cases w with
  | released | renew | token =>
    simp only [wake] at h
    split at h
    next hc => exact hc.1
    · cases h

/-- **A round of the hold loop.** -/
theorem lwp_holdRound (u : String) : LostWp payload (.hold u) (Claim.holdRound u) Done s := by
  refine lwp_ask stable_true trivial (fun _ _ => trivial) fun s1 f1 cl s1' hI1 _ _ hx1 => ?_
  have hk : Known u cl s1' := enter_known hI1 hx1
  refine lwp_ask (stable_known _ u cl) hk (fun _ _ => trivial) fun s2 f2 w s2' _ hk _ hx2 => ?_
  obtain ⟨cl', hcl', hw⟩ := Option.bind_eq_some_iff.mp hx2
  obtain ⟨w', hw', he⟩ := Option.map_eq_some_iff.mp hw
  cases he
  have hL : Looping u cl s2 := ⟨hk, cl', hcl', wake_alive hw'⟩
  cases w with
  | released => exact lwp_free _ ((only_call _).mpr fun _ => rfl)
  | renew =>
    refine lwp_then (lwp_renew rfl hL) fun lost s3 => ?_
    split
    · refine lwp_free _ ((only_call _).mpr fun _ => ?_)
      show Thread.hold u = Thread.hold cl.uid
      rw [hk.1]
    · exact lwp_free _ ((only_call _).mpr fun _ => trivial)
  | token => exact lwp_refresh cl

/-! ## 4. The Consumer's calls -/

/-- What a call returns goes to the Consumer. -/
theorem lwp_returned (h : LostWp payload t p Done s) : LostWp payload t (do let _ ← p) Done s :=
  lwp_then h fun _ _ => lwp_free _ (only_pure _)

/-- **`Release`**: the claim is deleted once the hold loop has returned. -/
theorem lwp_release (u : String) : LostWp payload t (Claim.release u) Done s := by
  refine lwp_ask stable_true trivial (fun _ _ => trivial) fun s1 f1 cl s1' hI1 _ _ hx1 => ?_
  have hk : Known u cl s1' := enter_known hI1 hx1
  refine lwp_ask stable_true trivial (fun _ _ => trivial) fun s2 f2 _ s2' _ _ _ _ => ?_
  refine lwp_ask stable_true trivial (fun _ _ => trivial) fun s3 f3 _ s3' _ _ _ hx3 => ?_
  have hstop : Stopped u s3' := by
    obtain ⟨cl', hcl', hw⟩ := Option.bind_eq_some_iff.mp hx3
    split at hw
    next hd =>
      cases hw
      exact ⟨cl', hcl', hd⟩
    · cases hw
  have hst : Stable lostSpec t (Stopped u) := fun _ _ h hR _ => hR.stopped u h
  refine lwp_ask hst hstop (fun s4 h4 => ⟨u, by rw [hk.1], .inr h4⟩)
    fun s4 f4 r s4' _ _ _ _ => ?_
  cases r with
  | ok | error => exact lwp_free _ (only_pure _)

theorem only_dialAgain (cl : Claim) : cl.dialAgain.Only fun o => ∀ s, LostPre t o s := by
  refine only_bind ((only_call _).mpr fun _ => trivial) fun r => ?_
  cases r with
  | some err => exact only_pure _
  | none => exact only_bind ((only_call _).mpr fun _ => trivial) fun _ => only_pure _

/-- **The read of `Dial`**, under the condition. -/
theorem lwp_dialRead {n : Nat} (h : Known u cl s) :
    LostWp payload (.dial n u) cl.dialRead Done s := by
  have again : ∀ s' : State, LostWp payload (.dial n u) cl.dialAgain Done s' := fun _ =>
    lwp_free _ (only_dialAgain cl)
  refine lwp_ask (stable_known _ u cl) h (fun _ _ => trivial) fun s1 f r s1' hI hk hok hx => ?_
  have hrel : u ∉ s1.released := by simpa [okExec] using hok
  obtain ⟨hu, t', hm⟩ := hk
  have hseen : Seen u (f.fault.read (s1.getClaim cl.key)) s1 := getClaim_seen hI hm hrel f.fault
  cases hx
  generalize f.fault.read (s1.getClaim cl.key) = r at hseen
  cases r with
  | ok obj => exact lwp_then (lwp_observe hu hseen) fun _ => again
  | error e =>
    simp only
    split
    next hnf =>
      rw [hu]
      exact lwp_then (lwp_lose (.inl (hseen.missing e rfl hnf))) fun _ => again
    · exact lwp_free _ (only_pure _)

theorem lwp_dial (n : Nat) (u : String) : LostWp payload (.dial n u) (Claim.dial u) Done s := by
  refine lwp_ask stable_true trivial (fun _ _ => trivial) fun s1 f1 cl s1' hI1 _ _ hx1 => ?_
  have hk : Known u cl s1' := enter_known hI1 hx1
  have hkeep : ∀ s s', Known u cl s → LostRely (.dial n u) s s' → Known u cl s' :=
    fun _ _ h hR => ⟨h.1, h.2.imp fun _ hm => hR.made u _ hm⟩
  refine lwp_calm hkeep (by trivial) hk fun s2 f2 err s2' _ hk2 _ _ => ?_
  cases err with
  | some e => exact lwp_free _ (only_pure _)
  | none =>
    refine lwp_calm hkeep (by trivial) hk2 fun s3 f3 addr s3' _ hk3 _ _ => ?_
    split
    · exact lwp_dialRead hk3
    · exact lwp_free _ (only_pure _)

/-! ## 5. Claiming -/

theorem stable_own : Stable lostSpec t (Own t u k) :=
  fun _ _ h hR _ => hR.own u k h

/-- A call keeps what it owns over operations that leave it alone. -/
theorem lwp_own (hp : p.Only Calm) (h : Own t u k s) : LostWp payload t p (fun _ => Own t u k) s :=
  wp_only stable_own (fun _ s' ho _ _ => calm_pre ho s')
    (fun _ _ _ _ _ ho _ hown hx =>
      (exec_calm ho (restrict_exec hx).2 t).own u k hown) p hp h

/-- A wait that ends with the claim has read it, with its uid. -/
theorem seen_bound {name uid : String} {last : Option Pending}
    (h : Client.seen name uid last r = .error (.ok obj)) : r = .ok obj ∧ obj.uid = uid := by
  cases r with
  | error e =>
    simp only [Client.seen] at h
    split at h <;> cases h
  | ok obj' =>
    simp only [Client.seen] at h
    split at h
    · cases h
    next hu =>
      split at h
      · cases h
      · split at h
        · cases h
        · split at h
          · cases h
            exact ⟨rfl, not_not.mp hu⟩
          · cases h

/-- The claim a wait ended with is the one it waited for. -/
def Waited (t : Thread) (u : String) (k : ObjectKey) (r : Except String MicroVMClaim)
    (s : State) : Prop := Own t u k s ∧ ∀ obj, r = .ok obj → obj.uid = u ∧ obj.key = k

theorem lwp_waitBound (c : Client) (name u : String) (polls : Nat) (last : Option Pending)
    (h : Own t u ⟨c.namespace_, name⟩ s) :
    LostWp payload t (c.waitBound name u polls last) (Waited t u ⟨c.namespace_, name⟩) s := by
  induction polls generalizing last s with
  | zero => exact wp_ret stable_own h fun _ _ ho => ⟨ho, fun _ he => (by cases he)⟩
  | succ polls ih =>
    refine lwp_ask stable_own h (fun _ _ => trivial) fun s1 f r s1' hI ho _ hx => ?_
    have hr : ∀ obj, r = .ok obj → s1.claims ⟨c.namespace_, name⟩ = some obj := by
      intro obj he
      subst he
      have hx' : f.fault.read (s1.getClaim ⟨c.namespace_, name⟩) = .ok obj :=
        congrArg Prod.fst (Option.some.inj hx)
      exact getClaim_ok (ApiFault.read_ok hx')
    have ho' : Own t u ⟨c.namespace_, name⟩ s1' :=
      (exec_calm (o := .getClaim _) trivial hx t).own _ _ ho
    split
    next result hres =>
      refine wp_ret stable_own ho' fun _ _ ho2 => ⟨ho2, fun obj he => ?_⟩
      subst he
      obtain ⟨hobj, hu⟩ := seen_bound hres
      exact ⟨hu, hI.keyed _ _ (hr obj hobj)⟩
    · refine lwp_calm (fun _ _ h hR => hR.own u _ h) (by trivial) ho'
        fun s2 f2 err s2' _ ho2 _ _ => ?_
      cases err with
      | some e => exact wp_ret stable_own ho2 fun _ _ ho3 => ⟨ho3, fun _ he => (by cases he)⟩
      | none => exact ih _ ho2

/-- The `Claim` that is shared is of the claim that was made. -/
theorem newClaim_fields (c : Client) (obj : MicroVMClaim) (secret : Secret) (d : Duration) :
    (newClaim c obj secret d).uid = obj.uid ∧
      (newClaim c obj secret d).key = ⟨c.namespace_, obj.name⟩ ∧
      (newClaim c obj secret d).lost = false ∧ (newClaim c obj secret d).err = none := by
  unfold newClaim
  rcases Claim.checkHost_cases _ obj.status.conditions with heq | ⟨err, heq⟩
  · rw [heq]
    exact ⟨rfl, rfl, rfl, rfl⟩
  · rw [heq]
    exact ⟨rfl, rfl, rfl, rfl⟩

/-- A call that ends with an error still owns its claim. -/
def Owned (t : Thread) (u : String) (k : ObjectKey) (r : Except String Unit) (s : State) : Prop :=
  ∀ e, r = .error e → Own t u k s

theorem lwp_error {e : String} (h : Own t u k s) :
    LostWp payload t (pure (.error e)) (Owned t u k) s :=
  wp_ret stable_own h fun _ _ ho _ _ => ho

/-- **The `Claim` is shared.** -/
theorem lwp_hold (h : Own t cl.uid cl.key s) (hl : cl.lost = false) (he : cl.err = none) :
    LostWp payload t (Client.hold cl) (Owned t cl.uid cl.key) s := by
  refine wp_bind (LostRely.refl t) _ _ (wp_mono (fun r s' _ ho => ?_) _
    (lwp_own ((only_requestToken cl).mono fun _ => inquiry_calm) h))
  cases r with
  | error e => exact lwp_error ho
  | ok answer =>
    obtain ⟨token, wait⟩ := answer
    refine lwp_ask stable_own ho (fun _ ho' => ⟨{ ho' with }, hl, he⟩)
      fun _ _ _ _ _ _ _ _ => ?_
    exact wp_ret stable_true trivial fun _ _ _ _ hx => (by cases hx)

theorem lwp_bind (c : Client) (req : Request) (polls : Nat)
    (h : Own t obj.uid ⟨c.namespace_, obj.name⟩ s) :
    LostWp payload t (c.bind obj req polls) (Owned t obj.uid ⟨c.namespace_, obj.name⟩) s := by
  unfold Client.bind
  split
  · exact lwp_error h
  · refine lwp_calm (fun _ _ h hR => hR.own _ _ h) (by trivial) h
      fun s1 f1 r s1' _ ho _ _ => ?_
    cases r with
    | error e => exact lwp_error ho
    | ok secret =>
      simp only [Client.bindSecret]
      split
      · exact lwp_error ho
      · refine wp_seq (LostRely.refl t)
          (lwp_waitBound c obj.name obj.uid polls none ho) fun r s2 _ hw => ?_
        obtain ⟨ho2, hobj⟩ := hw
        cases r with
        | error e => exact lwp_error ho2
        | ok bound =>
          refine wp_seq (LostRely.refl t)
            (lwp_own ((only_heartbeatInterval c req.pool).mono fun _ => inquiry_calm) ho2)
            fun r s3 _ ho3 => ?_
          cases r with
          | error e => exact lwp_error ho3
          | ok interval =>
            obtain ⟨hu, hk⟩ := hobj bound rfl
            obtain ⟨huid, hkey, hl, he⟩ := newClaim_fields c bound secret interval
            have hname : bound.name = obj.name := congrArg ObjectKey.name hk
            have huid' : (newClaim c bound secret interval).uid = obj.uid := huid.trans hu
            have hkey' : (newClaim c bound secret interval).key =
                ⟨c.namespace_, obj.name⟩ := by rw [hkey, hname]
            have ho4 : Own t (newClaim c bound secret interval).uid
                (newClaim c bound secret interval).key s3 := by
              rw [huid', hkey']
              exact ho3
            rw [← huid', ← hkey']
            exact lwp_hold ho4 hl he

/-- A claim that was created is owned by the call. -/
theorem createClaim_own {f : Choice} {ns name generateName pool sa : String} {s : State}
    (hI : LostInv s)
    (h : exec payload t f (.createClaim ns name generateName pool sa) s = some (.ok obj, s')) :
    obj.uid ≠ "" ∧ Own t obj.uid ⟨ns, obj.name⟩ s' := by
  simp only [exec] at h
  split at h
  next hf =>
    obtain ⟨hne, hfresh⟩ := fresh_iff.mp hf
    obtain ⟨hw, hs⟩ := ApiFault.write_answered (Option.some.inj h) fun e he => by cases he
    subst hs
    unfold State.createClaim at hw ⊢
    split at hw
    · cases hw
    · cases hw
      refine ⟨hne, Function.update_self .., ?_, fun hr => hfresh (hI.releasedIn _ hr)⟩
      show s.held f.uid = none
      cases hcl : s.held f.uid with
      | none => rfl
      | some cl =>
        obtain ⟨_, t', hm⟩ := hI.held _ _ hcl
        exact absurd (hI.madeIn _ _ _ hm) hfresh
  · cases h

/-- **`Client.Claim`**: a claim that is not returned is deleted before it is ever shared. -/
theorem lwp_claim (c : Client) (req : Request) (polls : Nat) :
    LostWp payload t (c.claim req polls) Done s := by
  unfold Client.claim
  split
  · exact lwp_free _ (only_pure _)
  · refine lwp_ask stable_true trivial (fun _ _ => trivial) fun s1 f r s1' hI _ _ hx => ?_
    cases r with
    | error e => exact lwp_free _ (only_pure _)
    | ok obj =>
      obtain ⟨hne, ho⟩ := createClaim_own hI hx
      refine wp_seq (LostRely.refl t) (lwp_bind c req polls ho) fun r s2 _ hr => ?_
      cases r with
      | ok => exact lwp_free _ (only_pure _)
      | error err =>
        refine lwp_then (s := s2) ?_ fun derr s3 => ?_
        · unfold Client.deleteClaim
          split
          · exact lwp_free _ (only_pure _)
          · rw [if_neg hne]
            refine lwp_ask stable_own (hr err rfl) (fun s3 ho3 => ⟨_, rfl, .inl ⟨_, ho3⟩⟩)
              fun _ _ r _ _ _ _ _ => ?_
            cases r with
            | ok | error => exact lwp_free _ (only_pure _)
        · cases derr with
          | none | some => exact lwp_free _ (only_pure _)

/-! ## 6. Soundness -/

theorem only_serve (a : Agent) (values : List String) (vmUID : String) :
    (serveRequest payload a values vmUID).Only Calm := by
  have finish : ∀ granted, (clientAsk (.finish granted)).Only Calm := fun _ =>
    (only_call _).mpr trivial
  refine only_bind ?_ fun r => ?_
  · unfold authenticate
    split
    · exact only_pure _
    · split
      · exact only_pure _
      · refine only_bind ((only_call _).mpr trivial) fun r => ?_
        cases r with
        | error | ok => exact only_pure _
  · cases r with
    | error e => exact finish none
    | ok caller =>
      refine only_bind (only_bind ((only_call _).mpr trivial) fun now => ?_)
        fun r => ?_
      · unfold Agent.authorizeClaim
        split
        · exact only_pure _
        · exact only_bind ((only_call _).mpr trivial) fun _ => only_pure _
      · cases r with
        | error e => exact finish none
        | ok => exact finish _

theorem lwp_prog (t : Thread) : LostWp payload t (prog payload t) Done s := by
  cases t with
  | claim n c req polls => exact lwp_returned (lwp_claim c req polls)
  | hold u => exact lwp_holdRound u
  | release n u => exact lwp_returned (lwp_release u)
  | dial n u => exact lwp_returned (lwp_dial n u)
  | serve n a values vmUID =>
    exact wp_only stable_true (fun _ s' ho _ _ => calm_pre ho s')
      (fun _ _ _ _ _ _ _ _ _ => trivial) _ (only_serve a values vmUID) trivial

end Programs

/-- **The library's calls, under the condition on `Dial`.** -/
theorem lost_sound : Sound (lostMachine payload) lostSpec where
  refl := LostRely.refl
  trans _ _ _ _ := LostRely.trans
  idle _ _ _ _ _ _ := trivial
  env_inv _ _ _ hI hx := env_inv hI (restrict_env hx).2
  env_rely _ _ _ _ _ hx := env_rely (restrict_env hx).2
  exec_inv _ _ _ _ _ _ hI hpre hx := exec_inv hI hpre (restrict_exec hx).2
  exec_rely _ _ _ _ _ _ _ hne hI hpre hx := exec_rely hne hI hpre (restrict_exec hx).2
  crash_inv _ hI := { hI with
    held := fun _ _ h => (nomatch h)
    done := fun _ _ h => (nomatch h)
    lost := fun _ _ h => (nomatch h) }
  crash_idle _ _ _ := trivial
  spawn t _ _ _ := lwp_prog t

theorem lostInv_initial (now : Time) (pools : ObjectKey → Option (Option Duration)) :
    LostInv (State.initial now pools) where
  keyed _ _ h := nomatch h
  madeIn _ _ _ h := nomatch h
  releasedIn _ h := nomatch h
  present _ _ _ h := nomatch h
  expired _ _ h := nomatch h
  held _ _ h := nomatch h
  done _ _ h := nomatch h
  lost _ _ h := nomatch h

/-! ## 7. The guarantee -/

/-- Every `Dial` reads the claim before this Client has deleted it. -/
def DialsBeforeRelease (w : ClientWorld) (a : Act Thread Choice ClientAct) : Prop :=
  meets okExec okEnv w a = true

instance (w : ClientWorld) (a : Act Thread Choice ClientAct) : Decidable (DialsBeforeRelease w a) :=
  inferInstanceAs (Decidable (_ = true))

/-- **Lost means lost to someone else**, in every run in which no `Dial` reads the claim after this
    Client has deleted it: the channel is closed, and `Err` is set, only for a claim that was
    Expired or that someone else deleted or marked for deletion. -/
theorem lost_to_someone_else {w : ClientWorld} (h : ReachableBy payload DialsBeforeRelease w)
    {uid : String} {cl : Claim} (hcl : w.shared.held uid = some cl)
    (hl : cl.lost = true ∨ cl.err ≠ none) : uid ∈ w.shared.taken ∨ uid ∈ w.shared.expired := by
  obtain ⟨now, pools, hrun⟩ := h
  have h0 : Safe (lostMachine payload) lostSpec (start now pools) :=
    ⟨lostInv_initial now pools, fun _ _ hp => (nomatch hp), fun _ _ => trivial⟩
  exact (lost_sound.reach h0 (run_restrict hrun)).inv.lost uid cl hcl hl

/-! ### Two runs -/

/-- The claim binds while the call waits. Its status names no agent address. -/
def claimed : List (Act Thread Choice ClientAct) := someClaimed { phase := .bound }

/-- Someone deletes the claim, and the hold loop renews it. -/
def takenRun : List (Act Thread Choice ClientAct) :=
  claimed ++
    [.env (.deleteClaim ⟨"ns", "x"⟩), .env (.tick 20000000000), .spawn (.hold "u1"),
      .exec (.hold "u1") {}, .exec (.hold "u1") { wake := .renew }, .exec (.hold "u1") {},
      .exec (.hold "u1") {}, .exec (.hold "u1") {}]

theorem lost_to_someone_else_taken :
    ∃ w cl, ReachableBy somePayload DialsBeforeRelease w ∧ w.shared.held "u1" = some cl ∧
      cl.lost = true ∧ ("u1" ∈ w.shared.taken ∨ "u1" ∈ w.shared.expired) := by
  have hex : ∃ w, (machine somePayload).Run DialsBeforeRelease (start 0 fun _ => some none) w ∧
      (w.shared.held "u1").any Claim.lost = true :=
    exists_run _ takenRun _ (by decide +kernel)
  obtain ⟨w, hrun, hw⟩ := hex
  obtain ⟨cl, hcl, hl⟩ := (Option.any_eq_true ..).mp hw
  have hr : ReachableBy somePayload DialsBeforeRelease w := ⟨_, _, hrun⟩
  exact ⟨w, cl, hr, hcl, hl, lost_to_someone_else hr hcl (.inl hl)⟩

/-- The Consumer releases the claim, and then dials. -/
def releasedRun : List (Act Thread Choice ClientAct) :=
  claimed ++
    [.spawn (.release 0 "u1"), .exec (.release 0 "u1") {}, .exec (.release 0 "u1") {},
      .spawn (.hold "u1"), .exec (.hold "u1") {}, .exec (.hold "u1") {}, .exec (.hold "u1") {},
      .exec (.release 0 "u1") {}, .exec (.release 0 "u1") {},
      .spawn (.dial 0 "u1"), .exec (.dial 0 "u1") {}, .exec (.dial 0 "u1") {},
      .exec (.dial 0 "u1") {}, .exec (.dial 0 "u1") {}, .exec (.dial 0 "u1") {}]

/-- **Without the condition**: a claim that nobody but this Client touched, and that never expired,
    is reported lost. -/
theorem released_claim_lost :
    ∃ w, ReachableBy somePayload (fun _ _ => True) w ∧
      (∃ cl, w.shared.held "u1" = some cl ∧ cl.lost = true ∧
        cl.err = some "the lease is lost: claim x is being deleted") ∧
      w.shared.taken = [] ∧ w.shared.expired = [] := by
  have hex : ∃ w, (machine somePayload).Run (fun _ _ => True) (start 0 fun _ => some none) w ∧
      (w.shared.held "u1").any (fun cl => cl.lost &&
        cl.err = some "the lease is lost: claim x is being deleted") = true ∧
      w.shared.taken = [] ∧ w.shared.expired = [] :=
    exists_run _ releasedRun _ (by decide +kernel)
  obtain ⟨w, hrun, hw, ht, he⟩ := hex
  obtain ⟨cl, hcl, hl⟩ := (Option.any_eq_true ..).mp hw
  have hboth : cl.lost = true ∧ cl.err = some "the lease is lost: claim x is being deleted" := by
    simpa using hl
  exact ⟨w, ⟨_, _, hrun⟩, ⟨cl, hcl, hboth.1, hboth.2⟩, ht, he⟩

end BatteryOperator.ClaimClient.Lost
