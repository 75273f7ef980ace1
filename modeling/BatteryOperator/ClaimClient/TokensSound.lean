/-
  Subject:   A claim token opens the claim its Secret was made for.

  * `twp_authenticate`, `twp_authorize` -- **what a request knows after its TokenReview and after
    its claim lookup**;
  * `token_opens_own_claim` -- the guarantee, in every run whose steps meet the condition;
    `token_opens_next_claim` -- a run that does not.
-/
import BatteryOperator.ClaimClient.Tokens

namespace BatteryOperator.ClaimClient.Tokens

open Lib ExecAgent Machine Prog

variable {payload : Payload}

/-- The machine of the steps that meet the condition. -/
abbrev tokenMachine (payload : Payload) :
    Machine Thread Choice ClientAct ClientOp ClientOp.Ans State :=
  (machine payload).restrict okExec okEnv

/-- What a program of thread `t` needs to end in `Q`. -/
abbrev TokenWp (payload : Payload) (t : Thread) {α : Type}
    (p : ClientCode α) (Q : α → State → Prop) (s : State) : Prop :=
  wp (tokenMachine payload) (tokenSpec payload) t p Q s

/-! ## 1. A request -/

section Request

variable {t : Thread} {s : State} {β : Type} {Q : β → State → Prop}

/-- A request that was authenticated is marked with its token's Secret. -/
def Reviewed (t : Thread) (caller : Caller) (s : State) : Prop :=
  ∀ b, caller.boundSecret = some b → (t, b) ∈ s.reviewed

/-- A request that was authorized has looked up the claim of its token. -/
def Authorized (t : Thread) (caller : Caller) (vmUID : String) (s : State) : Prop :=
  ∃ b, caller.boundSecret = some b ∧ Right s b (s.looked t) vmUID

theorem stable_true : Stable (tokenSpec payload) t fun _ => True := fun _ _ _ _ _ => trivial

theorem stable_reviewed (caller : Caller) : Stable (tokenSpec payload) t (Reviewed t caller) :=
  fun _ _ h hR _ b hb => hR.reviewed b (h b hb)

theorem stable_authorized (caller : Caller) (vmUID : String) :
    Stable (tokenSpec payload) t (Authorized t caller vmUID) := by
  intro s s' h hR _
  obtain ⟨b, hb, hright⟩ := h
  refine ⟨b, hb, ?_⟩
  rw [hR.looked]
  exact hright.grow hR.uids hR.anchors

/-- An operation that owes nothing, and what follows it. -/
theorem twp_ask {P : State → Prop} (hP : Stable (tokenSpec payload) t P) {o : ClientOp}
    (ho : ∀ s', TokenPre t o s') {k : o.Ans → ClientCode β} (h : P s)
    (hk : ∀ s' f r s'', TokenInv payload s' → P s' → exec payload t f o s' = some (r, s'') →
      TokenWp payload t (k r) Q s'') : TokenWp payload t (clientAsk o >>= k) Q s :=
  wp_call hP h (fun s' _ _ => ho s') fun s' f r s'' hI hp hx _ =>
    hk s' f r s'' hI hp (restrict_exec hx).2

/-- **After its TokenReview** a request is marked. -/
theorem twp_authenticate (audiences values : List String) :
    TokenWp payload t
      (authenticate payload audiences
        (fun token audiences => clientAsk (.tokenReview token audiences)) values)
      (fun r s' => ∀ caller, r = .ok caller → Reviewed t caller s') s := by
  have failed : ∀ (e : AuthnError) (s : State),
      TokenWp payload t (pure (.error e : Except AuthnError Caller))
        (fun r s' => ∀ caller, r = .ok caller → Reviewed t caller s') s := fun e s =>
    wp_ret stable_true trivial fun _ _ _ _ he => (by cases he)
  unfold authenticate
  split
  · exact failed _ s
  next token _ =>
    split
    · exact failed _ s
    · refine twp_ask stable_true (by exact fun _ => trivial) trivial fun s1 f r s1' _ _ hx => ?_
      cases r with
      | error e => exact failed _ s1'
      | ok st =>
        simp only [exec] at hx
        split at hx
        · cases hx
          -- the review's answer decides, and its mark is the Secret the agent reads
          simp only
          cases hr : reviewed payload audiences token (s1.review token audiences) with
          | error e => exact failed e _
          | ok caller =>
            obtain ⟨hauth, _, _, hcaller⟩ := (reviewed_ok_iff payload).mp hr
            refine wp_ret (stable_reviewed caller) (fun b hb => ?_) fun _ _ hrev caller' he => ?_
            · rw [hcaller] at hb
              have hb' : boundSecret payload token (s1.review token audiences).user = some b := hb
              simp only [hauth, if_true, hb']
              exact List.mem_cons_self
            · cases he
              exact hrev
        · cases hx

/-- The key of a lookup is the key of the claim the token's Secret is named after. -/
theorem lookupKey_eq {caller : Caller} {vmUID : String} {key : ObjectKey} {b : BoundSecret}
    (h : lookupKey caller vmUID = some key) (hb : caller.boundSecret = some b) :
    secretKey key = boundKey b := by
  unfold lookupKey at h
  rw [hb] at h
  split at h
  · cases h
  · simp only at h
    split at h
    · cases h
    next name hname =>
      split at h
      · cases h
      · cases h
        have hb' : b.name = name ++ execSecretSuffix := cutSuffix_eq_some.mp hname
        unfold secretKey boundKey execSecretName
        rw [hb']

/-- A request is granted only on a claim that was read. -/
theorem kubeClaim_ok {r : Except ApiError MicroVMClaim} {ns name : String} {c : ExecAgent.Claim}
    (h : kubeClaim (fun _ => r) ns name = .ok (some c)) : ∃ o, r = .ok o ∧ c = claimOf o := by
  unfold kubeClaim at h
  split at h
  next o ho =>
    cases h
    exact ⟨o, ho, rfl⟩
  · split at h <;> cases h

/-- **After its claim lookup** a request that is granted knows the claim of its token. -/
theorem twp_authorize (a : Agent) {caller : Caller} (vmUID : String) (h : Reviewed t caller s) :
    TokenWp payload t (authorizeRequest a caller vmUID)
      (fun r s' => r = .ok () → Authorized t caller vmUID s') s := by
  refine twp_ask (stable_reviewed caller) (by exact fun _ => trivial) h
    fun s1 f1 now s1' _ hrev hx => ?_
  cases hx
  unfold Agent.authorizeClaim
  split
  · refine wp_ret stable_true trivial fun _ _ _ hok => ?_
    obtain ⟨_, _, _, _, _, _, hc, _⟩ := authorizeClaim_ok_iff.mp hok
    cases hc
  next key hkey =>
    refine twp_ask (stable_reviewed caller) (by exact fun _ => trivial) hrev
      fun s2 f2 r s2' hI hrev hx2 => ?_
    cases hx2
    refine wp_ret (P := fun s' => authorizeClaim (kubeClaim fun _ =>
        f2.fault.read (s2.getClaim key)) caller vmUID a.hostNode s1.now = .ok () →
      Authorized t caller vmUID s') ?_ (fun hok => ?_) fun _ _ hp => hp
    · exact fun s3 s4 h3 hR hI4 hok => stable_authorized caller vmUID s3 s4 (h3 hok) hR hI4
    · obtain ⟨b, name, c, hb, _, _, hc, hgrant⟩ := authorizeClaim_ok_iff.mp hok
      obtain ⟨o, ho, rfl⟩ := kubeClaim_ok hc
      have hstored : s2.claims key = some o := by
        have hget := ApiFault.read_ok ho
        unfold State.getClaim at hget
        split at hget
        next c hc =>
          cases hget
          exact hc
        · cases hget
      have hopens : Opens s2 b := hI.reviewed t b (hrev b hb)
      have hvm : (claimOf o).vmUID = vmUID := (authorize_ok_iff.mp hgrant).2.2.2.2.1.2
      refine ⟨b, hb, hopens.known, fun u hu => ⟨o, ?_, ?_, hvm⟩⟩
      · exact (Function.update_self ..).trans hstored
      · exact hopens.own key o u (lookupKey_eq hkey hb) hstored hu

/-- **A request** is run on the claim of its token. -/
theorem twp_serve (a : Agent) (values : List String) (vmUID : String) :
    TokenWp payload t (serveRequest payload a values vmUID) (fun _ _ => True) s := by
  have refuse : ∀ s : State, TokenWp payload t (clientAsk (.finish none)) (fun _ _ => True) s :=
    fun _ => wp_last stable_true trivial fun _ _ _ => trivial
  refine wp_seq (TokenRely.refl t) (twp_authenticate a.audiences values) fun r s1 _ hr => ?_
  cases r with
  | error e => exact refuse s1
  | ok caller =>
    refine wp_seq (TokenRely.refl t) (twp_authorize a vmUID (hr caller rfl))
      fun r s2 _ hr2 => ?_
    cases r with
    | error e => exact refuse s2
    | ok =>
      refine wp_last (stable_authorized caller vmUID) (hr2 rfl) fun s3 _ h3 => ?_
      obtain ⟨b, hb, hright⟩ := h3
      rw [hb]
      exact fun _ => hright

end Request

/-! ## 2. Soundness -/

theorem twp_prog {s : State} (t : Thread) :
    TokenWp payload t (prog payload t) (fun _ _ => True) s := by
  cases t with
  | serve n a values vmUID => exact twp_serve a values vmUID
  | _ =>
    -- The library runs no request, so nothing is owed.
    refine wp_only stable_true (fun o s' _ _ _ => ?_) (fun _ _ _ _ _ _ _ _ _ => trivial) _
      (only_all (fun _ => trivial) _) trivial
    show TokenPre _ o s'
    unfold TokenPre
    split
    · nofun
    · trivial

theorem TokenInv.crash {s : State} (hI : TokenInv payload s) :
    TokenInv payload ((machine payload).crash s) :=
  hI.shrink (fun _ c hc => ⟨c, hc, rfl⟩) (fun _ _ hx => hx) rfl rfl rfl nofun
    rfl

/-- **The library and the agent, under the condition on names.** -/
theorem token_sound : Sound (tokenMachine payload) (tokenSpec payload) where
  refl := TokenRely.refl
  trans _ _ _ _ := TokenRely.trans
  idle _ _ _ _ _ _ := trivial
  env_inv _ _ _ hI hx := env_inv hI (restrict_env hx).1 (restrict_env hx).2
  env_rely _ _ _ _ _ hx := env_rely (restrict_env hx).2
  exec_inv _ _ _ _ _ _ hI hpre hx := exec_inv hI (restrict_exec hx).1 hpre (restrict_exec hx).2
  exec_rely _ _ _ _ _ _ _ hne _ _ hx := exec_rely hne (restrict_exec hx).2
  crash_inv _ hI := hI.crash
  crash_idle _ _ _ := trivial
  spawn t _ _ _ := twp_prog t

theorem tokenInv_initial (now : Time) (pools : ObjectKey → Option (Option Duration)) :
    TokenInv payload (State.initial now pools) where
  stored _ _ h := nomatch h
  anchored _ _ h := nomatch h
  once _ _ _ h := nomatch h
  own _ _ _ h := nomatch h
  issued _ h := nomatch h
  reviewed _ _ h := nomatch h
  accepted _ h := nomatch h

/-! ## 3. The guarantee -/

/-- Every claim is created where nothing of an earlier one of its name is left, and every claim's
    Secret while that claim is stored. -/
def NamesNotReused (w : ClientWorld) (a : Act Thread Choice ClientAct) : Prop :=
  meets okExec okEnv w a = true

instance (w : ClientWorld) (a : Act Thread Choice ClientAct) : Decidable (NamesNotReused w a) :=
  inferInstanceAs (Decidable (_ = true))

/-- **A token opens one claim only**, in every run in which names are not reused too early: each
    request that was run, with a token bound to the Secret made for the claim object `u`, was run
    on a MicroVM of that object. -/
theorem token_opens_own_claim {w : ClientWorld} (h : ReachableBy payload NamesNotReused w)
    {a : Accepted} (ha : a ∈ w.shared.accepted) {u : String}
    (hu : (a.secret.uid, u) ∈ w.shared.anchors) :
    ∃ c, a.claim = some c ∧ c.uid = u ∧ (claimOf c).vmUID = a.vmUID := by
  obtain ⟨now, pools, hrun⟩ := h
  have h0 : Safe (tokenMachine payload) (tokenSpec payload) (start now pools) :=
    ⟨tokenInv_initial now pools, nofun, fun _ _ => trivial⟩
  exact ((token_sound.reach h0 (run_restrict hrun)).inv.accepted a ha).own u hu

/-! ### Two runs -/

/-- A request with the token of the claim x, for a MicroVM. -/
def someRequest (vmUID : String) : Thread :=
  .serve 0 ⟨"host", [execAgentTokenAudience]⟩ ["Bearer h.p.s"] vmUID

/-- The status of a claim that is Bound to a MicroVM. -/
def boundTo (vmUID : String) : MicroVMClaimStatus :=
  { phase := .bound, microVM := some ⟨vmUID⟩, host := some ⟨"host", "address"⟩
    leaseExpiresAt := some 1000 }

/-- The request is served: reviewed, looked up and run. -/
def served (vmUID : String) : List (Act Thread Choice ClientAct) :=
  .spawn (someRequest vmUID) :: List.replicate 4 (.exec (someRequest vmUID) {})

theorem token_opens_own_claim_bound :
    ∃ w a c, ReachableBy somePayload NamesNotReused w ∧ a ∈ w.shared.accepted ∧
      (a.secret.uid, "u1") ∈ w.shared.anchors ∧
      a.claim = some c ∧ c.uid = "u1" ∧ (claimOf c).vmUID = a.vmUID := by
  have hex : ∃ w, (machine somePayload).Run NamesNotReused (start 0 fun _ => some none) w ∧
      ∃ a ∈ w.shared.accepted, (a.secret.uid, "u1") ∈ w.shared.anchors :=
    exists_run _ (someClaimed (boundTo "vm1") ++ served "vm1") _ (by decide +kernel)
  obtain ⟨w, hrun, a, ha, hu⟩ := hex
  have hr : ReachableBy somePayload NamesNotReused w := ⟨_, _, hrun⟩
  obtain ⟨c, hc, huid, hvm⟩ := token_opens_own_claim hr ha hu
  exact ⟨w, a, c, hr, ha, hu, hc, huid, hvm⟩

/-- The next call for the name x. -/
def nextCall : Thread := .claim 1 ⟨"ns", 600 * second⟩ ⟨"pool", "runner", "x", ""⟩ 1

/-- The claim goes while its Secret is left; a claim of the same name is made and binds. -/
def madeAgain : List (Act Thread Choice ClientAct) :=
  [.env (.deleteClaim ⟨"ns", "x"⟩),
    .env (.changeClaim ⟨"ns", "x"⟩ [] ⟨"pool", none, "runner"⟩ (boundTo "vm1")),
    .spawn nextCall, .exec nextCall { uid := "u2" },
    .env (.changeClaim ⟨"ns", "x"⟩ [releaseFinalizer] ⟨"pool", none, "runner"⟩ (boundTo "vm2"))]

/-- **Without the condition**: a token bound to the Secret made for the claim u1 is accepted for
    the MicroVM of the claim u2. -/
theorem token_opens_next_claim :
    ∃ w, ReachableBy somePayload (fun _ _ => True) w ∧
      ∃ a ∈ w.shared.accepted, (a.secret.uid, "u1") ∈ w.shared.anchors ∧
        a.claim.map (fun c => c.uid) = some "u2" ∧ a.vmUID = "vm2" := by
  have hex : ∃ w, (machine somePayload).Run (fun _ _ => True) (start 0 fun _ => some none) w ∧
      ∃ a ∈ w.shared.accepted, (a.secret.uid, "u1") ∈ w.shared.anchors ∧
        a.claim.map (fun c => c.uid) = some "u2" ∧ a.vmUID = "vm2" :=
    exists_run _ (someClaimed (boundTo "vm1") ++ madeAgain ++ served "vm2") _ (by decide +kernel)
  obtain ⟨w, hrun, hw⟩ := hex
  exact ⟨w, ⟨_, _, hrun⟩, hw⟩

end BatteryOperator.ClaimClient.Tokens
