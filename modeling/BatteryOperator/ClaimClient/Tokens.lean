/-
  Subject:   WHICH CLAIM A TOKEN OPENS. A claim token is bound to a Secret by name and uid; the
             Exec Agent finds the claim by the Secret's name, and sees neither the claim's uid nor
             the Secret's owner.

  The condition (`okExec`, `okEnv`): a claim is created only where no Secret of its name is left
  and no request is between its TokenReview and its claim lookup with a token bound to such a
  Secret; and the library creates a claim's Secret only while that claim is stored.

  * `TokenInv` -- the claim stored under a Secret's name is the one the Secret was made for;
  * `review_opens` -- **what a TokenReview says of the claim a lookup will find**;
  * `token_sound` -- every request that is run meets its duty.
-/
import BatteryOperator.ClaimClient.System
import BatteryOperator.Lib.RelyGuarantee

namespace BatteryOperator.ClaimClient.Tokens

open Lib ExecAgent Machine

/-! ## 1. The specification -/

/-- The key of the Secret of a claim. -/
def secretKey (k : ObjectKey) : ObjectKey := ⟨k.namespace_, execSecretName k.name⟩

/-- The key of a token's Secret. -/
def boundKey (b : BoundSecret) : ObjectKey := ⟨b.namespace_, b.name⟩

/-- Nothing of an earlier claim of this name is left. -/
def nameFree (s : State) (key : ObjectKey) : Bool :=
  (s.secrets (secretKey key)).isNone && s.reviewed.all fun x => boundKey x.2 ≠ secretKey key

def okExec (_ : Thread) (f : Choice) (o : ClientOp) (s : State) : Bool :=
  match o with
  | .createClaim ns name generateName _ _ => nameFree s ⟨ns, createdName name generateName f.name⟩
  | .createSecret ns claim owner => (s.claims ⟨ns, claim⟩).any fun c => c.uid = owner
  | _ => true

def okEnv (a : ClientAct) (s : State) : Bool :=
  match a with
  | .createClaim key _ _ => nameFree s key
  | _ => true

/-- A token bound to this Secret opens no claim but the one its Secret was made for. -/
structure Opens (s : State) (b : BoundSecret) : Prop where
  known : b.uid ∈ s.uids
  own : ∀ k c u, secretKey k = boundKey b → s.claims k = some c → (b.uid, u) ∈ s.anchors → c.uid = u

/-- What a request was run on. -/
structure Right (s : State) (b : BoundSecret) (claim : Option MicroVMClaim) (vmUID : String) :
    Prop where
  known : b.uid ∈ s.uids
  own : ∀ u, (b.uid, u) ∈ s.anchors →
    ∃ c, claim = some c ∧ c.uid = u ∧ (claimOf c).vmUID = vmUID

/-- **The invariant.** -/
structure TokenInv (payload : Payload) (s : State) : Prop where
  stored : ∀ k x, s.secrets k = some x → (x.uid, x.ownerUID) ∈ s.anchors
  anchored : ∀ x u, (x, u) ∈ s.anchors → x ∈ s.uids
  once : ∀ x u v, (x, u) ∈ s.anchors → (x, v) ∈ s.anchors → u = v
  own : ∀ k x c, s.secrets (secretKey k) = some x → s.claims k = some c → c.uid = x.ownerUID
  issued : ∀ i ∈ s.issued, tokenClaims payload i.text = some i.claims
  reviewed : ∀ t b, (t, b) ∈ s.reviewed → Opens s b
  accepted : ∀ a ∈ s.accepted, Right s a.secret a.claim a.vmUID

/-- What is owed before each operation: a request is run on the claim of its token. -/
def TokenPre (t : Thread) (o : ClientOp) (s : State) : Prop :=
  match o with
  | .finish (some (b, vmUID)) => t.isRequest = true → Right s b (s.looked t) vmUID
  | _ => True

/-- What the others leave alone. -/
structure TokenRely (t : Thread) (s s' : State) : Prop where
  uids : ∀ u ∈ s.uids, u ∈ s'.uids
  anchors : ∀ x u, x ∈ s.uids → (x, u) ∈ s'.anchors → (x, u) ∈ s.anchors
  reviewed : ∀ b, (t, b) ∈ s.reviewed → (t, b) ∈ s'.reviewed
  looked : s'.looked t = s.looked t

theorem TokenRely.refl (t : Thread) (s : State) : TokenRely t s s :=
  ⟨fun _ h => h, fun _ _ _ h => h, fun _ h => h, rfl⟩

theorem TokenRely.trans {t : Thread} {a b c : State} (h1 : TokenRely t a b)
    (h2 : TokenRely t b c) : TokenRely t a c where
  uids u h := h2.uids u (h1.uids u h)
  anchors x u hx h := h1.anchors x u hx (h2.anchors x u (h1.uids x hx) h)
  reviewed b h := h2.reviewed b (h1.reviewed b h)
  looked := h2.looked.trans h1.looked

/-- **The specification of the threads.** -/
def tokenSpec (payload : Payload) : Spec Thread ClientOp State where
  Inv := TokenInv payload
  Pre := TokenPre
  Rely := TokenRely
  Idle _ _ := True

variable {payload : Payload} {s s' : State} {t : Thread}

/-! ## 2. Keys and uids -/

theorem secretKey_inj {k k' : ObjectKey} (h : secretKey k = secretKey k') : k = k' := by
  have hns : (secretKey k).namespace_ = (secretKey k').namespace_ := by rw [h]
  have hname : (secretKey k).name = (secretKey k').name := by rw [h]
  have hsuffix : cutSuffix (k.name ++ execSecretSuffix) execSecretSuffix = some k'.name :=
    cutSuffix_eq_some.mpr hname
  rw [cutSuffix_eq_some.mpr rfl] at hsuffix
  obtain ⟨ns, name⟩ := k
  obtain ⟨ns', name'⟩ := k'
  cases hns
  cases hsuffix
  rfl

variable {key : ObjectKey} {v : Thread} {b : BoundSecret} {uid : String} {f : Choice} {o : ClientOp}
  {r : o.Ans}

theorem nameFree_secret (h : nameFree s key = true) : s.secrets (secretKey key) = none := by
  exact Option.isNone_iff_eq_none.mp (Bool.and_eq_true_iff.mp h).1

theorem nameFree_reviewed (h : nameFree s key = true) (hb : (v, b) ∈ s.reviewed) :
    boundKey b ≠ secretKey key := by
  have hall := List.all_eq_true.mp (Bool.and_eq_true_iff.mp h).2 (v, b) hb
  simpa using hall

/-- New uids keep what was right. -/
theorem Right.grow {claim : Option MicroVMClaim} {vmUID : String} (h : Right s b claim vmUID)
    (hu : ∀ u ∈ s.uids, u ∈ s'.uids)
    (ha : ∀ x u, x ∈ s.uids → (x, u) ∈ s'.anchors → (x, u) ∈ s.anchors) :
    Right s' b claim vmUID where
  known := hu _ h.known
  own u hx := h.own u (ha _ u h.known hx)

theorem Opens.grow (h : Opens s b) (hu : ∀ u ∈ s.uids, u ∈ s'.uids)
    (ha : ∀ x u, x ∈ s.uids → (x, u) ∈ s'.anchors → (x, u) ∈ s.anchors)
    (hc : ∀ k c', secretKey k = boundKey b → s'.claims k = some c' →
      ∃ c, s.claims k = some c ∧ c.uid = c'.uid) : Opens s' b where
  known := hu _ h.known
  own k c' u hk hc' hx := by
    obtain ⟨c, hcl, huid⟩ := hc k c' hk hc'
    rw [← huid]
    exact h.own k c u hk hcl (ha _ u h.known hx)

/-- A fresh uid is the uid of no Secret. -/
theorem anchors_fresh {owner : String} (hfresh : uid ∉ s.uids) (x u : String) (hx : x ∈ s.uids)
    (h : (x, u) ∈ (uid, owner) :: s.anchors) : (x, u) ∈ s.anchors := by
  rcases List.mem_cons.mp h with he | h
  · cases he
    exact absurd hx hfresh
  · exact h

/-! ## 3. What a step does -/

section Kept

variable (hI : TokenInv payload s)
include hI

/-- **A step that adds no claim, no Secret and no request** keeps the invariant. -/
theorem TokenInv.shrink
    (hclaims : ∀ k c', s'.claims k = some c' → ∃ c, s.claims k = some c ∧ c.uid = c'.uid)
    (hsecrets : ∀ k x, s'.secrets k = some x → s.secrets k = some x)
    (hissued : s'.issued = s.issued) (huids : s'.uids = s.uids) (hanchors : s'.anchors = s.anchors)
    (hreviewed : ∀ x ∈ s'.reviewed, x ∈ s.reviewed) (haccepted : s'.accepted = s.accepted) :
    TokenInv payload s' := by
  have hu : ∀ u ∈ s.uids, u ∈ s'.uids := fun u h => by rw [huids]; exact h
  have ha : ∀ x u, x ∈ s.uids → (x, u) ∈ s'.anchors → (x, u) ∈ s.anchors := fun x u _ h => by
    rw [← hanchors]
    exact h
  refine ⟨fun k x h => ?_, ?_, ?_, fun k x c' hx hc' => ?_, ?_, fun v b hb => ?_, fun a h => ?_⟩
  · rw [hanchors]
    exact hI.stored k x (hsecrets k x h)
  · rw [hanchors, huids]
    exact hI.anchored
  · rw [hanchors]
    exact hI.once
  · obtain ⟨c, hc, huid⟩ := hclaims k c' hc'
    rw [← huid]
    exact hI.own k x c (hsecrets _ x hx) hc
  · rw [hissued]
    exact hI.issued
  · exact (hI.reviewed v b (hreviewed _ hb)).grow hu ha fun k c' _ => hclaims k c'
  · rw [haccepted] at h
    exact (hI.accepted a h).grow hu ha

/-- A new claim, where nothing of an earlier one of its name is left. -/
theorem TokenInv.addClaim {spec : MicroVMClaimSpec} (hfree : nameFree s key = true) :
    TokenInv payload (s.addClaim key uid spec) := by
  have hu : ∀ u ∈ s.uids, u ∈ uid :: s.uids := fun u h => List.mem_cons_of_mem _ h
  refine ⟨hI.stored, fun x u h => hu x (hI.anchored x u h), hI.once, fun k x c hx hc => ?_,
    hI.issued, fun v b hb => ?_, fun a h => (hI.accepted a h).grow hu fun _ _ _ h => h⟩
  · rcases update_cases hc with ⟨rfl, _⟩ | ⟨_, hc⟩
    · have hnone := nameFree_secret hfree
      simp [show s.secrets (secretKey k) = some x from hx] at hnone
    · exact hI.own k x c hx hc
  · refine (hI.reviewed v b hb).grow hu (fun _ _ _ h => h) fun k c hk hc => ?_
    rcases update_cases hc with ⟨rfl, _⟩ | ⟨_, hc⟩
    · exact absurd hk.symm (nameFree_reviewed hfree hb)
    · exact ⟨c, hc, rfl⟩

/-- **A claim's Secret**, made while the claim is stored. -/
theorem TokenInv.addSecret {ns claim owner : String} (hfresh : uid ∉ s.uids)
    (hclaim : ((s.claims ⟨ns, claim⟩).any fun c => c.uid = owner) = true) :
    TokenInv payload { s with
      secrets := Function.update s.secrets ⟨ns, execSecretName claim⟩
        (some ⟨ns, execSecretName claim, uid, claim, owner⟩)
      uids := uid :: s.uids
      anchors := (uid, owner) :: s.anchors } := by
  have hu : ∀ u ∈ s.uids, u ∈ uid :: s.uids := fun u h => List.mem_cons_of_mem _ h
  have ha : ∀ x u, x ∈ s.uids → (x, u) ∈ (uid, owner) :: s.anchors → (x, u) ∈ s.anchors :=
    anchors_fresh hfresh
  refine ⟨fun k x h => ?_, fun x u h => ?_, fun x u v h1 h2 => ?_, fun k x c hx hc => ?_,
    hI.issued, fun v b hb => ?_, fun a h => (hI.accepted a h).grow hu ha⟩
  · rcases update_cases h with ⟨_, hx⟩ | ⟨_, hx⟩
    · cases hx
      exact List.mem_cons_self
    · exact List.mem_cons_of_mem _ (hI.stored k x hx)
  · rcases List.mem_cons.mp h with he | h
    · cases he
      exact List.mem_cons_self
    · exact hu x (hI.anchored x u h)
  · rcases List.mem_cons.mp h1 with he1 | h1
    · cases he1
      rcases List.mem_cons.mp h2 with he2 | h2
      · cases he2
        rfl
      · exact absurd (hI.anchored _ _ h2) hfresh
    · exact hI.once x u v h1 (ha x v (hI.anchored x u h1) h2)
  · rcases update_cases hx with ⟨hk, hx⟩ | ⟨_, hx⟩
    · cases hx
      have hkey : k = ⟨ns, claim⟩ := secretKey_inj hk
      subst hkey
      obtain ⟨c', hc', huid⟩ := (Option.any_eq_true ..).mp hclaim
      rw [show s.claims ⟨ns, claim⟩ = some c from hc] at hc'
      cases hc'
      exact of_decide_eq_true huid
    · exact hI.own k x c hx hc
  · exact (hI.reviewed v b hb).grow hu ha fun k c _ hc => ⟨c, hc, rfl⟩

/-- A claim that is changed in its place, or goes. -/
theorem TokenInv.setClaim {c : MicroVMClaim} {v : Option MicroVMClaim} (hc : s.claims key = some c)
    (hv : ∀ c', v = some c' → c'.uid = c.uid) : TokenInv payload (s.setClaim key v) := by
  refine hI.shrink (fun k c' h => ?_) (fun _ _ hx => hx) rfl rfl rfl (fun _ hx => hx) rfl
  rcases update_cases h with ⟨rfl, hx⟩ | ⟨_, hx⟩
  · exact ⟨c, hc, (hv c' hx).symm⟩
  · exact ⟨c', hx, rfl⟩

theorem TokenInv.remove {c : MicroVMClaim} (hc : s.claims key = some c) :
    TokenInv payload (s.remove key c) := by
  unfold State.remove
  split
  · exact hI.setClaim hc fun c' hc' => by cases hc'
  · split
    · exact hI
    · exact hI.setClaim hc fun c' hc' => by cases hc'; rfl

end Kept

theorem remove_rely (t : Thread) (s : State) (key : ObjectKey) (c : MicroVMClaim) :
    TokenRely t s (s.remove key c) := by
  unfold State.remove
  split
  · exact { TokenRely.refl t s with }
  · split <;> exact { TokenRely.refl t s with }

section Steps

variable (hI : TokenInv payload s)
include hI

/-- **What a TokenReview says of the claim a lookup will find.** -/
theorem review_opens {token : String} {audiences : List String}
    (hauth : (s.review token audiences).authenticated = true)
    (hb : boundSecret payload token (s.review token audiences).user = some b) : Opens s b := by
  have hfound : ∃ i ∈ s.issued, i.text = token ∧ s.bindable i.claims = true := by
    unfold State.review at hauth
    split at hauth
    · cases hauth
    next i hi =>
      split at hauth
      next hbind =>
        exact ⟨i, List.mem_of_find?_eq_some hi, by simpa using List.find?_some hi, hbind⟩
      · cases hauth
  obtain ⟨i, hi, htext, hbind⟩ := hfound
  obtain ⟨claims, sc, hclaims, hsc, _, rfl⟩ := boundSecret_eq_some payload hb
  have heq : i.claims = claims := by
    have hx := hI.issued i hi
    rw [htext, hclaims] at hx
    exact (Option.some.inj hx).symm
  subst heq
  have hhas : s.hasSecret i.claims.namespace_ sc = true := by
    simpa [State.bindable, hsc] using hbind
  obtain ⟨x, hx, huid⟩ := (Option.any_eq_true ..).mp hhas
  have huid' : x.uid = sc.uid := of_decide_eq_true huid
  have hanchor : (sc.uid, x.ownerUID) ∈ s.anchors := by
    rw [← huid']
    exact hI.stored _ x hx
  refine ⟨hI.anchored _ _ hanchor, fun k c u hk hc hu => ?_⟩
  rw [hI.once _ u x.ownerUID hu hanchor]
  exact hI.own k x c (by rw [hk]; exact hx) hc

/-! ### Every step -/

/-- What the invariant speaks about is the same. -/
theorem TokenInv.same (hc : s'.claims = s.claims) (hs : s'.secrets = s.secrets)
    (hi : s'.issued = s.issued) (hu : s'.uids = s.uids) (ha : s'.anchors = s.anchors)
    (hr : s'.reviewed = s.reviewed) (hacc : s'.accepted = s.accepted) : TokenInv payload s' :=
  hI.shrink (fun k c h => ⟨c, by rw [← hc]; exact h, rfl⟩) (fun k x hx => by rw [← hs]; exact hx)
    hi hu ha (fun x hx => by rw [← hr]; exact hx) hacc

theorem issue_inv {token : IssuedToken}
    (htoken : tokenClaims payload token.text = some token.claims) :
    TokenInv payload (s.issue token) :=
  { hI with
    issued := fun i hi => by
      rcases List.mem_cons.mp hi with rfl | hi
      · exact htoken
      · exact hI.issued i hi
    reviewed := fun v b hb => (hI.reviewed v b hb).grow (fun _ h => h) (fun _ _ _ h => h)
      fun _ c _ hc => ⟨c, hc, rfl⟩
    accepted := fun a ha => (hI.accepted a ha).grow (fun _ h => h) fun _ _ _ h => h }

/-- A request past its TokenReview. -/
theorem markReviewed_inv {secret : Option BoundSecret} (hs : ∀ b, secret = some b → Opens s b) :
    TokenInv payload (s.markReviewed t secret) := by
  have hother : ∀ v b, (v, b) ∈ (s.reviewed.filter fun x => x.1 ≠ t) → Opens s b := fun v b hb =>
    hI.reviewed v b (List.mem_of_mem_filter hb)
  have hall : ∀ v b, (v, b) ∈ (s.markReviewed t secret).reviewed → Opens s b := by
    intro v b hb
    unfold State.markReviewed at hb
    cases secret with
    | none => exact hother v b hb
    | some b' =>
      rcases List.mem_cons.mp hb with he | hb
      · cases he
        exact hs b rfl
      · exact hother v b hb
  exact { hI with
    reviewed := fun v b hb => (hall v b hb).grow (fun _ h => h) (fun _ _ _ h => h)
      fun _ c _ hc => ⟨c, hc, rfl⟩
    accepted := fun a ha => (hI.accepted a ha).grow (fun _ h => h) fun _ _ _ h => h }

/-- A request that ends is run on the claim its token is for. -/
theorem finish_inv {granted : Option (BoundSecret × String)} (hreq : t.isRequest = true)
    (hpre : TokenPre t (.finish granted) s) : TokenInv payload (s.finish t granted) := by
  have hall : ∀ a ∈ (s.finish t granted).accepted, Right s a.secret a.claim a.vmUID := by
    intro a ha
    cases granted with
    | none => exact hI.accepted a ha
    | some g =>
      rcases List.mem_cons.mp ha with rfl | ha
      · exact hpre hreq
      · exact hI.accepted a ha
  exact { hI with
    reviewed := fun v b hb => (hI.reviewed v b (List.mem_of_mem_filter hb)).grow (fun _ h => h)
      (fun _ _ _ h => h) fun _ c _ hc => ⟨c, hc, rfl⟩
    accepted := fun a ha => (hall a ha).grow (fun _ h => h) fun _ _ _ h => h }

/-- **One operation keeps the invariant**, under the condition. -/
theorem exec_inv (hok : okExec t f o s = true) (hpre : TokenPre t o s)
    (h : exec payload t f o s = some (r, s')) : TokenInv payload s' := by
  cases exec_effect h with
  | none => exact hI
  | claimed _ _ _ pool sa key hkey =>
    subst hkey
    have hA : TokenInv payload (s.addClaim _ f.uid ⟨pool, none, sa⟩) := hI.addClaim hok
    exact hA.same rfl rfl rfl rfl rfl rfl rfl
  | anchored _ _ _ hfresh => exact hI.addSecret hfresh hok
  | renewed _ _ _ c hc => exact hI.setClaim hc fun c' hc' => by cases hc'; rfl
  | deleted _ _ c hc => exact (hI.remove hc).same rfl rfl rfl rfl rfl rfl rfl
  | issued _ _ _ _ _ htoken => exact issue_inv hI htoken
  | started | changed => exact hI.same rfl rfl rfl rfl rfl rfl rfl
  | reviewed _ _ _ hs =>
    exact markReviewed_inv hI fun b hb => review_opens hI (hs b hb).1 (hs b hb).2
  | looked key =>
    exact hI.shrink (fun _ c hc => ⟨c, hc, rfl⟩) (fun _ _ hx => hx) rfl rfl rfl
      (fun _ hx => List.mem_of_mem_filter hx) rfl
  | finished granted hreq => exact finish_inv hI hreq hpre

end Steps

/-- What is marked for one thread is not another's. -/
theorem filter_other (hne : v ≠ t) (hb : (t, b) ∈ s.reviewed) :
    (t, b) ∈ s.reviewed.filter fun x => x.1 ≠ v :=
  List.mem_filter.mpr ⟨hb, by simpa using hne.symm⟩

/-- **One operation of another thread leaves alone what a thread relies on.** -/
theorem exec_rely (hne : v ≠ t) (h : exec payload v f o s = some (r, s')) : TokenRely t s s' := by
  cases exec_effect h with
  | none => exact .refl t s
  | claimed => exact { TokenRely.refl t s with uids := fun _ h => List.mem_cons_of_mem _ h }
  | anchored _ _ _ hfresh =>
    exact { TokenRely.refl t s with
      uids := fun _ h => List.mem_cons_of_mem _ h, anchors := anchors_fresh hfresh }
  | deleted key _ c => exact (remove_rely t s key c).trans { TokenRely.refl t _ with }
  | reviewed _ _ secret =>
    refine { TokenRely.refl t s with reviewed := fun b hb => ?_ }
    simp only [State.markReviewed]
    split
    · exact List.mem_cons_of_mem _ (filter_other hne hb)
    · exact filter_other hne hb
  | looked key =>
    exact { TokenRely.refl t s with
      reviewed := fun b hb => filter_other hne hb
      looked := Function.update_of_ne hne.symm .. }
  | finished granted =>
    exact { TokenRely.refl t s with reviewed := fun b hb => filter_other hne hb }
  | renewed | issued | started | changed => exact { TokenRely.refl t s with }

theorem env_inv {a : ClientAct} (hI : TokenInv payload s) (hok : okEnv a s = true)
    (h : env payload a s = some s') : TokenInv payload s' := by
  cases a with
  | tick | setPool =>
    cases h
    exact hI.same rfl rfl rfl rfl rfl rfl rfl
  | createClaim key uid spec =>
    obtain ⟨-, h⟩ := Option.ite_none_right_eq_some.mp h
    cases h
    exact hI.addClaim hok
  | deleteClaim key =>
    obtain ⟨c, hc, rfl⟩ := Option.map_eq_some_iff.mp h
    exact (hI.remove hc).same rfl rfl rfl rfl rfl rfl rfl
  | changeClaim key finalizers spec status =>
    obtain ⟨c, hc, rfl⟩ := Option.map_eq_some_iff.mp h
    unfold State.changeClaim
    split
    · exact hI.setClaim hc fun c' hc' => by cases hc'
    · exact (hI.setClaim (v := some _) hc fun c' hc' => by cases hc'; rfl).same
        rfl rfl rfl rfl rfl rfl rfl
  | removeSecret key =>
    cases h
    refine hI.shrink (fun _ c hc => ⟨c, hc, rfl⟩) (fun k x hx => ?_) rfl rfl rfl
      (fun _ hx => hx) rfl
    rcases update_cases hx with ⟨_, hx⟩ | ⟨_, hx⟩
    · cases hx
    · exact hx
  | issue token =>
    obtain ⟨htoken, h⟩ := Option.ite_none_right_eq_some.mp h
    cases h
    exact issue_inv hI htoken.1

theorem env_rely {a : ClientAct} (h : env payload a s = some s') : TokenRely t s s' := by
  cases a with
  | tick n | removeSecret key | setPool key interval =>
    cases h
    exact { TokenRely.refl t s with }
  | createClaim key uid spec =>
    obtain ⟨-, h⟩ := Option.ite_none_right_eq_some.mp h
    cases h
    exact { TokenRely.refl t s with uids := fun _ h => List.mem_cons_of_mem _ h }
  | deleteClaim key =>
    obtain ⟨c, _, rfl⟩ := Option.map_eq_some_iff.mp h
    exact (remove_rely t s key c).trans { TokenRely.refl t _ with }
  | changeClaim key finalizers spec status =>
    obtain ⟨c, hc, rfl⟩ := Option.map_eq_some_iff.mp h
    unfold State.changeClaim
    split <;> exact { TokenRely.refl t s with }
  | issue token =>
    obtain ⟨-, h⟩ := Option.ite_none_right_eq_some.mp h
    cases h
    exact { TokenRely.refl t s with }

end BatteryOperator.ClaimClient.Tokens
