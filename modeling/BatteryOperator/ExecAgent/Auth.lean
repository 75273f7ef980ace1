/-
  Subject:   Who a request authenticates as (internal/execagent/auth.go).

  `authenticate` asks the API server for a TokenReview; what the token is bound to is read
  afterwards from the token itself. A ServiceAccount token is a JWT; what base64 and JSON decoding
  make of its middle part is the parameter `payload`.

  * `authenticate` is written over any monad in which the review is made, so that the same text is
    a step of the machine and a function of the review's answer;
  * `reviewed_ok_iff` -- **what a review is accepted on**; `boundSecret_eq_some` -- **what the
    token's Secret is read from**.
-/
import BatteryOperator.ExecAgent.Claims

namespace BatteryOperator.ExecAgent

/-! ## 1. What a review answers -/

/-- `authenticationv1.UserInfo`, as far as the agent reads it. -/
structure UserInfo where
  username : String
  extra : List (String × List String)
  deriving DecidableEq

/-- `authenticationv1.TokenReviewStatus`. -/
structure TokenReviewStatus where
  authenticated : Bool
  user : UserInfo
  audiences : List String
  error : String
  deriving DecidableEq

/-- The claim `kubernetes.io.secret` of a token. -/
structure SecretClaim where
  name : String
  uid : String
  deriving DecidableEq

/-- `serviceAccountClaims`. -/
structure ServiceAccountClaims where
  subject : String
  id : String
  namespace_ : String
  secret : Option SecretClaim
  deriving DecidableEq

/-- `credentialIDExtra`. -/
def credentialIDExtra : String := "authentication.kubernetes.io/credential-id"

/-- Why a request does not authenticate: an error that wraps `errUnauthenticated`, or a
    `reviewError`. -/
inductive AuthnError where
  | unauthenticated (why : String)
  | review (err : String)
  deriving DecidableEq

/-- `Error`. -/
def AuthnError.text : AuthnError → String
  | .unauthenticated why => "the request does not authenticate: " ++ why
  | .review err => "reviewing the bearer token: " ++ err

/-! ## 2. The token -/

/-- `bearerToken`, of the values of the header `authorization`. -/
def bearerToken : List String → Except AuthnError String
  | [] => .error (.unauthenticated "no bearer token")
  | [value] =>
    match cut value ' ' with
    | none => .error (.unauthenticated "the authorization header is not a bearer token")
    | some (scheme, rest) =>
      if equalFold scheme "bearer" = false ∨ trimSpace rest = "" then
        .error (.unauthenticated "the authorization header is not a bearer token")
      else .ok (trimSpace rest)
  | _ :: _ :: _ => .error (.unauthenticated "more than one authorization header")

/-- What the middle part of a token decodes to. -/
abbrev Payload := String → Option ServiceAccountClaims

section Payload

variable (payload : Payload)

/-- The claims of a token. -/
def tokenClaims (token : String) : Option ServiceAccountClaims :=
  match split token '.' with
  | [_, middle, _] => payload middle
  | _ => none

/-- The ids a review reports for a token. -/
def UserInfo.credentialIDs (user : UserInfo) : List String :=
  ((user.extra.find? fun e => e.1 = credentialIDExtra).map Prod.snd).getD []

/-- `boundSecret`: the Secret a reviewed token is bound to, as its own claims name it. -/
def boundSecret (token : String) (user : UserInfo) : Option BoundSecret :=
  match tokenClaims payload token with
  | none => none
  | some claims =>
    if claims.subject = "" ∨ claims.subject ≠ user.username then none
    else if user.credentialIDs ≠ [] ∧ ("JTI=" ++ claims.id) ∉ user.credentialIDs then none
    else
      match claims.secret with
      | none => none
      | some s =>
        if s.name = "" ∨ s.uid = "" ∨ claims.namespace_ = "" then none
        else some ⟨claims.namespace_, s.name, s.uid⟩

/-- **What a token's Secret is read from**: the token's own claims. -/
theorem boundSecret_eq_some {token : String} {user : UserInfo} {b : BoundSecret}
    (h : boundSecret payload token user = some b) :
    ∃ claims s, tokenClaims payload token = some claims ∧ claims.secret = some s ∧
      claims.subject = user.username ∧ b = ⟨claims.namespace_, s.name, s.uid⟩ := by
  unfold boundSecret at h
  split at h
  · cases h
  next claims hc =>
    split at h
    · cases h
    next hsub =>
      split at h
      · cases h
      · split at h
        · cases h
        next s hs =>
          split at h
          · cases h
          · have hb : (⟨claims.namespace_, s.name, s.uid⟩ : BoundSecret) = b := Option.some.inj h
            have hu : claims.subject = user.username :=
              Classical.byContradiction fun hne => hsub (.inr hne)
            exact ⟨claims, s, hc, hs, hu, hb.symm⟩

/-! ## 3. The review -/

/-- `authenticate`, over the review's status. -/
def reviewed (audiences : List String) (token : String) (st : TokenReviewStatus) :
    Except AuthnError Caller :=
  if st.error ≠ "" ∧ st.authenticated = false then .error (.unauthenticated st.error)
  else if st.authenticated = false then .error (.unauthenticated "the token is not valid")
  else if st.user.username = "" then .error (.unauthenticated "the token names no user")
  else
    match audiences.find? fun want => want ∉ st.audiences with
    | some want =>
      .error (.unauthenticated ("the token is not for audience " ++ quote want))
    | none => .ok ⟨st.user.username, boundSecret payload token st.user⟩

/-- **What a review is accepted on.** -/
theorem reviewed_ok_iff {audiences : List String} {token : String} {st : TokenReviewStatus}
    {caller : Caller} :
    reviewed payload audiences token st = .ok caller ↔
      st.authenticated = true ∧ st.user.username ≠ "" ∧ (∀ want ∈ audiences, want ∈ st.audiences) ∧
        caller = ⟨st.user.username, boundSecret payload token st.user⟩ := by
  have hfind : (audiences.find? fun want => decide (want ∉ st.audiences)) = none ↔
      ∀ want ∈ audiences, want ∈ st.audiences := by
    simp [List.find?_eq_none]
  unfold reviewed
  constructor
  · intro h
    split at h
    · cases h
    · split at h
      · cases h
      next hauth =>
        split at h
        · cases h
        next huser =>
          split at h
          · cases h
          next hall =>
            have hc : (⟨st.user.username, boundSecret payload token st.user⟩ : Caller) = caller :=
              Except.ok.inj h
            exact ⟨eq_true_of_ne_false hauth, huser, hfind.mp hall, hc.symm⟩
  · intro h
    obtain ⟨hauth, huser, hall, rfl⟩ := h
    have hval : ¬ (st.authenticated = false) := by simp [hauth]
    rw [if_neg (fun h => hval h.2), if_neg hval, if_neg huser, hfind.mpr hall]

/-- **`authenticate`**, with the header's values and the review the API server makes. -/
def authenticate {m : Type → Type} [Monad m] (audiences : List String)
    (review : String → List String → m (Except String TokenReviewStatus)) (values : List String) :
    m (Except AuthnError Caller) :=
  match bearerToken values with
  | .error err => pure (.error err)
  | .ok token =>
    if audiences = [] then
      pure (.error (.review "the exec agent has no token audience configured"))
    else do
      match ← review token audiences with
      | .error err => pure (.error (.review err))
      | .ok st => pure (reviewed payload audiences token st)

end Payload

end BatteryOperator.ExecAgent
