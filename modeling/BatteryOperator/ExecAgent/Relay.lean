/-
  Subject:   What holds of a request of the exec API in every interleaving of its goroutines.

  The two directions of the relay are apart. What is taken off the caller's stream and put on
  flintlockd's is handed from goroutine to goroutine: only the holder changes it (`RequestView`).
  What comes back is the receiving loop's alone (`AnswerView`).

  * `stored_passes_iff` -- **the claim that the token's Secret names is the only one that could pass
    `Authorize`**, so that to look up one is to look through all of them;
  * `RequestInv`, `AnswerInv` -- the invariants of the two directions;
  * `Pre`, `Rely`, `Idle` -- what a goroutine owes before an operation, and what it may count on;
  * `Effect` -- **what an operation under its duty does**: the holder changes the caller's
    direction, the receiving loop flintlockd's, and nobody both (`exec_effect`).
-/
import BatteryOperator.ExecAgent.Exchange
import BatteryOperator.Lib.RelyGuarantee

namespace BatteryOperator.ExecAgent.Relay

open Lib

/-! ## 1. The one claim that could pass -/

/-- Some stored claim passes every condition of `Authorize`. -/
def SomePasses (stored : StoredClaims) (caller : Caller) (vmUID hostNode : String) (now : Time) :
    Prop :=
  ∃ key c, stored.get key = some c ∧ authorize (claimOf c) caller vmUID hostNode now = .ok ()

variable {stored : StoredClaims} {caller : Caller} {vmUID hostNode : String} {now : Time}
  {t : Thread}

theorem kubeClaim_read {ns name : String} {c : Claim}
    (h : kubeClaim stored.read ns name = .ok (some c)) :
    ∃ o, stored.get ⟨ns, name⟩ = some o ∧ c = claimOf o := by
  unfold kubeClaim StoredClaims.read at h
  cases ho : stored.get ⟨ns, name⟩ with
  | none =>
    rw [ho] at h
    simp [ApiError.isNotFound] at h
  | some o =>
    rw [ho] at h
    cases h
    exact ⟨o, rfl, rfl⟩

/-- **`authorizeClaim` grants exactly if some stored claim passes `Authorize`.** -/
theorem stored_passes_iff :
    authorizeClaim (kubeClaim stored.read) caller vmUID hostNode now = .ok () ↔
      SomePasses stored caller vmUID hostNode now := by
  rw [authorizeClaim_ok_iff]
  constructor
  · intro h
    obtain ⟨s, name, c, _, _, _, hread, hauth⟩ := h
    obtain ⟨o, ho, rfl⟩ := kubeClaim_read hread
    exact ⟨_, o, ho, hauth⟩
  · intro h
    obtain ⟨key, c, hc, hauth⟩ := h
    -- a claim that passes is the one whose Secret the token is bound to
    obtain ⟨_, ⟨s, hs, hns, hname, _⟩, _⟩ := authorize_ok_iff.mp hauth
    obtain ⟨hkey, hne⟩ := stored.keyed key c hc
    have hstored : stored.get ⟨s.namespace_, c.name⟩ = some c := by
      rw [hns]
      show stored.get c.key = some c
      rw [hkey]
      exact hc
    refine ⟨s, c.name, claimOf c, hs, hname, ?_, ?_, hauth⟩
    · intro hempty
      exact hne (by rw [← hkey]; exact hempty)
    · unfold kubeClaim StoredClaims.read
      rw [hstored]

/-- What an authorization decided is right: it was granted only if some claim stored at its moment
    passes, and it was granted if one does and the lookup was answered. -/
structure Decision.Right (hostNode : String) (d : Decision) : Prop where
  only : d.outcome = .ok () → SomePasses d.stored d.caller d.vmUID hostNode d.now
  always : d.answered = true → SomePasses d.stored d.caller d.vmUID hostNode d.now →
    d.outcome = .ok ()

/-- A lookup that was not needed. -/
theorem right_of_unnamed (hkey : lookupKey caller vmUID = none) :
    Decision.Right hostNode ⟨caller, vmUID, now,
      authorizeClaim (fun _ _ => .ok none) caller vmUID hostNode now, stored, true⟩ := by
  have heq : authorizeClaim (fun _ _ => .ok none) caller vmUID hostNode now =
      authorizeClaim (kubeClaim stored.read) caller vmUID hostNode now := by
    rw [authorizeClaim_lookup (kubeClaim stored.read), hkey]
  exact ⟨fun h => stored_passes_iff.mp (heq.symm.trans h),
    fun _ h => heq.trans (stored_passes_iff.mpr h)⟩

/-- A lookup that was made. -/
theorem right_of_lookup {key : ObjectKey} (f : ApiFault)
    (hkey : lookupKey caller vmUID = some key) :
    Decision.Right hostNode ⟨caller, vmUID, now,
      authorizeClaim (kubeClaim fun _ => f.read (stored.read key)) caller vmUID hostNode now,
      stored, decide (f = .none)⟩ := by
  cases f with
  | none =>
    have heq : authorizeClaim (kubeClaim fun _ => ApiFault.none.read (stored.read key)) caller
          vmUID hostNode now =
        authorizeClaim (kubeClaim stored.read) caller vmUID hostNode now := by
      rw [authorizeClaim_lookup (kubeClaim stored.read),
        authorizeClaim_lookup (kubeClaim fun _ => _), hkey]
      rfl
    exact ⟨fun h => stored_passes_iff.mp (heq.symm.trans h),
      fun _ h => heq.trans (stored_passes_iff.mpr h)⟩
  | failed applied text =>
    refine ⟨fun h => ?_, nofun⟩
    simp only at h
    obtain ⟨_, _, _, _, _, _, hread, _⟩ := authorizeClaim_ok_iff.mp h
    cases hread

/-! ## 2. The two directions -/

/-- The ExecStarts among the messages. -/
def starts (l : List ExecCommandRequest) : List ExecStart :=
  l.filterMap ExecCommandRequest.getStart

/-- The request's authorization for this MicroVM succeeded. -/
def Granted (s : Exchange) (uid : String) : Prop :=
  ∃ d, s.decision = some d ∧ d.outcome = .ok () ∧ d.vmUID = uid

/-- What the goroutines hand on to one another: what the agent took off the caller's stream, what
    it put on flintlockd's, and whose turn it is. -/
structure RequestView where
  accepted : Bool
  got : List ExecCommandRequest
  sent : List ExecCommandRequest
  toOpen : Option ExecCommandRequest
  done : Option (Except String Unit)
  forward : Loop
  holder : Thread

/-- What the receiving loop works on. -/
structure AnswerView where
  got : List ExecCommandResponse
  sent : List ExecCommandResponse
  receive : Loop
  ended : Option Status

def Exchange.requestView (s : Exchange) : RequestView :=
  ⟨s.accepted, s.requests.got, s.up.sent, s.toOpen, s.done, s.forward, s.holder⟩

def Exchange.answerView (s : Exchange) : AnswerView :=
  ⟨s.answers.got, s.down.sent, s.receive, s.ended⟩

/-- The request has not begun. -/
def RequestView.initial : RequestView := ⟨false, [], [], none, none, .waiting, .handler⟩

/-- The handler has begun, and has taken these messages off the caller's stream. -/
def RequestView.begun (got : List ExecCommandRequest) : RequestView :=
  ⟨true, got, [], none, none, .waiting, .handler⟩

/-- The messages are an ExecStart for a MicroVM that was `granted`, and no other. -/
def Opens (granted : String → Prop) (l : List ExecCommandRequest) : Prop :=
  ∃ st rest, l = .start st :: rest ∧ granted st.uid ∧ starts rest = []

/-- **The caller's direction.** -/
structure RequestInv (granted : String → Prop) (v : RequestView) : Prop where
  fresh : v.accepted = false → v = .initial
  relays : v.sent <+: v.got
  opens : v.sent = [] ∨ Opens granted v.sent
  opening : ∀ first, v.toOpen = some first → v.holder = .opener ∧ v.got = [first] ∧ v.sent = [] ∧
    ∃ st, first = .start st ∧ granted st.uid
  opened : ∀ r, v.done = some r → v.holder = .handler ∧
    (r = .ok () → v.got = v.sent ∧ v.sent ≠ [])
  forwards : v.forward = .running → v.holder = .forwarder

/-- No exit code is among the messages. -/
def NoExit (l : List ExecCommandResponse) : Prop := ∀ r ∈ l, r.isExitCode = false

/-- The messages end with their first exit code. -/
def EndsAtExit (l : List ExecCommandResponse) : Prop :=
  ∃ front r, l = front ++ [r] ∧ r.isExitCode = true ∧ NoExit front

theorem NoExit.not_endsAtExit {l : List ExecCommandResponse} (h : NoExit l) : ¬ EndsAtExit l := by
  intro hends
  obtain ⟨front, r, rfl, hr, _⟩ := hends
  have hno := h r (by simp)
  simp [hr] at hno

/-- **flintlockd's direction.** -/
structure AnswerInv (a : AnswerView) : Prop where
  relays : a.sent <+: a.got
  waiting : a.receive = .waiting → a.got = [] ∧ a.sent = []
  going : a.receive ≠ .ended → a.ended = none
  status : ∀ st, a.ended = some st → (st.code = .ok ↔ EndsAtExit a.sent)

/-! ## 3. The specification -/

/-- **The invariant** of a request at this Host. -/
structure Inv (hostNode : String) (s : Exchange) : Prop where
  request : RequestInv (Granted s) s.requestView
  answer : AnswerInv s.answerView
  called : ∀ uid ∈ s.calls, Granted s uid
  right : ∀ d, s.decision = some d → d.Right hostNode
  unheard : s.accepted = false → s.receive = .waiting ∧ s.decision = none ∧ s.moment = none

/-- Only the holder changes the caller's direction, and the forwarder gets it in order. -/
def RequestRely (t : Thread) (v v' : RequestView) : Prop :=
  (v.holder = t → v' = v) ∧
    (t = .forwarder → v.holder ≠ .forwarder → v'.holder = .forwarder →
      v'.got = v'.sent ∧ v'.sent ≠ [])

/-- The others leave flintlockd's direction to the receiving loop once it runs, and to the handler
    before. -/
def AnswerRely (a a' : AnswerView) : Thread → Prop
  | .handler => a.receive = .waiting → a' = a
  | .receiver => a'.got = a.got ∧ a'.sent = a.sent ∧
      (a.receive = .running → a'.receive = .running ∧ a'.ended = a.ended) ∧
      (a'.receive ≠ .ended → a.receive ≠ .ended)
  | _ => True

/-- **What a goroutine may count on.** -/
structure Rely (t : Thread) (s s' : Exchange) : Prop where
  granted : ∀ uid, Granted s uid → Granted s' uid
  decided : t = .handler → s'.decision = s.decision ∧ s'.moment = s.moment
  request : RequestRely t s.requestView s'.requestView
  answer : AnswerRely s.answerView s'.answerView t

/-- **What a goroutine owes before an operation.** -/
def Pre (hostNode : String) (t : Thread) (o : ServerOp) (s : Exchange) : Prop :=
  match t, o with
  | .handler, .accept => True
  | .handler, .tokenReview _ _ => True
  | .handler, .now => True
  | .handler, .lookup _ => s.accepted = true
  | .handler, .judged caller vmUID now outcome => s.accepted = true ∧ s.decision = none ∧
      ∀ d, (s.judge caller vmUID now outcome).decision = some d → d.Right hostNode
  | .handler, .serverInfo => True
  | .handler, .getMicroVM uid => Granted s uid
  | .handler, .recvDown => s.requestView = .begun []
  | .handler, .goOpen first => s.requestView = .begun [first] ∧
      ∃ st, first = .start st ∧ Granted s st.uid
  | .handler, .newTimer _ => True
  | .handler, .select => True
  | .handler, .cancel => True
  | .handler, .goForward => s.holder = .handler ∧ s.done = none ∧ s.requests.got = s.up.sent ∧
      s.up.sent ≠ []
  | .handler, .goReceive => s.receive = .waiting ∧ s.accepted = true
  | .handler, .reply _ => True
  | .handler, .finish st => s.receive = .waiting ∧ s.accepted = true ∧ st.code ≠ .ok
  | .opener, .opening => True
  | .opener, .getMicroVM uid => Granted s uid
  | .opener, .execCommand => True
  | .opener, .sendUp req => s.holder = .opener ∧ s.toOpen = none ∧ s.requests.got = [req] ∧
      s.up.sent = [] ∧ ∃ st, req = .start st ∧ Granted s st.uid
  | .opener, .putDone r => s.holder = .opener ∧ s.toOpen = none ∧
      (r = .ok () → s.requests.got = s.up.sent ∧ s.up.sent ≠ [])
  | .forwarder, .forwarding => True
  | .forwarder, .recvDown => s.holder = .forwarder
  | .forwarder, .closeSend => True
  | .forwarder, .cancel => True
  | .forwarder, .forwarded => s.holder = .forwarder
  | .forwarder, .storeSecondStart => True
  | .forwarder, .sendUp req => s.holder = .forwarder ∧ s.requests.got = s.up.sent ++ [req] ∧
      s.up.sent ≠ [] ∧ req.getStart = none
  | .receiver, .receiving => True
  | .receiver, .recvUp => s.receive = .running
  | .receiver, .loadSecondStart => True
  | .receiver, .ctxErr => True
  | .receiver, .sendDown resp => s.receive = .running ∧ s.answers.got = s.down.sent ++ [resp]
  | .receiver, .finish st => s.receive = .running ∧ (st.code = .ok ↔ EndsAtExit s.down.sent)
  | _, _ => False

/-- A loop between two turns. -/
def Idle (t : Thread) (s : Exchange) : Prop :=
  match t with
  | .forwarder => s.holder = .forwarder → s.forward = .running →
      s.requests.got = s.up.sent ∧ s.up.sent ≠ []
  | .receiver => s.receive ≠ .ended → s.answers.got = s.down.sent ∧ NoExit s.down.sent
  | _ => True

/-- **The specification.** -/
def spec (hostNode : String) : Spec Thread ServerOp Exchange where
  Inv := Inv hostNode
  Pre := Pre hostNode
  Rely := Rely
  Idle := Idle

theorem AnswerRely.refl (a : AnswerView) (t : Thread) : AnswerRely a a t := by
  cases t with
  | handler => exact fun _ => rfl
  | receiver => exact ⟨rfl, rfl, fun h => ⟨h, rfl⟩, fun h => h⟩
  | opener | forwarder => trivial

theorem AnswerRely.trans {a b c : AnswerView} (h1 : AnswerRely a b t) (h2 : AnswerRely b c t) :
    AnswerRely a c t := by
  cases t with
  | handler =>
    intro hw
    have hb : b = a := h1 hw
    subst hb
    exact h2 hw
  | receiver =>
    obtain ⟨hgot, hsent, hrun, hend⟩ := h1
    obtain ⟨hgot', hsent', hrun', hend'⟩ := h2
    refine ⟨hgot'.trans hgot, hsent'.trans hsent, fun hr => ?_, fun hn => hend (hend' hn)⟩
    obtain ⟨hrb, heb⟩ := hrun hr
    obtain ⟨hrc, hec⟩ := hrun' hrb
    exact ⟨hrc, hec.trans heb⟩
  | opener | forwarder => trivial

theorem RequestRely.refl (t : Thread) (v : RequestView) : RequestRely t v v :=
  ⟨fun _ => rfl, fun _ hne hf => absurd hf hne⟩

theorem RequestRely.trans {v v' v'' : RequestView} (h1 : RequestRely t v v')
    (h2 : RequestRely t v' v'') : RequestRely t v v'' := by
  refine ⟨fun hh => ?_, fun ht hne hf => ?_⟩
  · have hv : v' = v := h1.1 hh
    subst hv
    exact h2.1 hh
  · by_cases hmid : v'.holder = .forwarder
    · have hv : v'' = v' := h2.1 (hmid.trans ht.symm)
      subst hv
      exact h1.2 ht hne hf
    · exact h2.2 ht hmid hf

theorem Rely.refl (t : Thread) (s : Exchange) : Rely t s s :=
  ⟨fun _ h => h, fun _ => ⟨rfl, rfl⟩, .refl t _, .refl _ t⟩

theorem Rely.trans {s s' s'' : Exchange} (h1 : Rely t s s') (h2 : Rely t s' s'') :
    Rely t s s'' where
  granted uid hg := h2.granted uid (h1.granted uid hg)
  decided ht :=
    ⟨(h2.decided ht).1.trans (h1.decided ht).1, (h2.decided ht).2.trans (h1.decided ht).2⟩
  request := h1.request.trans h2.request
  answer := h1.answer.trans h2.answer

/-! ## 4. What a change of the caller's direction keeps -/

namespace RequestInv

variable {g g' : String → Prop} {v : RequestView}

theorem mono (h : RequestInv g v) (hle : ∀ uid, g uid → g' uid) : RequestInv g' v :=
  { h with
    opens := by
      rcases h.opens with hnil | ⟨st, rest, hl, hg, hrest⟩
      · exact .inl hnil
      · exact .inr ⟨st, rest, hl, hle _ hg, hrest⟩
    opening first hf := by
      obtain ⟨hh, hgot, hsent, st, hst, hg⟩ := h.opening first hf
      exact ⟨hh, hgot, hsent, st, hst, hle _ hg⟩ }

theorem initial : RequestInv g .initial where
  fresh _ := rfl
  relays := List.nil_prefix
  opens := .inl rfl
  opening _ hf := by cases hf
  opened _ hr := by cases hr
  forwards hf := by cases hf

theorem begun (got : List ExecCommandRequest) : RequestInv g (.begun got) where
  fresh ha := by cases ha
  relays := List.nil_prefix
  opens := .inl rfl
  opening _ hf := by cases hf
  opened _ hr := by cases hr
  forwards hf := by cases hf

/-- The handler hands the first message to `openExec`'s goroutine. -/
theorem hand {first : ExecCommandRequest} {st : ExecStart} (hst : first = .start st)
    (hg : g st.uid) :
    RequestInv g { RequestView.begun [first] with toOpen := some first, holder := .opener } where
  fresh ha := by cases ha
  relays := List.nil_prefix
  opens := .inl rfl
  opening f hf := by
    have hff : first = f := Option.some.inj hf
    subst hff
    exact ⟨rfl, rfl, rfl, st, hst, hg⟩
  opened _ hr := by cases hr
  forwards hf := by cases hf

variable (h : RequestInv g v)
include h

/-- The goroutine takes it. -/
theorem taken {first : ExecCommandRequest} (hf : v.toOpen = some first) :
    RequestInv g { v with toOpen := none } :=
  { h with
    fresh ha := by
      have hv := h.fresh ha
      rw [hv] at hf
      cases hf
    opening _ hn := by cases hn }

/-- A goroutine that holds the streams takes messages off the one or puts some on the other. -/
theorem moved (got sent : List ExecCommandRequest) (hh : v.holder ≠ .handler) (ho : v.toOpen = none)
    (hrel : sent <+: got) (hopens : sent = [] ∨ Opens g sent) :
    RequestInv g { v with got := got, sent := sent } where
  fresh ha := by
    have hv := h.fresh ha
    rw [hv] at hh
    exact absurd rfl hh
  relays := hrel
  opens := hopens
  opening f hf := by
    have hf : v.toOpen = some f := hf
    simp [ho] at hf
  opened r hr := absurd (h.opened r hr).1 hh
  forwards := h.forwards

/-- `openExec`'s goroutine is done. -/
theorem put (hh : v.holder = .opener) (ho : v.toOpen = none) {r : Except String Unit}
    (hr : r = .ok () → v.got = v.sent ∧ v.sent ≠ []) :
    RequestInv g { v with done := some r, holder := .handler } where
  fresh ha := by
    have hv := h.fresh ha
    rw [hv] at hh
    cases hh
  relays := h.relays
  opens := h.opens
  opening f hf := by
    have hf : v.toOpen = some f := hf
    rw [ho] at hf
    cases hf
  opened r' hr' := by
    have hrr : r = r' := Option.some.inj hr'
    subst hrr
    exact ⟨rfl, hr⟩
  forwards hf := by
    have hheld := h.forwards hf
    rw [hh] at hheld
    cases hheld

/-- The handler takes its result. -/
theorem selected {r : Except String Unit} (hd : v.done = some r) :
    RequestInv g { v with done := none } :=
  { h with
    fresh ha := by
      have hv := h.fresh ha
      rw [hv] at hd
      cases hd
    opened _ hn := by cases hn }

/-- The handler hands the streams to the forwarder. -/
theorem forwarding (hh : v.holder = .handler) (hd : v.done = none) (hsent : v.sent ≠ []) :
    RequestInv g { v with forward := .running, holder := .forwarder } where
  fresh ha := by
    have hv := h.fresh ha
    rw [hv] at hsent
    exact absurd rfl hsent
  relays := h.relays
  opens := h.opens
  opening f hf := by
    have hheld := (h.opening f hf).1
    simp [hh] at hheld
  opened r hr := by
    have hr : v.done = some r := hr
    simp [hd] at hr
  forwards _ := rfl

/-- The forwarder returns. -/
theorem forwarded (hh : v.holder = .forwarder) : RequestInv g { v with forward := .ended } :=
  { h with
    fresh ha := by
      have hv := h.fresh ha
      rw [hv] at hh
      cases hh
    forwards hf := by cases hf }

/-- With the forwarder, nothing is left to open. -/
theorem toOpen_none (hh : v.holder = .forwarder) : v.toOpen = none := by
  cases hf : v.toOpen with
  | none => rfl
  | some first =>
    have hheld := (h.opening first hf).1
    simp [hh] at hheld

/-- One message more that is no ExecStart. -/
theorem opens_concat {req : ExecCommandRequest} (hne : v.sent ≠ []) (hreq : req.getStart = none) :
    Opens g (v.sent ++ [req]) := by
  obtain ⟨st, rest, hl, hg, hrest⟩ := h.opens.resolve_left hne
  refine ⟨st, rest ++ [req], by rw [hl]; rfl, hg, ?_⟩
  unfold starts at hrest ⊢
  rw [List.filterMap_append, hrest]
  simp [hreq]

end RequestInv

/-! ## 5. What an operation does -/

/-- Two states that differ in nothing a goroutine counts on. -/
structure Alike (s s' : Exchange) : Prop where
  calls : s'.calls = s.calls
  decision : s'.decision = s.decision
  moment : s'.moment = s.moment

/-- **What goroutine `t` does with an operation under its duty.** -/
inductive Effect (hostNode : String) (t : Thread) (s s' : Exchange) : Prop where
  | quiet (hs : Alike s s') (hr : s'.requestView = s.requestView)
      (ha : s'.answerView = s.answerView)
  | looked (ht : t = .handler) (hacc : s.accepted = true) (m : Option (StoredClaims × Bool))
      (hs : s' = { s with moment := m })
  | judged (ht : t = .handler) (hacc : s.accepted = true) (hnone : s.decision = none)
      (d : Decision) (hd : d.Right hostNode) (hs : s' = { s with decision := some d })
  | called (uid : String) (hg : Granted s uid) (hs : s' = { s with calls := uid :: s.calls })
  | request (held : s.holder = t) (hs : Alike s s') (ha : s'.answerView = s.answerView)
      (hacc : s.accepted = true → s'.accepted = true)
      (hinv : RequestInv (Granted s) s'.requestView)
      (hgiven : s'.holder = .forwarder → s.holder = .forwarder ∨
        (s'.requests.got = s'.up.sent ∧ s'.up.sent ≠ []))
  | answer (hs : Alike s s') (hr : s'.requestView = s.requestView) (hacc : s.accepted = true)
      (hinv : AnswerInv s'.answerView)
      (hwho : (t = .handler ∧ s.receive = .waiting ∧ s'.answers.got = s.answers.got ∧
          s'.down.sent = s.down.sent) ∨ (t = .receiver ∧ s.receive = .running))

variable {hostNode : String} {t u : Thread} {s s' : Exchange}

theorem Granted.same {uid : String} (h : Granted s uid) (hd : s'.decision = s.decision) :
    Granted s' uid := by
  obtain ⟨d, hs, hok⟩ := h
  exact ⟨d, hd.trans hs, hok⟩

namespace Effect

/-- What was granted stays granted. -/
theorem granted (h : Effect hostNode t s s') {uid : String} (hg : Granted s uid) :
    Granted s' uid := by
  cases h with
  | quiet hs | request _ hs | answer hs => exact hg.same hs.decision
  | looked _ _ _ hs | called _ _ hs => exact hg.same (by rw [hs])
  | judged _ _ hnone =>
    obtain ⟨d, hd, _⟩ := hg
    simp [hnone] at hd

/-- The invariant, where neither what was decided nor what was called changed. -/
theorem inv_of_alike (hI : Inv hostNode s) (hs : Alike s s')
    (hr : RequestInv (Granted s) s'.requestView) (ha : AnswerInv s'.answerView)
    (hacc : s'.accepted = false → s.accepted = false ∧ s'.receive = s.receive) :
    Inv hostNode s' where
  request := hr.mono fun _ hg => hg.same hs.decision
  answer := ha
  called uid hu := by
    rw [hs.calls] at hu
    exact (hI.called uid hu).same hs.decision
  right d hd := by
    rw [hs.decision] at hd
    exact hI.right d hd
  unheard hn := by
    obtain ⟨hold, hrec⟩ := hacc hn
    rw [hrec, hs.decision, hs.moment]
    exact hI.unheard hold

/-- **An effect keeps the invariant.** -/
theorem inv (h : Effect hostNode t s s') (hI : Inv hostNode s) : Inv hostNode s' := by
  have hg : ∀ uid, Granted s uid → Granted s' uid := fun _ hg => h.granted hg
  cases h with
  | quiet hs hr ha =>
    refine inv_of_alike hI hs (hr ▸ hI.request) (ha ▸ hI.answer) fun hn => ⟨?_, ?_⟩
    · have hacc : s'.accepted = s.accepted := congrArg RequestView.accepted hr
      exact hacc ▸ hn
    · exact congrArg AnswerView.receive ha
  | looked _ hacc m hs =>
    subst hs
    refine ⟨hI.request.mono hg, hI.answer, hI.called, hI.right, fun hn => ?_⟩
    exact nomatch hacc.symm.trans hn
  | judged _ hacc hnone d hd hs =>
    subst hs
    refine ⟨hI.request.mono hg, hI.answer, fun uid hu => hg uid (hI.called uid hu), ?_, ?_⟩
    · intro d' hd'
      have hdd : d = d' := Option.some.inj hd'
      exact hdd ▸ hd
    · intro hn
      exact nomatch hacc.symm.trans hn
  | called uid hu hs =>
    subst hs
    refine ⟨hI.request.mono hg, hI.answer, fun uid' hu' => ?_, hI.right, hI.unheard⟩
    rcases List.mem_cons.mp hu' with rfl | hu'
    · exact hg _ hu
    · exact hg _ (hI.called uid' hu')
  | request _ hs ha hacc hinv =>
    refine inv_of_alike hI hs hinv (ha ▸ hI.answer) fun hn => ⟨?_, ?_⟩
    · cases hold : s.accepted with
      | false => rfl
      | true => exact nomatch (hacc hold).symm.trans hn
    · exact congrArg AnswerView.receive ha
  | answer hs hr hacc hinv =>
    refine inv_of_alike hI hs (hr ▸ hI.request) hinv fun hn => ?_
    have hsame : s'.accepted = s.accepted := congrArg RequestView.accepted hr
    exact nomatch hacc.symm.trans (hsame.symm.trans hn)

/-- Nothing of either direction changed. -/
theorem rely_of_views (hg : ∀ uid, Granted s uid → Granted s' uid)
    (hd : t = .handler → s'.decision = s.decision ∧ s'.moment = s.moment)
    (hr : s'.requestView = s.requestView) (ha : s'.answerView = s.answerView) : Rely t s s' where
  granted := hg
  decided := hd
  request := hr ▸ .refl t _
  answer := ha ▸ .refl _ t

/-- **An effect of one goroutine is what the others may count on.** -/
theorem rely (h : Effect hostNode u s s') (hne : u ≠ t) : Rely t s s' := by
  have hg : ∀ uid, Granted s uid → Granted s' uid := fun _ hg => h.granted hg
  cases h with
  | quiet hs hr ha => exact rely_of_views hg (fun _ => ⟨hs.decision, hs.moment⟩) hr ha
  | looked hu _ _ hs | judged hu _ _ _ _ hs =>
    subst hs
    exact rely_of_views hg (fun ht => absurd (hu.trans ht.symm) hne) rfl rfl
  | called uid _ hs =>
    subst hs
    exact rely_of_views hg (fun _ => ⟨rfl, rfl⟩) rfl rfl
  | request held hs ha _ _ hgiven =>
    refine ⟨hg, fun _ => ⟨hs.decision, hs.moment⟩, ⟨fun hheld => ?_, fun _ hnf hf => ?_⟩,
      ha ▸ .refl _ t⟩
    · exact absurd (held.symm.trans hheld) hne
    · exact (hgiven hf).resolve_left hnf
  | answer hs hr _ _ hwho =>
    refine ⟨hg, fun _ => ⟨hs.decision, hs.moment⟩, hr ▸ .refl t _, ?_⟩
    rcases hwho with ⟨rfl, hwait, hgot, hsent⟩ | ⟨rfl, hrun⟩
    · -- the handler moves before the loop runs
      cases t with
      | handler => exact absurd rfl hne
      | receiver =>
        refine ⟨hgot, hsent, fun hr' => ?_, fun _ he => ?_⟩
        · exact nomatch hwait.symm.trans hr'
        · exact nomatch hwait.symm.trans he
      | opener | forwarder => trivial
    · cases t with
      | receiver => exact absurd rfl hne
      | handler => exact fun hwait => nomatch hrun.symm.trans hwait
      | opener | forwarder => trivial

end Effect

end BatteryOperator.ExecAgent.Relay
