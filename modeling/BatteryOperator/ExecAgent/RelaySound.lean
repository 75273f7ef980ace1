/-
  Subject:   Every operation of a request has one of the effects, and the handler meets its duties.

  * `handler_effect`, `opener_effect`, `forwarder_effect`, `receiver_effect` -- **what each
    goroutine does with an operation under its duty**, together `exec_effect`; `env_quiet` -- the
    others change nothing that a goroutine counts on;
  * `wp_authorize` -- **the handler goes on only with what was granted**; `wp_openExec` -- **it has
    the streams back only with the ExecStart on its way**; `wp_serve` -- every request.
-/
import BatteryOperator.ExecAgent.Relay

namespace BatteryOperator.ExecAgent.Relay

open Lib Machine

variable {hostNode : String} {t : Thread} {f : Choice} {s s' : Exchange}

/-! ## 1. What flintlockd's direction keeps -/

namespace AnswerInv

variable {a : AnswerView}

variable (h : AnswerInv a)
include h

theorem begin_ (hw : a.receive = .waiting) : AnswerInv { a with receive := .running } :=
  { h with
    waiting hr := by cases hr
    going _ := h.going (by rw [hw]; decide) }

theorem receive (hr : a.receive = .running) (resp : ExecCommandResponse) :
    AnswerInv { a with got := a.got ++ [resp] } :=
  { h with
    relays := h.relays.trans (List.prefix_append _ _)
    waiting hw := nomatch hr.symm.trans hw }

theorem send (hr : a.receive = .running) {resp : ExecCommandResponse}
    (hgot : a.got = a.sent ++ [resp]) : AnswerInv { a with sent := a.sent ++ [resp] } where
  relays := by
    show a.sent ++ [resp] <+: a.got
    rw [hgot]
  waiting hw := nomatch hr.symm.trans hw
  going := h.going
  status st hst := by
    have hnone := h.going (by rw [hr]; decide)
    exact nomatch hnone.symm.trans hst

theorem finish {st : Status} (hst : st.code = .ok ↔ EndsAtExit a.sent) :
    AnswerInv { a with receive := .ended, ended := some st } where
  relays := h.relays
  waiting hw := by cases hw
  going hn := absurd rfl hn
  status st' hst' := by
    have heq : st = st' := Option.some.inj hst'
    exact heq ▸ hst

end AnswerInv

/-! ## 2. Every operation has one of the effects -/

theorem recv_cases {α : Type} {p q : Pipe α} {ended : Bool} {r : Except RecvError α}
    (h : f.recv p ended = some (r, q)) :
    (∃ a, r = .ok a ∧ q.sent = p.sent ∧ q.got = p.got ++ [a]) ∨ (∃ e, r = .error e ∧ q = p) := by
  unfold Choice.recv at h
  split at h
  · obtain ⟨⟨a, q'⟩, hq, heq⟩ := Option.map_eq_some_iff.mp h
    cases heq
    exact .inl ⟨a, rfl, Pipe.take_eq_some hq⟩
  · split at h
    · cases h
      exact .inr ⟨_, rfl, rfl⟩
    · cases h
  · cases h
    exact .inr ⟨_, rfl, rfl⟩

variable {uid : String} {o : ServerOp} {v : RequestView} {caller : Caller} {r : o.Ans}

/-- A call for a MicroVM that was granted. -/
theorem effect_called (hg : Granted s uid) (reached : Bool) :
    Effect hostNode t s (s.called uid reached) := by
  unfold Exchange.called
  split
  · exact .called uid hg rfl
  · exact .quiet ⟨rfl, rfl, rfl⟩ rfl rfl

theorem getMicroVM_effect {r : ServerOp.Ans (.getMicroVM uid)} (hg : Granted s uid)
    (h : exec t f (.getMicroVM uid) s = some (r, s')) : Effect hostNode t s s' := by
  simp only [exec] at h
  split at h
  · cases h
    exact effect_called hg true
  · cases h
  · cases h
    exact effect_called hg f.reached

theorem sendUp_cases {req : ExecCommandRequest} {r : ServerOp.Ans (.sendUp req)}
    (h : exec t f (.sendUp req) s = some (r, s')) :
    (r = .ok () ∧ s' = { s with up := s.up.send req }) ∨
      (∃ e, r = .error e ∧ (s' = { s with up := s.up.send req } ∨ s' = s)) := by
  have hor : ∀ b : Bool, s.forwardTo req b = { s with up := s.up.send req } ∨
      s.forwardTo req b = s := by
    intro b
    cases b with
    | true => exact .inl rfl
    | false => exact .inr rfl
  simp only [exec] at h
  split at h
  · cases h
    exact .inl ⟨rfl, rfl⟩
  · cases h
    exact .inr ⟨_, rfl, hor _⟩
  · cases h
    exact .inr ⟨_, rfl, hor _⟩

section Effects

variable (hI : Inv hostNode s)
include hI

/-- What the handler does. -/
theorem handler_effect (hpre : Pre hostNode .handler o s) (h : exec .handler f o s = some (r, s')) :
    Effect hostNode .handler s s' := by
  cases o with
  | accept =>
    simp only [exec] at h
    split at h
    · cases h
    next hacc =>
      cases h
      have hacc : s.accepted = false := by simpa using hacc
      have hv := hI.request.fresh hacc
      have hheld : s.holder = .handler := congrArg RequestView.holder hv
      refine .request hheld ⟨rfl, rfl, rfl⟩ rfl (fun _ => rfl) ?_ fun hf => ?_
      · have hview : ({ s with accepted := true } : Exchange).requestView = .begun [] := by
          show { s.requestView with accepted := true } = _
          rw [hv]
          rfl
        rw [hview]
        exact .begun []
      · exact nomatch hheld.symm.trans hf
  | tokenReview | now | newTimer | cancel | reply =>
    cases h
    exact .quiet ⟨rfl, rfl, rfl⟩ rfl rfl
  | lookup key =>
    cases h
    exact .looked rfl hpre _ rfl
  | judged caller vmUID now outcome =>
    cases h
    obtain ⟨hacc, hnone, hright⟩ := hpre
    exact .judged rfl hacc hnone _ (hright _ rfl) rfl
  | serverInfo =>
    obtain ⟨x, _, hx⟩ := Option.map_eq_some_iff.mp h
    cases hx
    exact .quiet ⟨rfl, rfl, rfl⟩ rfl rfl
  | getMicroVM uid => exact getMicroVM_effect hpre h
  | recvDown =>
    obtain ⟨⟨x, p⟩, hp, hx⟩ := Option.map_eq_some_iff.mp h
    cases hx
    have hheld : s.holder = .handler := congrArg RequestView.holder hpre
    rcases recv_cases hp with ⟨req, _, _, hgot⟩ | ⟨e, _, rfl⟩
    · refine .request hheld ⟨rfl, rfl, rfl⟩ rfl (fun hacc => hacc) ?_ fun hf => ?_
      · have hview : ({ s with requests := p } : Exchange).requestView = .begun [req] := by
          show { s.requestView with got := p.got } = _
          have hgot' : s.requests.got = [] := congrArg RequestView.got hpre
          rw [hpre, hgot, hgot']
          rfl
        rw [hview]
        exact .begun [req]
      · exact nomatch hheld.symm.trans hf
    · exact .quiet ⟨rfl, rfl, rfl⟩ rfl rfl
  | goOpen first =>
    cases h
    obtain ⟨hview, st, hst, hg⟩ := hpre
    have hheld : s.holder = .handler := congrArg RequestView.holder hview
    refine .request hheld ⟨rfl, rfl, rfl⟩ rfl (fun hacc => hacc) ?_ nofun
    show RequestInv _ { s.requestView with toOpen := some first, holder := .opener }
    rw [hview]
    exact .hand hst hg
  | select =>
    have h : selected f s = some (r, s') := h
    unfold selected at h
    split at h
    · obtain ⟨x, hx, heq⟩ := Option.map_eq_some_iff.mp h
      cases heq
      have hheld : s.holder = .handler := (hI.request.opened x hx).1
      refine .request hheld ⟨rfl, rfl, rfl⟩ rfl (fun hacc => hacc) ?_ fun hf => ?_
      · exact hI.request.selected hx
      · exact nomatch hheld.symm.trans hf
    · split at h
      · cases h
        exact .quiet ⟨rfl, rfl, rfl⟩ rfl rfl
      · cases h
    · obtain ⟨x, _, heq⟩ := Option.map_eq_some_iff.mp h
      cases heq
      exact .quiet ⟨rfl, rfl, rfl⟩ rfl rfl
  | goForward =>
    cases h
    obtain ⟨hheld, hdone, hgot, hsent⟩ := hpre
    refine .request hheld ⟨rfl, rfl, rfl⟩ rfl (fun hacc => hacc) ?_ fun _ => .inr ⟨hgot, hsent⟩
    exact hI.request.forwarding hheld hdone hsent
  | goReceive =>
    cases h
    exact .answer ⟨rfl, rfl, rfl⟩ rfl hpre.2 (hI.answer.begin_ hpre.1)
      (.inl ⟨rfl, hpre.1, rfl, rfl⟩)
  | finish st =>
    cases h
    obtain ⟨hwait, hacc, hcode⟩ := hpre
    have hsent : s.down.sent = [] := (hI.answer.waiting hwait).2
    refine .answer ⟨rfl, rfl, rfl⟩ rfl hacc (hI.answer.finish ⟨fun hok => absurd hok hcode, ?_⟩)
      (.inl ⟨rfl, hwait, rfl, rfl⟩)
    intro hends
    have hno : NoExit s.down.sent := by
      rw [hsent]
      exact fun r hr => absurd hr List.not_mem_nil
    exact absurd hends hno.not_endsAtExit
  | _ => exact hpre.elim

/-- What `openExec`'s goroutine does. -/
theorem opener_effect (hpre : Pre hostNode .opener o s) (h : exec .opener f o s = some (r, s')) :
    Effect hostNode .opener s s' := by
  cases o with
  | opening =>
    obtain ⟨first, hf, hx⟩ := Option.map_eq_some_iff.mp h
    cases hx
    have hheld : s.holder = .opener := (hI.request.opening _ hf).1
    refine .request hheld ⟨rfl, rfl, rfl⟩ rfl (fun hacc => hacc) ?_ fun hf' => ?_
    · exact hI.request.taken hf
    · exact nomatch hheld.symm.trans hf'
  | getMicroVM uid => exact getMicroVM_effect hpre h
  | execCommand =>
    obtain ⟨x, _, hx⟩ := Option.map_eq_some_iff.mp h
    cases hx
    exact .quiet ⟨rfl, rfl, rfl⟩ rfl rfl
  | sendUp req =>
    obtain ⟨hheld, hopen, hgot, hsent, st, rfl, hg⟩ := hpre
    have hsend : Effect hostNode .opener s { s with up := s.up.send (.start st) } := by
      refine .request hheld ⟨rfl, rfl, rfl⟩ rfl (fun hacc => hacc) ?_ fun hf => ?_
      · have hne : s.requestView.holder ≠ .handler := by
          intro hh
          exact nomatch hheld.symm.trans hh
        refine hI.request.moved s.requests.got (s.up.sent ++ [.start st]) hne
          hopen ?_ (.inr ⟨st, [], ?_, hg, rfl⟩)
        · rw [hgot, hsent]
          exact List.prefix_rfl
        · rw [hsent]
          rfl
      · exact nomatch hheld.symm.trans hf
    rcases sendUp_cases h with ⟨_, rfl⟩ | ⟨_, _, rfl | rfl⟩
    · exact hsend
    · exact hsend
    · exact .quiet ⟨rfl, rfl, rfl⟩ rfl rfl
  | putDone x =>
    cases h
    obtain ⟨hheld, hopen, hx⟩ := hpre
    refine .request hheld ⟨rfl, rfl, rfl⟩ rfl (fun hacc => hacc) ?_ nofun
    exact hI.request.put hheld hopen hx
  | _ => exact hpre.elim

/-- What the forwarding goroutine does. -/
theorem forwarder_effect (hpre : Pre hostNode .forwarder o s)
    (h : exec .forwarder f o s = some (r, s')) : Effect hostNode .forwarder s s' := by
  cases o with
  | forwarding =>
    simp only [exec] at h
    split at h
    · cases h
      exact .quiet ⟨rfl, rfl, rfl⟩ rfl rfl
    · cases h
  | recvDown =>
    obtain ⟨⟨x, p⟩, hp, hx⟩ := Option.map_eq_some_iff.mp h
    cases hx
    have hheld : s.holder = .forwarder := hpre
    rcases recv_cases hp with ⟨req, _, _, hgot⟩ | ⟨e, _, rfl⟩
    · refine .request hheld ⟨rfl, rfl, rfl⟩ rfl (fun hacc => hacc) ?_ fun _ => .inl hheld
      have hne : s.requestView.holder ≠ .handler := fun hh => nomatch hheld.symm.trans hh
      refine hI.request.moved p.got s.up.sent hne
        (hI.request.toOpen_none hheld) ?_ hI.request.opens
      rw [hgot]
      exact hI.request.relays.trans (List.prefix_append _ _)
    · exact .quiet ⟨rfl, rfl, rfl⟩ rfl rfl
  | closeSend | cancel | storeSecondStart =>
    cases h
    exact .quiet ⟨rfl, rfl, rfl⟩ rfl rfl
  | forwarded =>
    cases h
    refine .request hpre ⟨rfl, rfl, rfl⟩ rfl (fun hacc => hacc) ?_ fun _ => .inl hpre
    exact hI.request.forwarded hpre
  | sendUp req =>
    obtain ⟨hheld, hgot, hsent, hreq⟩ := hpre
    have hsend : Effect hostNode .forwarder s { s with up := s.up.send req } := by
      refine .request hheld ⟨rfl, rfl, rfl⟩ rfl (fun hacc => hacc) ?_ fun _ => .inl hheld
      have hne : s.requestView.holder ≠ .handler := fun hh => nomatch hheld.symm.trans hh
      refine hI.request.moved s.requests.got (s.up.sent ++ [req]) hne
        (hI.request.toOpen_none hheld) ?_ (.inr (hI.request.opens_concat hsent hreq))
      rw [hgot]
    rcases sendUp_cases h with ⟨_, rfl⟩ | ⟨_, _, rfl | rfl⟩
    · exact hsend
    · exact hsend
    · exact .quiet ⟨rfl, rfl, rfl⟩ rfl rfl
  | _ => exact hpre.elim

/-- What the receiving loop does. -/
theorem receiver_effect (hpre : Pre hostNode .receiver o s)
    (h : exec .receiver f o s = some (r, s')) : Effect hostNode .receiver s s' := by
  have hacc : s.receive = .running → s.accepted = true := by
    intro hr
    cases ha : s.accepted with
    | true => rfl
    | false => exact nomatch hr.symm.trans (hI.unheard ha).1
  cases o with
  | receiving =>
    simp only [exec] at h
    split at h
    · cases h
      exact .quiet ⟨rfl, rfl, rfl⟩ rfl rfl
    · cases h
  | recvUp =>
    obtain ⟨⟨x, p⟩, hp, hx⟩ := Option.map_eq_some_iff.mp h
    cases hx
    have hrun : s.receive = .running := hpre
    rcases recv_cases hp with ⟨resp, _, _, hgot⟩ | ⟨e, _, rfl⟩
    · refine .answer ⟨rfl, rfl, rfl⟩ rfl (hacc hrun) ?_ (.inr ⟨rfl, hrun⟩)
      show AnswerInv { s.answerView with got := p.got }
      rw [hgot]
      exact hI.answer.receive hrun resp
    · exact .quiet ⟨rfl, rfl, rfl⟩ rfl rfl
  | loadSecondStart | ctxErr =>
    cases h
    exact .quiet ⟨rfl, rfl, rfl⟩ rfl rfl
  | sendDown resp =>
    obtain ⟨hrun, hgot⟩ := hpre
    simp only [exec] at h
    split at h
    · cases h
      exact .answer ⟨rfl, rfl, rfl⟩ rfl (hacc hrun) (hI.answer.send hrun hgot)
        (.inr ⟨rfl, hrun⟩)
    · cases h
    · split at h
      · cases h
      · cases h
        exact .quiet ⟨rfl, rfl, rfl⟩ rfl rfl
  | finish st =>
    cases h
    obtain ⟨hrun, hst⟩ := hpre
    exact .answer ⟨rfl, rfl, rfl⟩ rfl (hacc hrun) (hI.answer.finish hst) (.inr ⟨rfl, hrun⟩)
  | _ => exact hpre.elim

/-- **Every operation under its duty has one of the effects.** -/
theorem exec_effect (hpre : Pre hostNode t o s) (h : exec t f o s = some (r, s')) :
    Effect hostNode t s s' := by
  cases t with
  | handler => exact handler_effect hI hpre h
  | opener => exact opener_effect hI hpre h
  | forwarder => exact forwarder_effect hI hpre h
  | receiver => exact receiver_effect hI hpre h

end Effects

/-- The others' actions change nothing that a goroutine counts on. -/
theorem env_quiet {a : ExchangeAct} (h : env a s = some s') :
    Alike s s' ∧ s'.requestView = s.requestView ∧ s'.answerView = s.answerView := by
  cases a with
  | tick | store | callerCloses | contextDone | flintlockdEnds =>
    cases h
    exact ⟨⟨rfl, rfl, rfl⟩, rfl, rfl⟩
  | callerSends | flintlockdSends =>
    simp only [env] at h
    split at h
    · cases h
    · cases h
      exact ⟨⟨rfl, rfl, rfl⟩, rfl, rfl⟩
  | callerTakes =>
    obtain ⟨⟨x, p⟩, hp, rfl⟩ := Option.map_eq_some_iff.mp h
    obtain ⟨hsent, _⟩ := Pipe.take_eq_some hp
    refine ⟨⟨rfl, rfl, rfl⟩, rfl, ?_⟩
    show ({ s.answerView with sent := p.sent } : AnswerView) = s.answerView
    rw [hsent]
    rfl
  | flintlockdTakes =>
    obtain ⟨⟨x, p⟩, hp, rfl⟩ := Option.map_eq_some_iff.mp h
    obtain ⟨hsent, _⟩ := Pipe.take_eq_some hp
    refine ⟨⟨rfl, rfl, rfl⟩, ?_, rfl⟩
    show ({ s.requestView with sent := p.sent } : RequestView) = s.requestView
    rw [hsent]
    rfl

/-! ## 3. The handler -/

section Programs

variable (payload : Payload) (srv : Server) (values : List String)
  (method : Method)

/-- The weakest precondition of a program of goroutine `t`. -/
abbrev Wp (t : Thread) {α : Type} (p : ServerCode α) (Q : α → Exchange → Prop) (s : Exchange) :
    Prop :=
  wp (machine payload srv values method) (spec srv.hostNode) t p Q s

/-- A fact the other goroutines leave alone. -/
abbrev Kept (t : Thread) (P : Exchange → Prop) : Prop := Stable (spec srv.hostNode) t P

variable {payload srv values method}

/-- The handler has the streams, and no loop runs yet. -/
def At (v : RequestView) (s : Exchange) : Prop := s.requestView = v ∧ s.receive = .waiting

/-- Nothing was decided yet. -/
def Undecided (s : Exchange) : Prop := s.decision = none ∧ s.moment = none

/-- While a goroutine holds the streams, the others leave what it knows of the requests. -/
theorem kept_view {P : RequestView → Prop} (hP : ∀ v, P v → v.holder = t) :
    Kept srv t fun s => P s.requestView := by
  intro s s' h hR _
  rw [hR.request.1 (hP _ h)]
  exact h

/-- No loop runs yet. -/
theorem kept_waiting : Kept srv .handler fun s => s.receive = .waiting := by
  intro s s' hwait hR _
  have hans : s'.answerView = s.answerView := hR.answer hwait
  have hsame : s'.receive = s.receive := congrArg AnswerView.receive hans
  exact hsame.trans hwait

theorem kept_at (hv : v.holder = .handler) : Kept srv .handler (At v) :=
  (kept_view (P := (· = v)) fun _ h => h ▸ hv).and kept_waiting

theorem kept_undecided : Kept srv .handler Undecided := by
  intro s s' h hR _
  obtain ⟨hd, hm⟩ := hR.decided rfl
  exact ⟨hd.trans h.1, hm.trans h.2⟩

theorem kept_granted : Kept srv t fun s => Granted s uid :=
  fun _ _ h hR _ => hR.granted uid h

/-- What was granted was granted to a request that has begun. -/
theorem Inv.accepted_of_granted (hI : Inv hostNode s) (hg : Granted s uid) : s.accepted = true := by
  cases ha : s.accepted with
  | true => rfl
  | false =>
    obtain ⟨d, hd, _⟩ := hg
    exact nomatch (hI.unheard ha).2.1.symm.trans hd

/-- The handler returns a status other than OK before any loop runs. -/
theorem wp_refuse {P : Exchange → Prop} (hP : Kept srv .handler P) (h : P s) {st : Status}
    (hcode : st.code ≠ .ok)
    (hpre : ∀ s', Inv srv.hostNode s' → P s' → s'.receive = .waiting ∧ s'.accepted = true) :
    Wp payload srv values method .handler (ask (.finish st)) (fun _ => Idle .handler) s :=
  wp_last hP h fun s' hI hp => ⟨(hpre s' hI hp).1, (hpre s' hI hp).2, hcode⟩

/-- Whatever is stored when it is written down, the decision is right. -/
def Judged (hostNode : String) (caller : Caller) (uid : String) (now : Time)
    (outcome : Except AuthError Unit) (s : Exchange) : Prop :=
  ∀ stored, Decision.Right hostNode ⟨caller, uid, now, outcome, (s.moment.getD (stored, true)).1,
    (s.moment.getD (stored, true)).2⟩

theorem kept_judged {now : Time} {outcome : Except AuthError Unit} :
    Kept srv .handler fun s =>
      s.decision = none ∧ Judged srv.hostNode caller uid now outcome s := by
  intro s s' h hR _
  obtain ⟨hd, hm⟩ := hR.decided rfl
  refine ⟨hd.trans h.1, ?_⟩
  unfold Judged
  rw [hm]
  exact h.2

/-- **`authorizeClaim` and its lookup.** -/
theorem wp_authorizeClaim (hv : v.holder = .handler) (hacc : v.accepted = true) {now : Time}
    (h : At v s ∧ Undecided s) :
    Wp payload srv values method .handler
      (srv.authorizeClaim (fun key => ask (.lookup key)) caller uid now)
      (fun outcome s' => At v s' ∧ s'.decision = none ∧
        Judged srv.hostNode caller uid now outcome s') s := by
  have hkept : Kept srv .handler (fun s => At v s ∧ Undecided s) :=
    (kept_at hv).and kept_undecided
  unfold Agent.authorizeClaim
  split
  next hkey =>
    refine wp_ret hkept h fun s' _ hp => ⟨hp.1, hp.2.1, fun stored => ?_⟩
    rw [hp.2.2]
    exact right_of_unnamed hkey
  next key hkey =>
    refine wp_call hkept h (fun s' _ hp => ?_) fun s1 f r s2 _ hp hx _ => ?_
    · have haccepted : s'.requestView.accepted = true := by rw [hp.1.1]; exact hacc
      exact haccepted
    · cases hx
      refine wp_ret ((kept_at hv).and kept_judged) ⟨hp.1, hp.2.1, fun stored => ?_⟩
        fun s' _ hp' => hp'
      exact right_of_lookup f.fault hkey

theorem refusal_code (caller : Caller) (uid : String) (err : AuthError) :
    (srv.refusal caller uid err).code ≠ .ok := by
  cases err with
  | notAuthorized | lookup => exact nofun

/-- **`server.authorize`**: it goes on only with what was granted. -/
theorem wp_authorize (hv : v.holder = .handler) (hacc : v.accepted = true)
    (h : At v s ∧ Undecided s) :
    Wp payload srv values method .handler (srv.authorize caller uid)
      (fun r s' => At v s' ∧ (r = .ok () → Granted s' uid) ∧
        ∀ st, r = .error st → st.code ≠ .ok) s := by
  have hkept : Kept srv .handler (fun s => At v s ∧ Undecided s) :=
    (kept_at hv).and kept_undecided
  refine wp_call hkept h (fun _ _ _ => trivial) fun s1 f now s2 _ hp hx _ => ?_
  cases hx
  refine wp_seq (Rely.refl _) (wp_authorizeClaim hv hacc hp) fun outcome s3 _ hpost => ?_
  refine wp_call ((kept_at hv).and kept_judged) hpost (fun s4 _ hp4 => ?_)
    fun s4 f4 r4 s5 _ hp4 hx4 _ => ?_
  · obtain ⟨⟨hview, _⟩, hnone, hright⟩ := hp4
    have haccepted : s4.requestView.accepted = true := by rw [hview]; exact hacc
    refine ⟨haccepted, hnone, fun d hd => ?_⟩
    have hdd := Option.some.inj hd
    subst hdd
    exact hright s4.claims
  · cases hx4
    cases outcome with
    | error err =>
      refine wp_ret (kept_at hv) hp4.1 fun s' _ hat => ⟨hat, nofun, fun st hst => ?_⟩
      cases hst
      exact refusal_code caller uid err
    | ok x =>
      refine wp_ret ((kept_at hv).and kept_granted) ⟨hp4.1, _, rfl, rfl, rfl⟩
        fun s' _ hp' => ⟨hp'.1, fun _ => hp'.2, nofun⟩

/-! ### Opening the stream -/

/-- The handler has the streams back, with the ExecStart on its way. -/
def Handed (s : Exchange) : Prop :=
  s.holder = .handler ∧ s.done = none ∧ s.requests.got = s.up.sent ∧ s.up.sent ≠ []

theorem kept_handed : Kept srv .handler Handed :=
  kept_view (P := fun v => v.holder = .handler ∧ v.done = none ∧ v.got = v.sent ∧ v.sent ≠ [])
    fun _ h => h.1

/-- The MicroVM was granted and no loop runs yet. -/
def Going (uid : String) (s : Exchange) : Prop := s.receive = .waiting ∧ Granted s uid

theorem kept_going : Kept srv .handler (Going uid) :=
  kept_waiting.and kept_granted

/-- **`openExec`.** -/
theorem wp_openExec {st : ExecStart} (h : At (.begun [.start st]) s) (hg : Granted s st.uid) :
    Wp payload srv values method .handler (srv.openExec (.start st))
      (fun r s' => Going st.uid s' ∧ (r = .ok () → Handed s')) s := by
  have hgoing : Kept srv .handler (Going st.uid) := kept_going
  refine wp_call ((kept_at rfl).and kept_granted) ⟨h, hg⟩ (fun s1 _ hp => ?_)
    fun s1 f r s2 _ hp hx _ => ?_
  · exact ⟨hp.1.1, st, rfl, hp.2⟩
  · cases hx
    have hgo : Going st.uid { s1 with toOpen := some (.start st), holder := .opener } :=
      ⟨hp.1.2, hp.2.same rfl⟩
    refine wp_call hgoing hgo (fun _ _ _ => trivial) fun s3 f3 r3 s4 _ hp3 hx3 _ => ?_
    cases hx3
    have hgo3 : Going st.uid { s3 with timer := some (s3.now + srv.openTimeout) } :=
      ⟨hp3.1, hp3.2.same rfl⟩
    refine wp_call hgoing hgo3 (fun _ _ _ => trivial) fun s5 f5 r5 s6 hI5 hp5 hx5 _ => ?_
    have hx5 : selected f5 s5 = some (r5, s6) := hx5
    unfold selected at hx5
    split at hx5
    · -- the goroutine's result
      obtain ⟨x, hdone, heq⟩ := Option.map_eq_some_iff.mp hx5
      cases heq
      have hgo6 : Going st.uid { s5 with done := none } := ⟨hp5.1, hp5.2.same rfl⟩
      have hopened := hI5.request.opened x hdone
      cases x with
      | error e => exact wp_ret hgoing hgo6 fun s' _ hp' => ⟨hp', nofun⟩
      | ok u =>
        obtain ⟨hgot, hsent⟩ := hopened.2 rfl
        exact wp_ret (hgoing.and kept_handed) ⟨hgo6, hopened.1, rfl, hgot, hsent⟩
          fun s' _ hp' => ⟨hp'.1, fun _ => hp'.2⟩
    · -- the timer
      split at hx5
      · cases hx5
        refine wp_call hgoing hp5 (fun _ _ _ => trivial) fun s7 f7 r7 s8 _ hp7 hx7 _ => ?_
        cases hx7
        have hgo8 : Going st.uid { s7 with cancelled := true } := ⟨hp7.1, hp7.2.same rfl⟩
        exact wp_ret hgoing hgo8 fun s' _ hp' => ⟨hp', nofun⟩
      · cases hx5
    · -- the exchange's context
      obtain ⟨x, _, heq⟩ := Option.map_eq_some_iff.mp hx5
      cases heq
      exact wp_ret hgoing hp5 fun s' _ hp' => ⟨hp', nofun⟩

/-- **`relayExec`**, up to its loop. -/
theorem wp_relayExec {st : ExecStart} (h : At (.begun [.start st]) s) (hg : Granted s st.uid) :
    Wp payload srv values method .handler (srv.relayExec (.start st))
      (fun _ => Idle .handler) s := by
  have hgoing : Kept srv .handler (Going st.uid) := kept_going
  refine wp_seq (Rely.refl _) (wp_openExec h hg) fun r s1 _ hpost => ?_
  cases r with
  | error e =>
    exact wp_refuse hgoing hpost.1 nofun fun s' hI hp => ⟨hp.1, hI.accepted_of_granted hp.2⟩
  | ok u =>
    refine wp_call (hgoing.and kept_handed) ⟨hpost.1, hpost.2 rfl⟩ (fun _ _ hp => hp.2)
      fun s2 f2 r2 s3 _ hp2 hx2 _ => ?_
    cases hx2
    have hgo3 : Going st.uid { s2 with forward := .running, holder := .forwarder } :=
      ⟨hp2.1.1, hp2.1.2.same rfl⟩
    exact wp_last hgoing hgo3 fun s' hI hp => ⟨hp.1, hI.accepted_of_granted hp.2⟩

/-! ### The handlers -/

/-- **`ExecCommand`.** -/
theorem wp_execCommand (caller : Caller) (h : At (.begun []) s ∧ Undecided s) :
    Wp payload srv values method .handler (srv.execCommand caller) (fun _ => Idle .handler) s := by
  have hat : ∀ {got}, ∀ s' : Exchange, At (.begun got) s' →
      s'.receive = .waiting ∧ s'.accepted = true :=
    fun s' hp => ⟨hp.2, congrArg RequestView.accepted hp.1⟩
  refine wp_call ((kept_at rfl).and kept_undecided) h (fun _ _ hp => hp.1.1)
    fun s1 f r s2 _ hp hx _ => ?_
  obtain ⟨⟨x, p⟩, hrecv, heq⟩ := Option.map_eq_some_iff.mp hx
  cases heq
  rcases recv_cases hrecv with ⟨req, rfl, _, hgot⟩ | ⟨e, rfl, rfl⟩
  · have hnow : At (.begun [req]) { s1 with requests := p } ∧
        Undecided { s1 with requests := p } := by
      refine ⟨⟨?_, hp.1.2⟩, hp.2⟩
      show { s1.requestView with got := p.got } = _
      have hgot1 : s1.requests.got = [] := congrArg RequestView.got hp.1.1
      rw [hp.1.1, hgot, hgot1]
      rfl
    cases req with
    | start st =>
      refine wp_seq (Rely.refl _) (wp_authorize rfl rfl hnow) fun r s3 _ hpost => ?_
      obtain ⟨hat3, hgranted, hcode⟩ := hpost
      cases r with
      | error st' => exact wp_refuse (kept_at rfl) hat3 (hcode st' rfl) fun s' _ hp' => hat s' hp'
      | ok u => exact wp_relayExec hat3 (hgranted rfl)
    | stdin | unset => exact wp_refuse (kept_at rfl) hnow.1 nofun fun s' _ hp' => hat s' hp'
  · exact wp_refuse (kept_at rfl) hp.1 nofun fun s' _ hp' => hat s' hp'

/-- **`GetMicroVM`**, with its reply. -/
theorem wp_getMicroVM (caller : Caller) (uid : String) (h : At (.begun []) s ∧ Undecided s) :
    Wp payload srv values method .handler
      (srv.getMicroVM caller uid >>= fun r => ask (.reply r)) (fun _ => Idle .handler) s := by
  have hany : Kept srv .handler fun _ => True := fun _ _ _ _ _ => trivial
  refine wp_bind (Rely.refl _) _ _ ?_
  refine wp_seq (Rely.refl _) (wp_authorize rfl rfl h) fun r s3 _ hpost => ?_
  cases r with
  | error st =>
    exact wp_ret hany trivial fun s' _ _ =>
      wp_last hany trivial fun _ _ _ => trivial
  | ok u =>
    refine wp_op kept_granted (hpost.2.1 rfl) (fun _ _ hg => hg)
      fun s4 f r s5 _ _ _ _ => ?_
    exact wp_ret hany trivial fun s' _ _ =>
      wp_last hany trivial fun _ _ _ => trivial

/-- A TokenReview. -/
def IsReview : ServerOp → Prop
  | .tokenReview _ _ => True
  | _ => False

theorem within_authenticate : (srv.authenticate payload values).Within IsReview
    fun r => ∀ st, r = .error st → st.code ≠ .ok := by
  refine Prog.within_bind (V := fun _ => True) ?_ fun r _ => ?_
  · unfold ExecAgent.authenticate
    split
    · trivial
    · split
      · trivial
      · refine Prog.within_call trivial fun r => ?_
        cases r <;> trivial
  · cases r with
    | ok caller => exact nofun
    | error e =>
      cases e with
      | unauthenticated | review =>
        intro st hst
        cases hst
        exact nofun

/-- **A request.** -/
theorem wp_serve : Wp payload srv values method .handler (srv.serve payload values method)
    (fun _ => Idle .handler) s := by
  have hany : Kept srv .handler fun _ => True := fun _ _ _ _ _ => trivial
  have hfresh : Kept srv .handler fun s => At (.begun []) s ∧ Undecided s :=
    (kept_at rfl).and kept_undecided
  refine wp_call hany trivial (fun _ _ _ => trivial) fun s1 f r s2 hI _ hx _ => ?_
  have hnow : At (.begun []) s2 ∧ Undecided s2 := by
    simp only [machine, exec] at hx
    split at hx
    · cases hx
    next hacc =>
      cases hx
      have hacc : s1.accepted = false := by simpa using hacc
      obtain ⟨hwait, hundecided⟩ := hI.unheard hacc
      refine ⟨⟨?_, hwait⟩, hundecided⟩
      show { s1.requestView with accepted := true } = _
      rw [hI.request.fresh hacc]
      rfl
  refine wp_bind (Rely.refl _) _ _ (wp_mono (fun r s3 _ hpost => ?_) _
    (wp_within hfresh (fun o s' ho _ _ => ?_) (fun f o s' r s'' ho _ hp hx => ?_) _
      within_authenticate hnow))
  · obtain ⟨hcode, hp⟩ := hpost
    have hat : ∀ s' : Exchange, At (.begun []) s' → s'.receive = .waiting ∧ s'.accepted = true :=
      fun s' hp => ⟨hp.2, congrArg RequestView.accepted hp.1⟩
    cases r with
    | error st =>
      cases method with
      | execCommand => exact wp_refuse (kept_at rfl) hp.1 (hcode st rfl) fun s' _ hp' => hat s' hp'
      | getMicroVM | serverInfo => exact wp_last hany trivial fun _ _ _ => trivial
    | ok caller =>
      cases method with
      | execCommand => exact wp_execCommand caller hp
      | getMicroVM uid => exact wp_getMicroVM caller uid hp
      | serverInfo =>
        refine wp_call hany trivial (fun _ _ _ => trivial) fun _ _ _ _ _ _ _ _ => ?_
        exact wp_last hany trivial fun _ _ _ => trivial
  · cases o <;> first | exact trivial | exact ho.elim
  · cases o with
    | tokenReview token audiences =>
      cases hx
      exact hp
    | _ => exact ho.elim

end Programs

end BatteryOperator.ExecAgent.Relay
