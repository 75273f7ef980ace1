/-
  Subject:   EXEC RELAY SOUNDNESS. Whatever the caller and flintlockd send, however their streams
             break, whenever the timer fires and in every interleaving of the relay's goroutines.

  * `wp_openStream`, `wp_forwardRound`, `wp_receiveRound` -- the goroutines meet their duties;
  * `relay_sound` -- the specification holds of the machine;
  * `exec_relay_sound` -- **nothing that names a MicroVM reaches flintlockd before the authorization
    for it, the two streams are relayed in order and without a second ExecStart, and the response
    ends with OK exactly if it ends with flintlockd's first exit code**.
-/
import BatteryOperator.ClaimClient.System
import BatteryOperator.ExecAgent.RelaySound

namespace BatteryOperator.ExecAgent.Relay

open Lib Machine

variable {payload : Payload} {srv : Server} {values : List String}
  {method : Method} {s : Exchange}

/-- What holds of a loop between two turns, the others leave alone. -/
theorem idle_kept (t : Thread) : Kept srv t (Idle t) := by
  intro s s' h hR _
  cases t with
  | handler | opener => trivial
  | forwarder =>
    intro hheld hrun
    by_cases hold : s.holder = .forwarder
    · have hview : s'.requestView = s.requestView := hR.request.1 hold
      have hrun' : s.forward = .running := (congrArg RequestView.forward hview).symm.trans hrun
      obtain ⟨hgot, hsent⟩ := h hold hrun'
      rw [show s'.requests.got = s.requests.got from congrArg RequestView.got hview,
        show s'.up.sent = s.up.sent from congrArg RequestView.sent hview]
      exact ⟨hgot, hsent⟩
    · exact hR.request.2 rfl hold hheld
  | receiver =>
    intro hne
    obtain ⟨hgot, hsent, _, hold⟩ := hR.answer
    obtain ⟨heq, hno⟩ := h (hold hne)
    have hgot : s'.answers.got = s.answers.got := hgot
    have hsent : s'.down.sent = s.down.sent := hsent
    rw [hgot, hsent]
    exact ⟨heq, hno⟩

/-! ## 1. The goroutine that opens the stream -/

/-- It holds the streams, with this ExecStart to send. -/
def Holds (st : ExecStart) (sent : List ExecCommandRequest) (s : Exchange) : Prop :=
  (s.holder = .opener ∧ s.toOpen = none ∧ s.requests.got = [.start st] ∧ s.up.sent = sent) ∧
    Granted s st.uid

variable {got sent : List ExecCommandRequest}

theorem kept_holds {st : ExecStart} : Kept srv .opener (Holds st sent) :=
  (kept_view (P := fun v => v.holder = .opener ∧ v.toOpen = none ∧ v.got = [.start st] ∧
    v.sent = sent) fun _ h => h.1).and kept_granted

/-- It reports that the stream is not open. -/
theorem wp_notOpen {st : ExecStart} (h : Holds st sent s) (e : String) :
    Wp payload srv values method .opener (ask (.putDone (.error e))) (fun _ => Idle .opener) s :=
  wp_last kept_holds h fun _ _ hp => ⟨hp.1.1, hp.1.2.1, nofun⟩

/-- **The goroutine of `openExec`.** -/
theorem wp_openStream :
    Wp payload srv values method .opener openStream (fun _ => Idle .opener) s := by
  have hany : Kept srv .opener fun _ => True := fun _ _ _ _ _ => trivial
  refine wp_call hany trivial (fun _ _ _ => trivial) fun s1 f1 first s2 hI1 _ hx1 _ => ?_
  obtain ⟨first, hfirst, heq⟩ := Option.map_eq_some_iff.mp hx1
  cases heq
  obtain ⟨hheld, hgot, hsent, st, rfl, hg⟩ := hI1.request.opening _ hfirst
  have h2 : Holds st [] { s1 with toOpen := none } := ⟨⟨hheld, rfl, hgot, hsent⟩, hg.same rfl⟩
  refine wp_call kept_holds h2 (fun _ _ hp => hp.2) fun s3 f3 r3 s4 _ hp3 hx3 _ => ?_
  have h4 : Holds st [] s4 := by
    simp only [machine, exec] at hx3
    have hcalled : ∀ b, Holds st [] (s3.called st.uid b) := by
      intro b
      cases b with
      | true => exact ⟨hp3.1, hp3.2.same rfl⟩
      | false => exact hp3
    split at hx3
    · cases hx3
      exact hcalled _
    · cases hx3
    · cases hx3
      exact hcalled _
  cases r3 with
  | error e => exact wp_notOpen h4 _
  | ok bytes =>
    refine wp_call kept_holds h4 (fun _ _ _ => trivial) fun s5 f5 r5 s6 _ hp5 hx5 _ => ?_
    obtain ⟨x, _, heq⟩ := Option.map_eq_some_iff.mp hx5
    cases heq
    cases x with
    | error e => exact wp_notOpen hp5 _
    | ok bytes' =>
      refine wp_call kept_holds hp5
        (fun _ _ hp => ⟨hp.1.1, hp.1.2.1, hp.1.2.2.1, hp.1.2.2.2, st, rfl, hp.2⟩)
        fun s7 f7 r7 s8 _ hp7 hx7 _ => ?_
      have hsent8 : Holds st [.start st] { s7 with up := s7.up.send (.start st) } := by
        refine ⟨⟨hp7.1.1, hp7.1.2.1, hp7.1.2.2.1, ?_⟩, hp7.2.same rfl⟩
        show s7.up.sent ++ [_] = _
        rw [hp7.1.2.2.2]
        rfl
      rcases sendUp_cases (t := .opener) hx7 with ⟨rfl, rfl⟩ | ⟨e, rfl, rfl | rfl⟩
      · refine wp_last kept_holds hsent8 fun s' _ hp => ⟨hp.1.1, hp.1.2.1, fun _ => ?_⟩
        rw [hp.1.2.2.1, hp.1.2.2.2]
        exact ⟨rfl, (by simp)⟩
      · exact wp_notOpen hsent8 _
      · exact wp_notOpen hp7 _

/-! ## 2. The goroutine that forwards -/

/-- It holds the streams, and this is what it took off and put on. -/
def Forwards (got sent : List ExecCommandRequest) (s : Exchange) : Prop :=
  s.holder = .forwarder ∧ s.requests.got = got ∧ s.up.sent = sent

theorem kept_forwards : Kept srv .forwarder (Forwards got sent) :=
  kept_view (P := fun v => v.holder = .forwarder ∧ v.got = got ∧ v.sent = sent) fun _ h => h.1

/-- It returns. -/
theorem wp_forwarded (h : Forwards got sent s) :
    Wp payload srv values method .forwarder (ask .forwarded) (fun _ => Idle .forwarder) s := by
  refine wp_op kept_forwards h (fun _ _ hp => hp.1) fun s1 f r s2 _ hp hx _ => ?_
  cases hx
  -- nobody starts it again
  have hended : Kept srv .forwarder fun s => s.holder = .forwarder ∧ s.forward = .ended :=
    kept_view (P := fun v => v.holder = .forwarder ∧ v.forward = .ended) fun _ h => h.1
  refine wp_ret hended ⟨hp.1, rfl⟩ fun s' _ hp' _ hrun => ?_
  exact nomatch hp'.2.symm.trans hrun

/-- It cancels the exchange and returns. -/
theorem wp_cancelled (h : Forwards got sent s) :
    Wp payload srv values method .forwarder
      (ask .cancel >>= fun _ => ask .forwarded) (fun _ => Idle .forwarder) s := by
  refine wp_call kept_forwards h (fun _ _ _ => trivial) fun s1 f r s2 _ hp hx _ => ?_
  cases hx
  exact wp_forwarded (s := { s1 with cancelled := true }) hp

/-- **One turn of the goroutine that forwards the caller's messages.** -/
theorem wp_forwardRound (h : Idle .forwarder s) :
    Wp payload srv values method .forwarder forwardRound (fun _ => Idle .forwarder) s := by
  have hidle : Kept srv .forwarder (Idle .forwarder) := idle_kept .forwarder
  refine wp_call hidle h (fun _ _ _ => trivial) fun s1 f1 r1 s2 hI1 hp1 hx1 _ => ?_
  obtain ⟨hrun, hx1⟩ := Option.ite_none_right_eq_some.mp hx1
  cases hx1
  have hheld : s1.holder = .forwarder := hI1.request.forwards hrun
  obtain ⟨hgot, hsent⟩ := hp1 hheld hrun
  have h2 : Forwards s1.up.sent s1.up.sent s1 := ⟨hheld, hgot, rfl⟩
  refine wp_call kept_forwards h2 (fun _ _ hp => hp.1) fun s3 f3 r3 s4 _ hp3 hx3 _ => ?_
  obtain ⟨⟨x, p⟩, hrecv, heq⟩ := Option.map_eq_some_iff.mp hx3
  cases heq
  rcases recv_cases hrecv with ⟨req, rfl, _, hp⟩ | ⟨e, rfl, rfl⟩
  · have h4 : Forwards (s1.up.sent ++ [req]) s1.up.sent { s3 with requests := p } := by
      refine ⟨hp3.1, ?_, hp3.2.2⟩
      rw [hp, hp3.2.1]
    cases hreq : req.getStart with
    | some st =>
      simp only [hreq]
      refine wp_call kept_forwards h4 (fun _ _ _ => trivial)
        fun s5 f5 r5 s6 _ hp5 hx5 _ => ?_
      cases hx5
      exact wp_cancelled (s := { s5 with secondStart := true }) hp5
    | none =>
      simp only [hreq]
      refine wp_call kept_forwards h4
        (fun s5 _ hp5 => ⟨hp5.1, by rw [hp5.2.1, hp5.2.2], by rw [hp5.2.2]; exact hsent, hreq⟩)
        fun s5 f5 r5 s6 _ hp5 hx5 _ => ?_
      have hsent6 : Forwards (s1.up.sent ++ [req]) (s1.up.sent ++ [req])
          { s5 with up := s5.up.send req } := by
        refine ⟨hp5.1, hp5.2.1, ?_⟩
        show s5.up.sent ++ [req] = _
        rw [hp5.2.2]
      rcases sendUp_cases (t := .forwarder) hx5 with ⟨rfl, rfl⟩ | ⟨e, rfl, rfl | rfl⟩
      · refine wp_ret kept_forwards hsent6 fun s' _ hp' _ _ => ?_
        rw [hp'.2.1, hp'.2.2]
        exact ⟨rfl, by simp⟩
      · exact wp_forwarded hsent6
      · exact wp_forwarded hp5
  · cases e with
    | eof =>
      refine wp_call kept_forwards hp3 (fun _ _ _ => trivial)
        fun s5 f5 r5 s6 _ hp5 hx5 _ => ?_
      cases hx5
      exact wp_forwarded hp5
    | failed st => exact wp_cancelled hp3

/-! ## 3. The loop that receives -/

/-- The loop runs, and this is what it took off and put on. -/
def Receives (got sent : List ExecCommandResponse) (s : Exchange) : Prop :=
  s.receive = .running ∧ s.answers.got = got ∧ s.down.sent = sent

variable {got sent : List ExecCommandResponse}

theorem kept_receives : Kept srv .receiver (Receives got sent) := by
  intro s s' h hR _
  obtain ⟨hgot, hsent, hrun, _⟩ := hR.answer
  exact ⟨(hrun h.1).1, hgot.trans h.2.1, hsent.trans h.2.2⟩

/-- It returns with a status that agrees with what was put on. -/
theorem wp_return (h : Receives got sent s) {st : Status} (hst : st.code = .ok ↔ EndsAtExit sent) :
    Wp payload srv values method .receiver (ask (.finish st)) (fun _ => Idle .receiver) s := by
  refine wp_op kept_receives h (fun s' _ hp => ⟨hp.1, ?_⟩) fun s1 f r s2 _ hp hx _ => ?_
  · rw [hp.2.2]
    exact hst
  · cases hx
    have hended : Kept srv .receiver fun s => s.receive = .ended := by
      intro s s' he hR _
      by_contra hne
      exact hR.answer.2.2.2 hne he
    exact wp_ret hended rfl fun s' _ he hne => absurd he hne

/-- How a failed receive is reported is never OK. -/
theorem wp_receiveFailed (h : Receives got sent s) (hno : NoExit sent) (err : RecvError) :
    Wp payload srv values method .receiver (receiveFailed err) (fun _ => Idle .receiver) s := by
  have hbad : ∀ {st : Status}, st.code ≠ .ok → (st.code = .ok ↔ EndsAtExit sent) :=
    fun hne => ⟨fun hok => absurd hok hne, fun he => absurd he hno.not_endsAtExit⟩
  refine wp_call kept_receives h (fun _ _ _ => trivial) fun s1 f1 r1 s2 _ hp1 hx1 _ => ?_
  cases hx1
  by_cases hsecond : s1.secondStart = true
  · simp only [hsecond]
    exact wp_return hp1 (hbad nofun)
  · simp only [hsecond]
    refine wp_call kept_receives hp1 (fun _ _ _ => trivial) fun s3 f3 r3 s4 _ hp3 hx3 _ => ?_
    cases hx3
    cases hctx : s3.ctxErr with
    | some e =>
      refine wp_return hp3 (hbad ?_)
      cases e <;> exact nofun
    | none =>
      refine wp_return hp3 (hbad ?_)
      cases err with
      | eof => exact nofun
      | failed st =>
        unfold streamFailure
        simp only
        split
        · exact nofun
        next hne => exact fun hok => hne (.inl hok)

/-- **One turn of the loop that receives flintlockd's messages.** -/
theorem wp_receiveRound (h : Idle .receiver s) :
    Wp payload srv values method .receiver receiveRound (fun _ => Idle .receiver) s := by
  have hidle : Kept srv .receiver (Idle .receiver) := idle_kept .receiver
  refine wp_call hidle h (fun _ _ _ => trivial) fun s1 f1 r1 s2 hI1 hp1 hx1 _ => ?_
  obtain ⟨hrun, hx1⟩ := Option.ite_none_right_eq_some.mp hx1
  cases hx1
  obtain ⟨hgot, hno⟩ := hp1 (by rw [hrun]; decide)
  have h2 : Receives s1.down.sent s1.down.sent s1 := ⟨hrun, hgot, rfl⟩
  refine wp_call kept_receives h2 (fun _ _ hp => hp.1) fun s3 f3 r3 s4 _ hp3 hx3 _ => ?_
  obtain ⟨⟨x, p⟩, hrecv, heq⟩ := Option.map_eq_some_iff.mp hx3
  cases heq
  rcases recv_cases hrecv with ⟨resp, rfl, _, hp⟩ | ⟨e, rfl, rfl⟩
  · have h4 : Receives (s1.down.sent ++ [resp]) s1.down.sent { s3 with answers := p } := by
      refine ⟨hp3.1, ?_, hp3.2.2⟩
      rw [hp, hp3.2.1]
    refine wp_call kept_receives h4
      (fun s5 _ hp5 => ⟨hp5.1, by rw [hp5.2.1, hp5.2.2]⟩) fun s5 f5 r5 s6 _ hp5 hx5 _ => ?_
    simp only [machine, exec] at hx5
    split at hx5
    · cases hx5
      have h6 : Receives (s1.down.sent ++ [resp]) (s1.down.sent ++ [resp])
          { s5 with down := s5.down.send resp } := by
        refine ⟨hp5.1, hp5.2.1, ?_⟩
        show s5.down.sent ++ [resp] = _
        rw [hp5.2.2]
      by_cases hexit : resp.isExitCode = true
      · simp only [hexit]
        exact wp_return h6 ⟨fun _ => ⟨_, resp, rfl, hexit, hno⟩, fun _ => rfl⟩
      · simp only [hexit]
        refine wp_ret kept_receives h6 fun s' _ hp' _ => ?_
        rw [hp'.2.1, hp'.2.2]
        refine ⟨rfl, fun x hx => ?_⟩
        rcases List.mem_append.mp hx with hx | hx
        · exact hno x hx
        · rw [List.mem_singleton.mp hx]
          exact Bool.eq_false_iff.mpr hexit
    · cases hx5
    next st _ =>
      obtain ⟨hcode, hx5⟩ := Option.ite_none_left_eq_some.mp hx5
      cases hx5
      exact wp_return hp5 ⟨fun hok => absurd hok hcode, fun he =>
        absurd he hno.not_endsAtExit⟩
  · exact wp_receiveFailed hp3 hno e

/-! ## 4. Every reachable state -/

theorem crash_inv {hostNode : String} (hI : Inv hostNode s) :
    Inv hostNode { s with accepted := true, toOpen := none, done := none, forward := .ended,
                          receive := .ended } where
  request :=
    { fresh := nofun, relays := hI.request.relays
      opens := (hI.request.mono fun _ hg => hg.same rfl).opens
      opening := nofun, opened := nofun, forwards := nofun }
  answer :=
    { relays := hI.answer.relays, waiting := nofun, going := fun hne => absurd rfl hne
      status := hI.answer.status }
  called uid hu := (hI.called uid hu).same rfl
  right := hI.right
  unheard := nofun

/-- **The specification holds of the machine.** -/
theorem relay_sound :
    Sound (machine payload srv values method) (spec srv.hostNode) where
  refl := Rely.refl
  trans _ _ _ _ := Rely.trans
  idle := idle_kept
  env_inv a s s' hI h := by
    obtain ⟨hs, hr, ha⟩ := env_quiet h
    exact (Effect.quiet (t := .handler) hs hr ha).inv hI
  env_rely t a s s' _ h := by
    obtain ⟨hs, hr, ha⟩ := env_quiet h
    exact Effect.rely_of_views (fun _ hg => hg.same hs.decision)
      (fun _ => ⟨hs.decision, hs.moment⟩) hr ha
  exec_inv t f o s r s' hI hpre h := (exec_effect hI hpre h).inv hI
  exec_rely t u f o s r s' hne hI hpre h := (exec_effect hI hpre h).rely hne
  crash_inv s hI := crash_inv hI
  crash_idle t s _ := by
    cases t with
    | handler | opener => trivial
    | forwarder => exact nofun
    | receiver => exact fun hne => absurd rfl hne
  spawn t s _ hidle := by
    cases t with
    | handler => exact wp_serve
    | opener => exact wp_openStream
    | forwarder => exact wp_forwardRound hidle
    | receiver => exact wp_receiveRound hidle

theorem start_safe (now : Time) (claims : StoredClaims) :
    Safe (machine payload srv values method) (spec srv.hostNode) (start now claims) where
  inv :=
    { request := .initial
      answer := ⟨List.nil_prefix, fun _ => ⟨rfl, rfl⟩, fun _ => rfl, nofun⟩
      called := nofun, right := nofun, unheard := fun _ => ⟨rfl, rfl, rfl⟩ }
  safe := nofun
  rest t _ := by
    cases t with
    | handler | opener => trivial
    | forwarder => exact nofun
    | receiver => exact fun _ => ⟨rfl, nofun⟩

theorem Reachable.inv {w : ExchangeWorld} (h : Reachable payload srv values method w) :
    Inv srv.hostNode w.shared := by
  obtain ⟨now, claims, hrun⟩ := h
  exact (relay_sound.reach (start_safe now claims) hrun).inv

/-! ## 5. Soundness -/

/-- Every MicroVM that was named to flintlockd, in a call or in a message. -/
def Exchange.uids (s : Exchange) : List String :=
  s.calls ++ (starts s.up.sent).map ExecStart.uid

/-- `got` is what `all` begins with, up to its first exit code. -/
def EndsAtFirstExit (got all : List ExecCommandResponse) : Prop :=
  ∃ front r rest, all = front ++ r :: rest ∧ got = front ++ [r] ∧ r.isExitCode = true ∧ NoExit front

theorem endsAtExit_iff {all : List ExecCommandResponse} (h : got <+: all) :
    EndsAtExit got ↔ EndsAtFirstExit got all := by
  constructor
  · intro hends
    obtain ⟨front, r, rfl, hr, hno⟩ := hends
    obtain ⟨rest, rfl⟩ := h
    exact ⟨front, r, rest, by simp, rfl, hr, hno⟩
  · intro hends
    obtain ⟨front, r, _, _, hgot, hr, hno⟩ := hends
    exact ⟨front, r, hgot, hr, hno⟩

theorem RequestInv.starts_le {g : String → Prop} {v : RequestView} (h : RequestInv g v) :
    (starts v.sent).length ≤ 1 := by
  rcases h.opens with hnil | ⟨st, rest, hl, _, hrest⟩
  · rw [hnil]
    exact Nat.zero_le _
  · have hone : starts v.sent = st :: starts rest := by
      rw [hl]
      rfl
    rw [hone, hrest]
    exact Nat.le_refl _

theorem Inv.uid_granted {hostNode : String} (hI : Inv hostNode s) {uid : String}
    (hu : uid ∈ s.uids) : Granted s uid := by
  rcases List.mem_append.mp hu with hcall | hstart
  · exact hI.called uid hcall
  · obtain ⟨st', hst', rfl⟩ := List.mem_map.mp hstart
    rcases hI.request.opens with hnil | ⟨st, rest, hl, hg, hrest⟩
    · have hnil : s.up.sent = [] := hnil
      rw [hnil] at hst'
      exact absurd hst' List.not_mem_nil
    · have hone : starts s.up.sent = st :: starts rest := by
        rw [show s.up.sent = _ from hl]
        rfl
      rw [hone, hrest, List.mem_singleton] at hst'
      rw [hst']
      exact hg

/-- **Exec relay soundness.** In every state of every request of the exec API: a MicroVM was named
    to flintlockd only after the request's authorization for that MicroVM succeeded; that
    authorization succeeded only if some claim stored at its moment passes `Authorize`, and
    succeeded if one does and the lookup was answered; at most one ExecStart was sent on; what
    flintlockd got is a prefix of what the caller sent, and what the caller got of what flintlockd
    sent; and where the response has ended, on the agent's side and at the caller, its status is OK
    exactly if it ends with flintlockd's first exit code. -/
theorem exec_relay_sound {w : ExchangeWorld} (h : Reachable payload srv values method w) :
    (∀ uid ∈ w.shared.uids, ∃ d, w.shared.decision = some d ∧ d.outcome = .ok () ∧ d.vmUID = uid) ∧
    (∀ d, w.shared.decision = some d →
      (d.outcome = .ok () → SomePasses d.stored d.caller d.vmUID srv.hostNode d.now) ∧
      (d.answered = true → SomePasses d.stored d.caller d.vmUID srv.hostNode d.now →
        d.outcome = .ok ())) ∧
    (starts w.shared.up.sent).length ≤ 1 ∧
    (w.shared.up.got <+: w.shared.up.sent ∧ w.shared.up.sent <+: w.shared.requests.sent) ∧
    (w.shared.down.got <+: w.shared.down.sent ∧ w.shared.down.sent <+: w.shared.answers.sent) ∧
    (∀ st, w.shared.ended = some st →
      (st.code = .ok ↔ EndsAtFirstExit w.shared.down.sent w.shared.answers.sent)) ∧
    (∀ st, w.shared.response = some st →
      (st.code = .ok ↔ EndsAtFirstExit w.shared.down.got w.shared.answers.sent)) := by
  have hI := h.inv
  have hdown : w.shared.down.sent <+: w.shared.answers.sent :=
    hI.answer.relays.trans w.shared.answers.ordered
  have hended : ∀ st, w.shared.ended = some st →
      (st.code = .ok ↔ EndsAtFirstExit w.shared.down.sent w.shared.answers.sent) :=
    fun st hst => (hI.answer.status st hst).trans (endsAtExit_iff hdown)
  refine ⟨fun uid hu => hI.uid_granted hu, fun d hd => ?_, hI.request.starts_le,
    ⟨w.shared.up.ordered, hI.request.relays.trans w.shared.requests.ordered⟩,
    ⟨w.shared.down.ordered, hdown⟩, hended, fun st hst => ?_⟩
  · exact ⟨(hI.right d hd).only, (hI.right d hd).always⟩
  · obtain ⟨hdrained, hst⟩ := Option.ite_none_right_eq_some.mp hst
    rw [Pipe.got_of_drained hdrained]
    exact hended st hst

/-- A Bound claim of the MicroVM vm-1 on node-1. -/
def someClaim : MicroVMClaim where
  namespace_ := "ns"
  name := "x"
  uid := "u1"
  resourceVersion := 1
  generation := 1
  deletionTimestamp := none
  finalizers := []
  spec := ⟨"pool", none, "runner"⟩
  status := { phase := .bound, microVM := some ⟨"vm-1"⟩, host := some ⟨"node-1", ""⟩,
              leaseExpiresAt := some 100 }

/-- It is the only one stored. -/
def someStored : StoredClaims where
  get key := if key = ⟨"ns", "x"⟩ then some someClaim else none
  keyed key c h := by
    by_cases hk : key = ⟨"ns", "x"⟩
    · subst hk
      cases h
      exact ⟨rfl, by decide⟩
    · simp [if_neg hk] at h

/-- An Exec Agent of node-1. -/
def someServer : Server where
  hostNode := "node-1"
  audiences := ["exec"]
  openTimeout := 10 * second

/-- The token of the claim's Holder is valid. -/
def someReview : Except String TokenReviewStatus :=
  .ok ⟨true, ⟨"system:serviceaccount:ns:runner", []⟩, ["exec"], ""⟩

/-- An exchange in which a command reads one message, writes one and exits. -/
def someExchange : List (Act Thread Choice ExchangeAct) :=
  [.env (.callerSends (.start ⟨"vm-1", []⟩)), .env (.callerSends (.stdin [1])), .spawn .handler,
    .exec .handler {}, .exec .handler { review := someReview }] ++
  List.replicate 6 (.exec .handler {}) ++
  .spawn .opener :: List.replicate 5 (.exec .opener {}) ++
  List.replicate 3 (.exec .handler {}) ++
  .spawn .forwarder :: List.replicate 4 (.exec .forwarder {}) ++
  [.env .flintlockdTakes, .env .flintlockdTakes, .env (.flintlockdSends (.stdout [2])),
    .env (.flintlockdSends (.exitCode 0))] ++
  .spawn .receiver :: List.replicate 4 (.exec .receiver {}) ++
  .spawn .receiver :: List.replicate 4 (.exec .receiver {}) ++
  [.env .callerTakes, .env .callerTakes]

theorem exists_exchange (acts : List (Act Thread Choice ExchangeAct)) (P : ExchangeWorld → Prop)
    [DecidablePred P] (h : ((machine ClaimClient.somePayload someServer ["Bearer h.p.s"]
      .execCommand).replay (fun _ _ => True) (start 0 someStored) acts).any
        (fun w => decide (P w)) = true) :
    ∃ w, Reachable ClaimClient.somePayload someServer ["Bearer h.p.s"] .execCommand w ∧ P w := by
  obtain ⟨w, hrun, hp⟩ := exists_run _ acts P h
  exact ⟨w, ⟨0, someStored, hrun⟩, hp⟩

/-- The Holder's exchange ends with OK, and with the exit code. -/
theorem exec_relay_sound_exited :
    ∃ w, Reachable ClaimClient.somePayload someServer ["Bearer h.p.s"] .execCommand w ∧
      w.shared.uids = ["vm-1", "vm-1"] ∧
      w.shared.up.got = [.start ⟨"vm-1", []⟩, .stdin [1]] ∧
      w.shared.response = some ⟨.ok, ""⟩ ∧
      EndsAtFirstExit w.shared.down.got w.shared.answers.sent := by
  obtain ⟨w, hr, huids, hup, hresp⟩ := exists_exchange someExchange
    (fun w => w.shared.uids = ["vm-1", "vm-1"] ∧
      w.shared.up.got = [.start ⟨"vm-1", []⟩, .stdin [1]] ∧
      w.shared.response = some ⟨.ok, ""⟩) (by decide +kernel)
  obtain ⟨_, _, _, _, _, _, hends⟩ := exec_relay_sound hr
  exact ⟨w, hr, huids, hup, hresp, (hends _ hresp).mp rfl⟩

end BatteryOperator.ExecAgent.Relay
