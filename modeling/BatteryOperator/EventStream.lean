/-
  Subject:   The event stream of the battery client (internal/battery/client.go, `newEventStream`,
             `eventStream.Recv`, `Close`): a reader goroutine hands results to the calls of Recv.

  The reader takes one result after the other off the gRPC stream and offers it on an unbuffered
  channel; a call of Recv takes it, or ends with its own context, or with the subscription. The
  hand-off is the one step in which a result changes hands: it moves the reader and the call.

  * `y n` is what the n-th receive on the gRPC stream yields while the subscription lasts. Once it
    has ended, the receive may fail at any time as well.
  * The calls of Recv come one after the other, each with a context of its own. `returned` lists
    what they returned; no code reads it.

  Shown: the events returned are a prefix of the stream's, its error comes after every event before
  it, and an error that is not the call's own is final.
-/
import BatteryOperator.Battery
import Mathlib.Data.List.Range

namespace BatteryOperator.EventStream

/-! ## 1. The stream and its two sides -/

/-- The wire `Event`. -/
structure WireEvent where
  id : Int
  poolName : String
  poolNamespace : String
  vmUid : String
  type : Int
  createdAt : Time
  payloadJson : String
  deriving DecidableEq

/-- `Event`. -/
structure Event where
  id : Int
  pool : PoolRef
  vmUID : String
  type : Int
  at_ : Time
  payload : Option String
  deriving DecidableEq

/-- `eventFromProto`. -/
def eventFromProto (e : WireEvent) : Event where
  id := e.id
  pool := ⟨e.poolName, e.poolNamespace⟩
  vmUID := e.vmUid
  type := e.type
  at_ := e.createdAt
  payload := if e.payloadJson ≠ "" then some e.payloadJson else none

/-- `streamResult`: an event, or an error with its status's message. -/
inductive StreamResult where
  | event (e : WireEvent)
  | failed (message : String)
  deriving DecidableEq

/-- Where the reader goroutine is: in `stream.Recv`, in its select, or gone. -/
inductive Reader where
  | receiving
  | offering (r : StreamResult)
  | gone
  deriving DecidableEq

/-- What a call of Recv returned: an event, its own context's error, or another error. -/
inductive Returned where
  | event (e : Event)
  | own (e : BatteryError)
  | ended (e : BatteryError)
  deriving DecidableEq

/-- A call of Recv in its select, with the end of its own context. -/
structure RecvCall where
  ended : Option ContextEnd
  deriving DecidableEq

/-- An `eventStream` with its reader, and the call of Recv in progress. -/
structure State where
  reader : Reader := .receiving
  /-- How many results were taken off the gRPC stream. -/
  received : Nat := 0
  /-- `streamCtx` has ended. -/
  streamDone : Bool := false
  terminal : Option BatteryError := none
  call : Option RecvCall := none
  returned : List Returned := []
  deriving DecidableEq

/-- The error of a subscription that was closed. -/
def closedError : BatteryError := errUnavailable "events stream closed"

/-- The error of a stream that ended with a status. -/
def endedError (message : String) : BatteryError :=
  errUnavailable ("events stream ended: " ++ message)

inductive Act where
  /-- The gRPC stream yields its next result to the reader. -/
  | receive
  /-- A receive fails because the subscription has ended. -/
  | receiveCancelled (message : String)
  | readerLeaves
  /-- `Close`, or the end of the context the subscription was made with. -/
  | streamEnds
  | recv
  | ownContextEnds (e : ContextEnd)
  | abandoned
  | streamClosed
  | handOff
  deriving DecidableEq

namespace State

/-- The call in progress returns. -/
def return_ (s : State) (r : Returned) : State :=
  { s with call := none, returned := s.returned ++ [r] }

/-- `Recv` takes a result. -/
def take (s : State) : StreamResult → State
  | .failed message =>
    { s with terminal := some (endedError message) }.return_ (.ended (endedError message))
  | .event e => s.return_ (.event (eventFromProto e))

end State

/-- The reader after it handed over a result. -/
def StreamResult.next : StreamResult → Reader
  | .event _ => .receiving
  | .failed _ => .gone

/-- **One step of the stream.** A select may take any of its cases that is ready. -/
def step (y : Nat → StreamResult) (s : State) : Act → Option State
  | .receive =>
    if s.reader = .receiving then
      some { s with reader := .offering (y s.received), received := s.received + 1 }
    else none
  | .receiveCancelled message =>
    if s.reader = .receiving ∧ s.streamDone then
      some { s with reader := .offering (.failed message) }
    else none
  | .readerLeaves =>
    match s.reader with
    | .offering _ => if s.streamDone then some { s with reader := .gone } else none
    | _ => none
  | .streamEnds => some { s with streamDone := true }
  | .recv =>
    match s.call, s.terminal with
    | some _, _ => none
    -- A stream that ended repeats its error.
    | none, some e => some (s.return_ (.ended e))
    | none, none => some { s with call := some ⟨none⟩ }
  | .ownContextEnds e =>
    match s.call with
    | some ⟨none⟩ => some { s with call := some ⟨some e⟩ }
    | _ => none
  | .abandoned =>
    match s.call with
    | some ⟨some e⟩ => some (s.return_ (.own e.error))
    | _ => none
  | .streamClosed =>
    if s.call.isSome ∧ s.streamDone then
      some ({ s with terminal := some closedError }.return_ (.ended closedError))
    else none
  | .handOff =>
    match s.call, s.reader with
    | some _, .offering r => some ({ s with reader := r.next }.take r)
    | _, _ => none

/-- The states a new stream reaches. -/
inductive Reachable (y : Nat → StreamResult) : State → Prop where
  | start : Reachable y {}
  | step (s s' : State) (a : Act) (h : Reachable y s) (hs : step y s a = some s') : Reachable y s'

/-! ## 2. What was returned, and what the stream yields -/

/-- The events among what was returned. -/
def eventsOf (rs : List Returned) : List Event :=
  rs.filterMap fun
    | .event e => some e
    | _ => none

@[simp] theorem eventsOf_append (rs ts : List Returned) :
    eventsOf (rs ++ ts) = eventsOf rs ++ eventsOf ts := List.filterMap_append

/-- The first `n` results of the stream are events. -/
def EventsBefore (y : Nat → StreamResult) (n : Nat) : Prop := ∀ i < n, ∃ e, y i = .event e

/-- The events among the stream's first `n` results. -/
def firstEvents (y : Nat → StreamResult) (n : Nat) : List Event :=
  (List.range n).filterMap fun i =>
    match y i with
    | .event e => some (eventFromProto e)
    | .failed _ => none

variable {y : Nat → StreamResult} {n : Nat} {e : WireEvent} {s : State}

theorem firstEvents_succ (h : y n = .event e) :
    firstEvents y (n + 1) = firstEvents y n ++ [eventFromProto e] := by
  simp [firstEvents, List.range_succ, h]

theorem EventsBefore.succ (hn : EventsBefore y n) (h : y n = .event e) :
    EventsBefore y (n + 1) := by
  intro i hi
  rcases Nat.lt_succ_iff_lt_or_eq.mp hi with hlt | rfl
  · exact hn i hlt
  · exact ⟨e, h⟩

/-! ## 3. The invariant -/

/-- Where the result after the `n` events that were returned is: still on the stream, with the
    reader, or returned as the stream's error; or the subscription has ended. -/
def Held (y : Nat → StreamResult) (n : Nat) (s : State) : Prop :=
  match s.reader with
  | .receiving => s.received = n ∧ (s.terminal = none ∨ s.streamDone = true)
  | .offering r =>
    (s.received = n + 1 ∧ r = y n ∨ s.streamDone = true ∧ ∃ message, r = .failed message) ∧
      (s.terminal = none ∨ s.streamDone = true)
  | .gone => s.streamDone = true ∨
      ∃ message, y n = .failed message ∧ s.terminal = some (endedError message)

/-- Nothing but the terminal error is returned once there is one. -/
def Final (s : State) : Prop :=
  ∃ before m, s.returned = before ++ m ∧ (∀ r ∈ before, ∀ e, r ≠ .ended e) ∧
    ∀ r ∈ m, ∃ e, s.terminal = some e ∧ r = .ended e

/-- A call in progress finds no terminal error. -/
structure Inv (y : Nat → StreamResult) (s : State) : Prop where
  delivered : ∃ n, EventsBefore y n ∧ eventsOf s.returned = firstEvents y n ∧ Held y n s
  final : Final s
  calling : s.call.isSome → s.terminal = none

theorem Final.noError (h : Final s) (ht : s.terminal = none) :
    ∀ r ∈ s.returned, ∀ e, r ≠ .ended e := by
  obtain ⟨before, m, heq, hb, hm⟩ := h
  intro r hr e
  rw [heq] at hr
  rcases List.mem_append.mp hr with hr | hr
  · exact hb r hr e
  · obtain ⟨e', he, _⟩ := hm r hr
    simp [ht] at he

/-- A call that returns no terminal error. -/
theorem Final.return_ (h : Final s) (ht : s.terminal = none) {r : Returned}
    (hr : ∀ e, r ≠ .ended e) (reader : Reader) : Final ({ s with reader := reader }.return_ r) := by
  refine ⟨s.returned ++ [r], [], (List.append_nil _).symm, ?_, nofun⟩
  intro t ht'
  rcases List.mem_append.mp ht' with hmem | hmem
  · exact h.noError ht t hmem
  · rw [List.mem_singleton.mp hmem]
    exact hr

/-- The call that returns the terminal error first. -/
theorem Final.end_ (h : Final s) (ht : s.terminal = none) (e : BatteryError) (reader : Reader) :
    Final ({ s with reader := reader, terminal := some e }.return_ (.ended e)) := by
  refine ⟨s.returned, [.ended e], rfl, h.noError ht, fun r hr => ?_⟩
  exact ⟨e, rfl, List.mem_singleton.mp hr⟩

/-- A call that repeats it. -/
theorem Final.repeat_ (h : Final s) {e : BatteryError} (ht : s.terminal = some e) :
    Final (s.return_ (.ended e)) := by
  obtain ⟨before, m, heq, hb, hm⟩ := h
  refine ⟨before, m ++ [.ended e], ?_, hb, fun r hr => ?_⟩
  · show s.returned ++ [.ended e] = before ++ (m ++ [.ended e])
    rw [heq, List.append_assoc]
  · rcases List.mem_append.mp hr with hr | hr
    · exact hm r hr
    · exact ⟨e, ht, List.mem_singleton.mp hr⟩

/-- The hand-off of the next event. -/
theorem Inv.takes_event (h : Inv y s) (hcall : s.call.isSome)
    (hr : s.reader = .offering (.event e)) :
    Inv y ({ s with reader := .receiving }.take (.event e)) := by
  have ht : s.terminal = none := h.calling hcall
  obtain ⟨n, hn, hev, hheld⟩ := h.delivered
  rw [Held, hr] at hheld
  rcases hheld.1 with ⟨hrec, hy⟩ | ⟨_, message, hne⟩
  · refine ⟨⟨n + 1, hn.succ hy.symm, ?_, hrec, .inl ht⟩, ?_, nofun⟩
    · show eventsOf (s.returned ++ [_]) = _
      rw [eventsOf_append, hev, firstEvents_succ hy.symm]
      rfl
    · exact h.final.return_ ht (fun _ he => Returned.noConfusion he) .receiving
  · cases hne

/-- The hand-off of an error. -/
theorem Inv.takes_error (h : Inv y s) {message : String} (hcall : s.call.isSome)
    (hr : s.reader = .offering (.failed message)) :
    Inv y ({ s with reader := .gone }.take (.failed message)) := by
  have ht : s.terminal = none := h.calling hcall
  obtain ⟨n, hn, hev, hheld⟩ := h.delivered
  rw [Held, hr] at hheld
  refine ⟨⟨n, hn, ?_, ?_⟩, h.final.end_ ht _ .gone, nofun⟩
  · show eventsOf (s.returned ++ [_]) = _
    rw [eventsOf_append, hev]
    exact List.append_nil _
  · rcases hheld.1 with ⟨_, hy⟩ | ⟨hdone, _⟩
    · exact .inr ⟨message, hy.symm, rfl⟩
    · exact .inl hdone

/-- A call that ends without a result of the stream leaves it where it is. -/
theorem Inv.returns (h : Inv y s) {r : Returned} (hr : eventsOf [r] = [])
    (hfinal : Final (s.return_ r)) : Inv y (s.return_ r) := by
  obtain ⟨n, hn, hev, hheld⟩ := h.delivered
  refine ⟨⟨n, hn, ?_, hheld⟩, hfinal, nofun⟩
  show eventsOf (s.returned ++ [r]) = _
  rw [eventsOf_append, hev, hr, List.append_nil]

/-- The subscription ends. -/
theorem Held.done (h : Held y n s) : Held y n { s with streamDone := true } := by
  obtain ⟨reader, received, streamDone, terminal, call, returned⟩ := s
  cases reader with
  | receiving => exact ⟨h.1, .inr rfl⟩
  | offering r =>
    refine ⟨?_, .inr rfl⟩
    rcases h.1 with hy | ⟨_, hf⟩
    · exact .inl hy
    · exact .inr ⟨rfl, hf⟩
  | gone => exact .inl rfl

/-- **One step keeps the invariant.** -/
theorem Inv.step {s' : State} {a : Act} (h : Inv y s) (hs : step y s a = some s') : Inv y s' := by
  obtain ⟨n, hn, hev, hheld⟩ := h.delivered
  cases a with
  | receive =>
    obtain ⟨hr, hs⟩ := Option.ite_none_right_eq_some.mp hs
    cases hs
    rw [Held, hr] at hheld
    obtain ⟨hrec, hterm⟩ := hheld
    refine ⟨⟨n, hn, hev, .inl ⟨?_, ?_⟩, hterm⟩, h.final, h.calling⟩
    · exact congrArg (· + 1) hrec
    · exact congrArg y hrec
  | receiveCancelled message =>
    obtain ⟨hr, hs⟩ := Option.ite_none_right_eq_some.mp hs
    cases hs
    exact ⟨⟨n, hn, hev, .inr ⟨hr.2, message, rfl⟩, .inr hr.2⟩, h.final, h.calling⟩
  | readerLeaves =>
    simp only [EventStream.step] at hs
    split at hs
    · obtain ⟨hdone, hs⟩ := Option.ite_none_right_eq_some.mp hs
      cases hs
      exact ⟨⟨n, hn, hev, .inl hdone⟩, h.final, h.calling⟩
    · cases hs
  | streamEnds =>
    cases hs
    exact ⟨⟨n, hn, hev, hheld.done⟩, h.final, h.calling⟩
  | recv =>
    simp only [EventStream.step] at hs
    split at hs
    · cases hs
    next e _ ht =>
      cases hs
      exact h.returns rfl (h.final.repeat_ ht)
    next ht =>
      cases hs
      exact ⟨⟨n, hn, hev, hheld⟩, h.final, fun _ => ht⟩
  | ownContextEnds e =>
    simp only [EventStream.step] at hs
    split at hs
    next hc =>
      cases hs
      exact ⟨⟨n, hn, hev, hheld⟩, h.final, fun _ => h.calling (by rw [hc]; rfl)⟩
    · cases hs
  | abandoned =>
    simp only [EventStream.step] at hs
    split at hs
    next e hc =>
      cases hs
      have ht : s.terminal = none := h.calling (by rw [hc]; rfl)
      exact h.returns rfl (h.final.return_ ht (fun _ he => Returned.noConfusion he) s.reader)
    · cases hs
  | streamClosed =>
    obtain ⟨hc, hs⟩ := Option.ite_none_right_eq_some.mp hs
    cases hs
    have ht : s.terminal = none := h.calling hc.1
    refine ⟨⟨n, hn, ?_, ?_⟩, h.final.end_ ht _ s.reader, nofun⟩
    · show eventsOf (s.returned ++ [_]) = _
      rw [eventsOf_append, hev]
      exact List.append_nil _
    · -- The subscription has ended, so where the next result is does not matter any more.
      obtain ⟨reader, received, streamDone, terminal, call, returned⟩ := s
      cases reader with
      | receiving | offering => exact ⟨hheld.1, .inr hc.2⟩
      | gone => exact .inl hc.2
  | handOff =>
    simp only [EventStream.step] at hs
    split at hs
    next c r hc hr =>
      cases hs
      have hcall : s.call.isSome := by rw [hc]; rfl
      cases r with
      | event e => exact h.takes_event hcall hr
      | failed message => exact h.takes_error hcall hr
    · cases hs

theorem Reachable.inv (h : Reachable y s) : Inv y s := by
  induction h with
  | start =>
    refine ⟨⟨0, fun i hi => absurd hi (Nat.not_lt_zero i), rfl, rfl, .inl rfl⟩, ?_, fun hc => ?_⟩
    · exact ⟨[], [], rfl, nofun, nofun⟩
    · cases hc
  | step s s' a _ hs ih => exact ih.step hs

/-! ## 4. What the calls return -/

theorem eventsOf_ended {e : BatteryError} {rs : List Returned} (h : ∀ r ∈ rs, r = .ended e) :
    eventsOf rs = [] := by
  refine List.filterMap_eq_nil_iff.mpr fun r hr => ?_
  rw [h r hr]

/-- **Nothing but the same error is returned after an error that is not the call's own.** -/
theorem Final.split (h : Final s) {pre post : List Returned} {e : BatteryError}
    (hs : s.returned = pre ++ .ended e :: post) :
    s.terminal = some e ∧ (∀ r ∈ post, r = .ended e) := by
  obtain ⟨before, m, heq, hb, hm⟩ := h
  -- The error is not among the first calls, so it is among those that return the terminal one.
  have hin : ∃ a, m = a ++ .ended e :: post := by
    rcases List.append_eq_append_iff.mp (heq.symm.trans hs) with ⟨a, _, hma⟩ | ⟨c, hbc, hcm⟩
    · exact ⟨a, hma⟩
    · cases c with
      | nil => exact ⟨[], hcm.symm⟩
      | cons r c =>
        have hr : r = .ended e := (List.cons.inj hcm).1.symm
        refine absurd hr (hb r ?_ e)
        rw [hbc]
        exact List.mem_append_right _ List.mem_cons_self
  obtain ⟨a, hma⟩ := hin
  have hterm : s.terminal = some e := by
    obtain ⟨e', he, heq'⟩ := hm (.ended e) (by rw [hma]; simp)
    cases heq'
    exact he
  refine ⟨hterm, fun r hr => ?_⟩
  obtain ⟨e', he, rfl⟩ := hm r (by rw [hma]; simp [hr])
  rw [hterm] at he
  cases he
  rfl

/-- **The event stream loses and repeats nothing.** In every state a stream reaches: the events
    returned are the stream's first ones in order, none missing and none twice; as long as the
    subscription lasts, an error that is not the call's own is the stream's, returned after every
    event before it; and from then on every call returns that same error. -/
theorem stream_loses_nothing (y : Nat → StreamResult) (s : State) (h : Reachable y s) :
    (∃ n, EventsBefore y n ∧ eventsOf s.returned = firstEvents y n) ∧
      (∀ pre post e, s.returned = pre ++ .ended e :: post →
        (s.streamDone = false → ∃ n message, EventsBefore y n ∧ y n = .failed message ∧
          e = endedError message ∧ eventsOf pre = firstEvents y n) ∧
        (∀ r ∈ post, r = .ended e) ∧
        (step y s .recv).map State.returned = some (s.returned ++ [.ended e])) := by
  have hinv : Inv y s := h.inv
  obtain ⟨n, hn, hev, hheld⟩ := hinv.delivered
  refine ⟨⟨n, hn, hev⟩, fun pre post e hs => ?_⟩
  obtain ⟨hterm, hpost⟩ := hinv.final.split hs
  refine ⟨fun hopen => ?_, hpost, ?_⟩
  · have hpre : eventsOf pre = firstEvents y n := by
      rw [← hev, hs, eventsOf_append]
      have htail : eventsOf (.ended e :: post) = [] :=
        eventsOf_ended (List.forall_mem_cons.mpr ⟨rfl, hpost⟩)
      rw [htail, List.append_nil]
    obtain ⟨reader, received, streamDone, terminal, call, returned⟩ := s
    cases hterm
    cases hopen
    cases reader with
    | receiving | offering => rcases hheld.2 with ht | ht <;> cases ht
    | gone =>
      rcases hheld with ht | ⟨message, hy, ht⟩
      · cases ht
      · exact ⟨n, message, hn, hy, Option.some.inj ht, hpre⟩
  · have hidle : s.call = none := by
      cases hc : s.call with
      | none => rfl
      | some c =>
        simp [hinv.calling (by rw [hc]; rfl)] at hterm
    simp only [step, hidle, hterm, Option.map_some, State.return_]

theorem reachable_run (acts : List Act) {s' : State} (h : Reachable y s)
    (hrun : acts.foldlM (step y) s = some s') : Reachable y s' := by
  induction acts generalizing s with
  | nil =>
    cases hrun
    exact h
  | cons a acts ih =>
    obtain ⟨s1, h1, h2⟩ := Option.bind_eq_some_iff.mp hrun
    exact ih (.step s s1 a h h1) h2

/-- Two events and the end of a stream. -/
def twoEvents : Nat → StreamResult
  | 0 => .event ⟨1, "pool-a", "default", "vm-1", 1, 0, ""⟩
  | 1 => .event ⟨2, "pool-a", "default", "vm-1", 2, 5, "\x7b\x7d"⟩
  | _ => .failed "connection reset"

/-- A call that is abandoned while the reader offers the first event; the next two calls return the
    events, and the two after them the stream's error. -/
def abandonedCall : List Act :=
  [.recv, .receive, .ownContextEnds .canceled, .abandoned, .recv, .handOff, .receive, .recv,
    .handOff, .recv, .receive, .handOff, .recv]

/-- The calls return both events; the error that the fourth one returns is the stream's, after the
    two events before it, and so is that of the next call. -/
theorem stream_loses_nothing_abandoned :
    ∃ s pre, Reachable twoEvents s ∧ eventsOf s.returned = firstEvents twoEvents 2 ∧
      s.returned = pre ++ List.replicate 2 (.ended (endedError "connection reset")) ∧
      (∃ n, EventsBefore twoEvents n ∧ eventsOf s.returned = firstEvents twoEvents n) ∧
      (∃ n message, EventsBefore twoEvents n ∧ twoEvents n = .failed message ∧
        endedError "connection reset" = endedError message ∧
        eventsOf pre = firstEvents twoEvents n) ∧
      (step twoEvents s .recv).map State.returned =
        some (s.returned ++ [.ended (endedError "connection reset")]) := by
  have hrun : (abandonedCall.foldlM (step twoEvents) {}).any (fun s =>
      decide (eventsOf s.returned = firstEvents twoEvents 2 ∧ s.streamDone = false ∧
        s.returned.drop 3 = List.replicate 2 (.ended (endedError "connection reset")))) := by
    decide +kernel
  obtain ⟨s, hs, hp⟩ := (Option.any_eq_true ..).mp hrun
  obtain ⟨hev, hopen, hdrop⟩ := of_decide_eq_true hp
  have hreach : Reachable twoEvents s := reachable_run abandonedCall .start hs
  obtain ⟨hevents, herror⟩ := stream_loses_nothing twoEvents s hreach
  have hsplit := (s.returned.take_append_drop 3).symm
  rw [hdrop] at hsplit
  obtain ⟨hstream, -, hnext⟩ := herror _ _ _ hsplit
  exact ⟨s, _, hreach, hev, hsplit, hevents, hstream hopen, hnext⟩

/-! ## 5. Progress -/

@[simp] theorem take_call (r : StreamResult) : (s.take r).call = none := by
  cases r <;> rfl

/-- **No call of Recv waits for a reader that is gone.** In every state a stream reaches, a call in
    progress returns with the stream's next result, or at once since the subscription has ended. -/
theorem recv_never_stuck (h : Reachable y s) (hc : s.call.isSome) :
    ∃ acts ∈ [[.handOff], [.receive, .handOff], [.streamClosed]],
      (acts.foldlM (step y) s).map State.call = some none := by
  obtain ⟨n, -, -, hheld⟩ := h.inv.delivered
  obtain ⟨c, hcall⟩ := Option.isSome_iff_exists.mp hc
  cases hr : s.reader with
  | receiving => exact ⟨[.receive, .handOff], by simp, by simp [step, hr, hcall]⟩
  | offering r => exact ⟨[.handOff], by simp, by simp [step, hr, hcall]⟩
  | gone =>
    -- a call took the stream's error, and none is in progress after that
    rw [Held, hr] at hheld
    obtain hdone | ⟨_, _, he⟩ := hheld
    · exact ⟨[.streamClosed], by simp, by simp [step, hcall, hdone, State.return_]⟩
    · simp [h.inv.calling hc] at he

/-- The subscription ends and the reader leaves; the call that comes then returns. -/
theorem recv_never_stuck_first : ∃ s, Reachable twoEvents s ∧ s.reader = .gone ∧ s.call.isSome ∧
    ∃ acts, (List.foldlM (step twoEvents) s acts).map State.call = some none := by
  have hrun : ([.receive, .streamEnds, .readerLeaves, .recv].foldlM (step twoEvents) {}).any
      (fun s => decide (s.reader = .gone ∧ s.call.isSome)) := by decide +kernel
  obtain ⟨s, hs, hp⟩ := (Option.any_eq_true ..).mp hrun
  obtain ⟨hgone, hcall⟩ := of_decide_eq_true hp
  have hreach : Reachable twoEvents s := reachable_run _ .start hs
  obtain ⟨acts, _, hret⟩ := recv_never_stuck hreach hcall
  exact ⟨s, hreach, hgone, hcall, acts, hret⟩

end BatteryOperator.EventStream
