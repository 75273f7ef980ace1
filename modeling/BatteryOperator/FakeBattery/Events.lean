/-
  Subject:   The events of the fake battery (internal/fakebattery/events.go, `eventBus`; server.go,
             `eventsServer.Subscribe`).

  A publication, a subscription and the injected drop hold the bus's lock and are one step each. A
  Subscribe stream sends its backlog and then waits in a select, which may take any case that is
  ready; an event it took off its channel is sent in a step of its own, so a slow reader holds it
  up there while the buffer fills.

  A stream whose buffer is full leaves the event out and is told to end, but the select may take
  another event first. That makes room, and what is published then gets into the buffer after the
  event that was left out: the stream has a gap. So the property needs `unfilled`: no event is put
  into the buffer of a stream that left out one of its Pool.

  * `Follows` -- what a stream sent, sends and has in its buffer is a run of each Pool's events;
  * `events_contiguous` -- **the events a stream sends have no gap**;
  * `gap_after_full_buffer` -- the gap.
-/
import BatteryOperator.EventStream
import BatteryOperator.Lib.Dict
import BatteryOperator.Lib.Steps
import Mathlib.Data.List.DropRight

namespace BatteryOperator.FakeEvents

open Lib
open EventStream (WireEvent)

/-! ## 1. The bus and its streams -/

def subscriberBuffer : Nat := 256

/-- The Pool an event is published for. -/
def keyOf (e : WireEvent) : PoolRef := ⟨e.poolName, e.poolNamespace⟩

/-- A `subscriber` with the Subscribe stream it belongs to. -/
structure Stream where
  filter : Option PoolRef
  ch : List WireEvent := []
  dropped : Bool := false
  /-- It is one of the bus's `subs`. -/
  subscribed : Bool := true
  /-- What is to be sent before the next select: the backlog, then the event taken last. -/
  sending : List WireEvent
  sent : List WireEvent := []
  /-- What `Subscribe` returned: nil, or an error. -/
  returned : Option (Option (GrpcCode × String)) := none
  -- The history: what had been published when it subscribed, and the Pools of the events that were
  -- left out because the buffer was full.
  before : List WireEvent
  missed : List PoolRef := []

namespace Stream

def matches_ (st : Stream) (key : PoolRef) : Bool := st.filter = none || st.filter = some key

def drop (st : Stream) : Stream := { st with dropped := true }

/-- The select of `publish`. -/
def offer (st : Stream) (e : WireEvent) : Stream :=
  if st.ch.length < subscriberBuffer then { st with ch := st.ch ++ [e] }
  else { st.drop with missed := keyOf e :: st.missed }

end Stream

/-- `eventBus`, with every stream there has been, and what was published, oldest first. -/
structure State where
  recent : Dict PoolRef (List WireEvent) := ∅
  streams : List Stream := []
  published : List WireEvent := []

namespace State

/-- The recent events of a Pool. -/
def log (s : State) (key : PoolRef) : List WireEvent := (s.recent.lookup key).getD []

def publish (replay : Nat) (s : State) (e : WireEvent) : State :=
  let log := s.log (keyOf e) ++ [e]
  { s with
    recent := AList.insert (keyOf e)
      (if log.length > replay then log.drop (log.length - replay) else log) s.recent
    streams := s.streams.map fun st =>
      if st.subscribed && st.matches_ (keyOf e) then st.offer e else st
    published := s.published ++ [e] }

/-- What is replayed; `order` is the one in which the Pools of `recent` are gone through. -/
def backlog (s : State) (filter : Option PoolRef) (order : List PoolRef) : List WireEvent :=
  match filter with
  | some key => s.log key
  | none => order.flatMap s.log

def subscribe (s : State) (filter : Option PoolRef) (order : List PoolRef) : State :=
  let st := { filter := filter, sending := s.backlog filter order, before := s.published }
  { s with streams := s.streams ++ [st] }

def dropAll (s : State) : State :=
  { s with streams := s.streams.map fun st => if st.subscribed then st.drop else st }

end State

/-- What happens in one stream. -/
inductive StreamAct where
  | send
  /-- `Send` fails; the event may have been sent all the same. -/
  | sendFails (delivered : Bool) (e : GrpcCode × String)
  -- The cases of the select.
  | contextDone
  | seesDrop
  | take
  | unsubscribe

inductive Act where
  | publish (e : WireEvent)
  | subscribe (filter : Option PoolRef) (order : List PoolRef)
  | dropAll
  | stream (i : Nat) (a : StreamAct)

/-- `Subscribe`, from one wait to the next. -/
def Stream.step (st : Stream) : StreamAct → Option Stream
  | .send =>
    match st.returned, st.sending with
    | none, e :: rest => some { st with sent := st.sent ++ [e], sending := rest }
    | _, _ => none
  | .sendFails delivered err =>
    match st.returned, st.sending with
    | none, e :: rest =>
      some (if delivered then
          { st with sent := st.sent ++ [e], sending := rest, returned := some (some err) }
        else { st with returned := some (some err) })
    | _, _ => none
  | .contextDone =>
    match st.returned, st.sending with
    | none, [] => some { st with returned := some none }
    | _, _ => none
  | .seesDrop =>
    match st.returned, st.sending, st.dropped with
    | none, [], true =>
      some { st with returned := some (some (.unavailable, "events stream dropped")) }
    | _, _, _ => none
  | .take =>
    match st.returned, st.sending, st.ch with
    | none, [], e :: rest => some { st with sending := [e], ch := rest }
    | _, _, _ => none
  | .unsubscribe => if st.returned.isSome then some { st with subscribed := false } else none

/-- One step, with the number of events to replay. -/
def step (replay : Nat) (s : State) : Act → Option State
  | .publish e => some (s.publish replay e)
  | .subscribe filter order =>
    if filter.isSome ∨ order.Perm s.recent.keys then some (s.subscribe filter order) else none
  | .dropAll => some s.dropAll
  | .stream i a => do
    let st ← s.streams[i]?
    let st' ← st.step a
    some { s with streams := s.streams.set i st' }

/-! ## 2. The events of one Pool -/

def ofPool (key : PoolRef) (es : List WireEvent) : List WireEvent :=
  es.filter fun e => keyOf e = key

/-- A Pool's events from the first one replayed to the stream. -/
def due (replay : Nat) (published : List WireEvent) (st : Stream) (key : PoolRef) :
    List WireEvent :=
  (ofPool key published).drop ((ofPool key st.before).length - replay)

/-- What the stream sent, what it sends, and what waits in its buffer. -/
def Stream.all (st : Stream) : List WireEvent := st.sent ++ st.sending ++ st.ch

variable {replay : Nat} {s s' : State} {st st' : Stream} {key : PoolRef} {e : WireEvent}
  {es published : List WireEvent}

@[simp] theorem ofPool_append (es es' : List WireEvent) :
    ofPool key (es ++ es') = ofPool key es ++ ofPool key es' := List.filter_append ..

theorem ofPool_self : ofPool (keyOf e) [e] = [e] := by simp [ofPool]

theorem ofPool_other (h : keyOf e ≠ key) : ofPool key [e] = [] := by simp [ofPool, h]

theorem ofPool_of_forall (h : ∀ e ∈ es, keyOf e = key) : ofPool key es = es :=
  List.filter_eq_self.mpr fun e he => decide_eq_true (h e he)

/-- The last events of a list that gets one more. -/
theorem rtake_append (es : List WireEvent) (e : WireEvent) (n : Nat) :
    (es.rtake n ++ [e]).rtake n = (es ++ [e]).rtake n := by
  cases n with
  | zero => simp
  | succ n =>
    rw [List.rtake_concat_succ, List.rtake_concat_succ]
    congr 1
    simp only [List.rtake, List.length_drop, List.drop_drop]
    congr 1
    omega

/-- The logs of all Pools, one after the other, give each Pool's own. -/
theorem ofPool_flatMap {log : PoolRef → List WireEvent}
    (hlog : ∀ k, ∀ e ∈ log k, keyOf e = k) {order : List PoolRef} (hn : order.Nodup) :
    ofPool key (order.flatMap log) = if key ∈ order then log key else [] := by
  induction order with
  | nil => rfl
  | cons k order ih =>
    rw [List.flatMap_cons, ofPool_append, ih (List.nodup_cons.mp hn).2]
    by_cases hk : k = key
    · subst hk
      rw [ofPool_of_forall (hlog k), if_neg (List.nodup_cons.mp hn).1]
      simp
    · have hnone : ofPool key (log k) = [] :=
        List.filter_eq_nil_iff.mpr fun e he => by simp [hlog k e he, hk]
      simp [hnone, Ne.symm hk]

/-! ## 3. The invariant -/

/-- **What a stream has of each Pool** is a run of its events from the first one replayed, and all
    of them, as long as none was left out. -/
structure Follows (replay : Nat) (published : List WireEvent) (st : Stream) : Prop where
  before : st.before <+: published
  run : ∀ key, st.matches_ key → ofPool key st.all <+: due replay published st key
  whole : ∀ key, st.matches_ key → st.subscribed → key ∉ st.missed →
    ofPool key st.all = due replay published st key

structure Inv (replay : Nat) (s : State) : Prop where
  recent : ∀ key, s.log key = (ofPool key s.published).rtake replay
  streams : ∀ st ∈ s.streams, Follows replay s.published st

/-- What a step of the stream leaves alone. -/
theorem Stream.step_same {a : StreamAct} (h : st.step a = some st') :
    st'.filter = st.filter ∧ st'.before = st.before ∧ st'.missed = st.missed ∧
      (st'.subscribed → st.subscribed) ∧ st'.all = st.all := by
  cases a with
  | send =>
    simp only [Stream.step] at h
    split at h
    next e rest _ hs =>
      cases h
      exact ⟨rfl, rfl, rfl, id, by simp [Stream.all, hs]⟩
    · cases h
  | sendFails delivered err =>
    simp only [Stream.step] at h
    split at h
    next e rest _ hs =>
      cases h
      cases delivered with
      | false => exact ⟨rfl, rfl, rfl, id, rfl⟩
      | true => exact ⟨rfl, rfl, rfl, id, by simp [Stream.all, hs]⟩
    · cases h
  | contextDone | seesDrop =>
    simp only [Stream.step] at h
    split at h
    · cases h
      exact ⟨rfl, rfl, rfl, id, rfl⟩
    · cases h
  | take =>
    simp only [Stream.step] at h
    split at h
    next e rest _ hs hc =>
      cases h
      exact ⟨rfl, rfl, rfl, id, by simp [Stream.all, hs, hc]⟩
    · cases h
  | unsubscribe =>
    obtain ⟨-, h⟩ := Option.ite_none_right_eq_some.mp h
    cases h
    exact ⟨rfl, rfl, rfl, nofun, rfl⟩

theorem Follows.same (h : Follows replay published st) (hf : st'.filter = st.filter)
    (hb : st'.before = st.before) (hm : st'.missed = st.missed)
    (hs : st'.subscribed → st.subscribed) (ha : st'.all = st.all) :
    Follows replay published st' := by
  have hmatch : ∀ key, st'.matches_ key = st.matches_ key := by
    intro key
    unfold Stream.matches_
    rw [hf]
  have hdue : ∀ key, due replay published st' key = due replay published st key := by
    intro key
    unfold due
    rw [hb]
  refine ⟨hb ▸ h.before, fun key hk => ?_, fun key hk hsub hn => ?_⟩
  · rw [ha, hdue]
    exact h.run key (hmatch key ▸ hk)
  · rw [ha, hdue]
    exact h.whole key (hmatch key ▸ hk) (hs hsub) (hm ▸ hn)

/-- One more event of the Pool, or of another. -/
theorem due_publish (h : st.before <+: published) : due replay (published ++ [e]) st key =
    due replay published st key ++ ofPool key [e] := by
  have hle : (ofPool key st.before).length - replay ≤ (ofPool key published).length :=
    Nat.le_trans (Nat.sub_le ..) (h.filter _).length_le
  rw [due, ofPool_append, List.drop_append_of_le_length hle, due]

/-- A publication of which the stream gets nothing. -/
theorem Follows.passed (h : Follows replay published st)
    (hn : st.subscribed → st.matches_ (keyOf e) → keyOf e ∈ st.missed) :
    Follows replay (published ++ [e]) st := by
  refine ⟨h.before.trans (List.prefix_append ..), fun key hk => ?_, fun key hk hs hm => ?_⟩
  · rw [due_publish h.before]
    exact (h.run key hk).trans (List.prefix_append ..)
  · have hne : keyOf e ≠ key := by
      rintro rfl
      exact hm (hn hs hk)
    rw [due_publish h.before, ofPool_other hne, List.append_nil]
    exact h.whole key hk hs hm

/-- **A publication that the stream is offered.** -/
theorem Follows.offer (h : Follows replay published st) (hs : st.subscribed)
    (hok : keyOf e ∈ st.missed → ¬ st.ch.length < subscriberBuffer) :
    Follows replay (published ++ [e]) (st.offer e) := by
  unfold Stream.offer
  split
  next hroom =>
    -- None of the Pool's events was left out, so this one comes after all that were due.
    have hnot : keyOf e ∉ st.missed := fun hm => hok hm hroom
    have hall : ∀ key, ofPool key { st with ch := st.ch ++ [e] }.all =
        ofPool key st.all ++ ofPool key [e] := by
      intro key
      rw [← ofPool_append]
      simp only [Stream.all, List.append_assoc]
    refine ⟨h.before.trans (List.prefix_append ..), fun key hk => ?_, fun key hk _ hm => ?_⟩
    · rw [hall]
      show _ <+: due replay _ st key
      rw [due_publish h.before]
      by_cases hne : keyOf e = key
      · subst hne
        refine ⟨[], ?_⟩
        rw [List.append_nil, h.whole _ hk hs hnot]
      · rw [ofPool_other hne, List.append_nil, List.append_nil]
        exact h.run key hk
    · rw [hall, h.whole key hk hs hm]
      exact (due_publish h.before).symm
  · have hdrop : Follows replay published
        { st.drop with missed := keyOf e :: st.missed } :=
      ⟨h.before, h.run, fun key hk hs hm => h.whole key hk hs fun hin =>
        hm (List.mem_cons_of_mem _ hin)⟩
    exact hdrop.passed fun _ _ => List.mem_cons_self

/-- **No event is put into the buffer of a stream that left out one of its Pool.** -/
def unfilled (s : State) : Act → Bool
  | .publish e => s.streams.all fun st =>
      !(st.subscribed && st.missed.contains (keyOf e) && st.ch.length < subscriberBuffer)
  | _ => true

theorem Inv.publish (h : Inv replay s) (hok : unfilled s (.publish e)) :
    Inv replay (s.publish replay e) := by
  refine ⟨fun key => ?_, fun st hst => ?_⟩
  · show ((AList.insert _ _ s.recent).lookup key).getD [] =
      (ofPool key (s.published ++ [e])).rtake replay
    rw [Dict.lookup_insert_eq, ofPool_append]
    split
    next hk =>
      subst hk
      rw [ofPool_self, ← rtake_append, ← h.recent, Option.getD_some]
      split
      · rfl
      next hle =>
        rw [List.rtake, Nat.sub_eq_zero_of_le (Nat.not_lt.mp hle), List.drop_zero]
    next hk =>
      rw [ofPool_other (Ne.symm hk), List.append_nil]
      exact h.recent key
  · obtain ⟨st₀, hst₀, rfl⟩ := List.mem_map.mp hst
    have hf := h.streams st₀ hst₀
    have hcond := List.all_eq_true.mp hok st₀ hst₀
    split
    next hs =>
      rw [Bool.and_eq_true] at hs
      refine hf.offer hs.1 fun hm hroom => ?_
      simp [hs.1, hm, hroom] at hcond
    next hs => exact hf.passed fun h1 h2 => absurd (by simp [h1, h2]) hs

/-- The backlog has the last events of each Pool that the filter lets pass. -/
theorem Inv.ofPool_backlog (h : Inv replay s) {filter : Option PoolRef} {order : List PoolRef}
    (horder : filter.isSome ∨ order.Perm s.recent.keys) (hk : filter = none ∨ filter = some key) :
    ofPool key (s.backlog filter order) = (ofPool key s.published).rtake replay := by
  have hlog : ∀ k, ∀ e ∈ s.log k, keyOf e = k := by
    intro k e he
    rw [h.recent] at he
    exact of_decide_eq_true (List.mem_filter.mp (List.mem_of_mem_drop he)).2
  rw [← h.recent]
  rcases hk with rfl | rfl
  · have hperm : order.Perm s.recent.keys := horder.resolve_left nofun
    show ofPool key (order.flatMap s.log) = _
    rw [ofPool_flatMap hlog (hperm.nodup_iff.mpr s.recent.keys_nodup)]
    split
    · rfl
    next hm =>
      have hnone : s.recent.lookup key = none :=
        AList.lookup_eq_none.mpr fun hin => hm (hperm.mem_iff.mpr (AList.mem_keys.mp hin))
      rw [State.log, hnone, Option.getD_none]
  · exact ofPool_of_forall (hlog key)

theorem Inv.subscribe (h : Inv replay s) {filter : Option PoolRef} {order : List PoolRef}
    (horder : filter.isSome ∨ order.Perm s.recent.keys) :
    Inv replay (s.subscribe filter order) := by
  refine ⟨h.recent, fun st hst => ?_⟩
  rcases List.mem_append.mp hst with hst | hst
  · exact h.streams st hst
  · obtain rfl := List.mem_singleton.mp hst
    have hwhole : ∀ key, (filter = none || filter = some key) →
        ofPool key ([] ++ s.backlog filter order ++ []) =
          (ofPool key s.published).rtake replay := by
      intro key hk
      rw [List.nil_append, List.append_nil]
      exact h.ofPool_backlog horder (by simpa using hk)
    refine ⟨List.prefix_refl _, fun key hk => ?_, fun key hk _ _ => hwhole key hk⟩
    exact ⟨[], (List.append_nil _).trans (hwhole key hk)⟩

/-- **Every step that fills no gap keeps the invariant.** -/
theorem Inv.step {a : Act} (h : Inv replay s) (hok : unfilled s a)
    (hs : step replay s a = some s') : Inv replay s' := by
  cases a with
  | publish e =>
    cases hs
    exact h.publish hok
  | subscribe filter order =>
    obtain ⟨horder, hs⟩ := Option.ite_none_right_eq_some.mp hs
    cases hs
    exact h.subscribe horder
  | dropAll =>
    cases hs
    refine ⟨h.recent, fun st hst => ?_⟩
    obtain ⟨st₀, hst₀, rfl⟩ := List.mem_map.mp hst
    have hf := h.streams st₀ hst₀
    split
    · exact hf.same rfl rfl rfl id rfl
    · exact hf
  | stream i a =>
    obtain ⟨st, hst, hs⟩ := Option.bind_eq_some_iff.mp hs
    obtain ⟨st', hst', hs⟩ := Option.bind_eq_some_iff.mp hs
    cases hs
    refine ⟨h.recent, fun x hx => ?_⟩
    rcases List.mem_or_eq_of_mem_set hx with hx | rfl
    · exact h.streams x hx
    · obtain ⟨hf, hb, hm, hsub, hall⟩ := Stream.step_same hst'
      exact (h.streams st (List.mem_of_getElem? hst)).same hf hb hm hsub hall

/-- **The events a stream sends have no gap.** In every run that puts no event into the buffer of a
    stream that left out one of the same Pool: what a stream sent of a Pool it matches is a
    contiguous run of the events published for that Pool, from the first one of the backlog on. -/
theorem events_contiguous (h : Steps.Run (step replay) unfilled {} s) (hst : st ∈ s.streams)
    (hk : st.matches_ key) : ofPool key st.sent <+: due replay s.published st key := by
  have hinv : Inv replay s := by
    refine h.keeps (I := Inv replay) ⟨fun key => ?_, nofun⟩ fun _ _ _ hi hok hs => hi.step hok hs
    simp [State.log, ofPool]
  refine List.IsPrefix.trans ?_ ((hinv.streams st hst).run key hk)
  rw [Stream.all, List.append_assoc, ofPool_append]
  exact List.prefix_append ..

/-- The n-th event of a Pool. -/
def numbered (pool : String) (n : Nat) : WireEvent := ⟨n, pool, "n", "vm-1", 1, 0, ""⟩

/-- A stream of one Pool gets an event from the backlog and one that is published later; then it is
    dropped. -/
def droppedStream : List Act :=
  [.publish (numbered "p" 1), .subscribe (some ⟨"p", "n"⟩) [], .publish (numbered "q" 1),
    .stream 0 .send, .publish (numbered "p" 2), .stream 0 .take, .dropAll, .stream 0 .send,
    .stream 0 .seesDrop, .publish (numbered "p" 3)]

theorem events_contiguous_dropped :
    ∃ s st, Steps.Run (step 100) unfilled {} s ∧ st ∈ s.streams ∧
      st.sent = [numbered "p" 1, numbered "p" 2] ∧
      ofPool ⟨"p", "n"⟩ st.sent <+: due 100 s.published st ⟨"p", "n"⟩ := by
  obtain ⟨s, hrun, hs⟩ := Steps.exists_run (step 100) unfilled {} droppedStream
    (fun s => s.streams.any fun st => st.matches_ ⟨"p", "n"⟩ &&
      st.sent = [numbered "p" 1, numbered "p" 2]) (by decide +kernel)
  obtain ⟨st, hst, hst'⟩ := List.any_eq_true.mp hs
  obtain ⟨hk, hsent⟩ := (Bool.and_eq_true _ _).mp hst'
  exact ⟨s, st, hrun, hst, of_decide_eq_true hsent, events_contiguous hrun hst hk⟩

/-- The buffer fills and one event is left out; one is sent, another is published, and the buffer is
    emptied. -/
def refilled : List Act :=
  .subscribe none [] :: (List.range 257).map (fun n => .publish (numbered "p" n)) ++
    [.stream 0 .take, .stream 0 .send, .publish (numbered "p" 257)] ++
    (List.replicate 256 [.stream 0 .take, .stream 0 .send]).flatten

/-- Where the select takes an event of a stream that is told to end: the stream sends event 257 and
    has not sent event 256. -/
theorem gap_after_full_buffer :
    ∃ s st, Steps.Run (step 100) (fun _ _ => true) {} s ∧ st ∈ s.streams ∧
      st.matches_ ⟨"p", "n"⟩ ∧
      ¬ ofPool ⟨"p", "n"⟩ st.sent <+: due 100 s.published st ⟨"p", "n"⟩ := by
  obtain ⟨s, hrun, hs⟩ := Steps.exists_run (step 100) (fun _ _ => true) {} refilled
    (fun s => s.streams.any fun st => st.matches_ ⟨"p", "n"⟩ &&
      (ofPool ⟨"p", "n"⟩ st.sent)[256]? = some (numbered "p" 257) &&
      (due 100 s.published st ⟨"p", "n"⟩)[256]? = some (numbered "p" 256)) (by decide +kernel)
  obtain ⟨st, hst, hst'⟩ := List.any_eq_true.mp hs
  simp only [Bool.and_eq_true, decide_eq_true_eq] at hst'
  obtain ⟨⟨hk, hsent⟩, hdue⟩ := hst'
  refine ⟨s, st, hrun, hst, hk, fun hpre => ?_⟩
  obtain ⟨rest, hrest⟩ := hpre
  rw [← hrest, List.getElem?_append_left (List.getElem?_eq_some_iff.mp hsent).1, hsent] at hdue
  revert hdue
  decide

end BatteryOperator.FakeEvents
