/-
  Subject:   What the Pool Controller remembers of stalled Pools (internal/controller/pool_stall.go)
             over the reconciles of one process.

  The memory is keyed by the Pool's name. A reconcile touches it at most once: `poolStall` forgets
  the Pool or observes it, and a reconcile that finds the name gone forgets it. A history lists the
  reconciles of a process newest first, each with the operations it asked for and their answers;
  reconciles of one name follow one another, those of two names share nothing.

  * `sightings`, `Holds` -- what the memory says of the looks it was made from;
  * `Pass.Ran.looks` -- a reconcile looks at most once, and hears the delay it is told;
  * `memory_eq` -- **the memory is that of the object last read**, where no sightings of another one
    are inherited.
-/
import BatteryOperator.Pool.Footprint

namespace BatteryOperator.Pools.Stall

open Lib Prog

/-! ## 1. Looks -/

/-- What a reconcile saw of a Pool: nothing `poolStall` applies to, or a shortfall, and whether the
    Pool is stalled. -/
inductive Look where
  | reset
  | sight (shortfall : Int32) (stalled : Bool) (now : Time)
  deriving DecidableEq

/-- The answer of `observe`. -/
abbrev Told := Option PoolNotFilling × Duration

namespace Look

def shortfall : Look → Option Int32
  | reset => none
  | sight shortfall _ _ => some shortfall

/-- What a look makes of one Pool's sightings, and the answer. -/
def see (st : Option PoolStallState) : Look → Told × Option PoolStallState
  | reset => ((none, 0), none)
  | sight shortfall stalled now => PoolStallState.observe st shortfall stalled now

/-- `earlier` was not after. -/
def NotBefore : Look → Look → Prop
  | sight _ _ now, sight _ _ earlier => earlier ≤ now
  | _, _ => True

end Look

/-- The sightings that the looks leave, the newest first. -/
def memoryOf (looks : List Look) : Option PoolStallState :=
  looks.foldr (fun l st => (l.see st).2) none

/-- When the Pool was seen stalled with the shortfall, since it was seen otherwise. -/
def sightings (shortfall : Int32) : List Look → List Time
  | .sight sf stalled now :: looks =>
    if sf = shortfall then
      if stalled then now :: sightings shortfall looks else sightings shortfall looks
    else []
  | _ => []

/-- The Pool was seen stalled with the shortfall at `now`, and with no other one in the looks
    `recent` since. -/
def Sighting (looks : List Look) (shortfall : Int32) (recent : List Look) (now : Time) : Prop :=
  (∃ old, looks = recent ++ .sight shortfall true now :: old) ∧
    ∀ l ∈ recent, l.shortfall = some shortfall

/-- Two sightings at least `poolStallWait` apart, and nothing else since the first of them. -/
def TwoSightings (looks : List Look) : Prop :=
  ∃ shortfall recent t t', Sighting looks shortfall recent t ∧
    .sight shortfall true t' ∈ recent ∧ t + poolStallWait ≤ t'

section Looks

variable {looks : List Look} {l : Look} {sf : Int32} {t : Time}

theorem mem_sightings : t ∈ sightings sf looks ↔ ∃ recent, Sighting looks sf recent t := by
  constructor
  · intro h
    induction looks with
    | nil => cases h
    | cons l looks ih =>
      cases l with
      | reset => cases h
      | sight sf' stalled now =>
        have more (h : t ∈ sightings sf looks) (he : sf' = sf) :
            ∃ recent, Sighting (.sight sf' stalled now :: looks) sf recent t := by
          obtain ⟨recent, ⟨old, rfl⟩, hall⟩ := ih h
          refine ⟨.sight sf' stalled now :: recent, ⟨old, rfl⟩, ?_⟩
          exact List.forall_mem_cons.mpr ⟨congrArg some he, hall⟩
        simp only [sightings] at h
        split at h
        next he =>
          split at h
          next hs =>
            rcases List.mem_cons.mp h with rfl | h
            · exact ⟨[], ⟨looks, by rw [he, hs]; rfl⟩, nofun⟩
            · exact more h he
          · exact more h he
        · cases h
  · rintro ⟨recent, ⟨old, rfl⟩, hall⟩
    induction recent with
    | nil => simp [sightings]
    | cons l recent ih =>
      obtain ⟨hl, hrest⟩ := List.forall_mem_cons.mp hall
      cases l with
      | reset => cases hl
      | sight sf' stalled now =>
        cases hl
        simp only [List.cons_append, sightings, if_true]
        split
        · exact List.mem_cons_of_mem _ (ih hrest)
        · exact ih hrest

/-- In the order of the clock, two sightings that far apart are enough. -/
theorem twoSightings_iff (hclock : looks.Pairwise Look.NotBefore) :
    TwoSightings looks ↔
      ∃ sf, ∃ t ∈ sightings sf looks, ∃ t' ∈ sightings sf looks, t + poolStallWait ≤ t' := by
  constructor
  · rintro ⟨sf, recent, t, t', ⟨⟨old, rfl⟩, hall⟩, ht', hle⟩
    refine ⟨sf, t, mem_sightings.mpr ⟨recent, ⟨old, rfl⟩, hall⟩, t', ?_, hle⟩
    obtain ⟨newer, older, rfl⟩ := List.append_of_mem ht'
    refine mem_sightings.mpr ⟨newer, ⟨older ++ .sight sf true t :: old, by simp⟩, ?_⟩
    exact fun l hl => hall l (List.mem_append_left _ hl)
  · rintro ⟨sf, t, ht, t', ht', hle⟩
    obtain ⟨recent, ⟨old, rfl⟩, hall⟩ := mem_sightings.mp ht
    refine ⟨sf, recent, t, t', ⟨⟨old, rfl⟩, hall⟩, ?_, hle⟩
    -- The later one is not among the older looks: the clock did not go back.
    have hlt : t < t' := Int.lt_of_lt_of_le (Int.lt_add_of_pos_right t (by decide)) hle
    obtain ⟨newer, ⟨older, he⟩, -⟩ := mem_sightings.mp ht'
    have hmem : Look.sight sf true t' ∈ recent ++ .sight sf true t :: old := by
      rw [he]
      exact List.mem_append_right _ List.mem_cons_self
    rcases List.mem_append.mp hmem with h | h
    · exact h
    · rcases List.mem_cons.mp h with h | h
      · cases h
        exact absurd hlt (Int.lt_irrefl t)
      · have hle' : t' ≤ t :=
          (List.pairwise_cons.mp (List.pairwise_append.mp hclock).2.1).1 _ h
        exact absurd hlt (Int.not_lt.mpr hle')

/-- What the memory says of the looks it was made from. -/
def Holds (looks : List Look) : Option PoolStallState → Prop
  | none => ∀ sf, sightings sf looks = []
  | some st =>
    st.since ∈ sightings st.shortfall looks ∧
      (∀ t ∈ sightings st.shortfall looks, st.since ≤ t) ∧
      (st.notFilling = true ↔
        ∃ t ∈ sightings st.shortfall looks, st.since + poolStallWait ≤ t) ∧
      ∀ sf, sf ≠ st.shortfall → sightings sf looks = []

theorem sightings_other {sf' : Int32} (h : sf' ≠ sf) (stalled : Bool) (now : Time)
    (looks : List Look) : sightings sf (.sight sf' stalled now :: looks) = [] := by
  simp [sightings, h]

theorem mem_sightings_cons {stalled : Bool} {now : Time} :
    t ∈ sightings sf (.sight sf stalled now :: looks) ↔
      t ∈ sightings sf looks ∨ stalled = true ∧ t = now := by
  cases stalled <;> simp [sightings, or_comm]

section Observe

variable {st : Option PoolStallState} (sf : Int32) (stalled : Bool) (now : Time)

/-- The sightings `observe` goes on from: those there are, or the first. -/
theorem start_cases (h : Holds looks st) :
    (PoolStallState.start st sf stalled now = none ∧ stalled = false ∧ sightings sf looks = []) ∨
    (∃ st0, PoolStallState.start st sf stalled now = some st0 ∧ st0.shortfall = sf ∧
      st = some st0) ∨
    (PoolStallState.start st sf stalled now = some ⟨sf, now, false⟩ ∧ stalled = true ∧
      sightings sf looks = []) := by
  have fresh (hf : st.filter (fun st => st.shortfall = sf) = none) (hs : sightings sf looks = []) :
      (PoolStallState.start st sf stalled now = none ∧ stalled = false ∧ sightings sf looks = []) ∨
      (PoolStallState.start st sf stalled now = some ⟨sf, now, false⟩ ∧ stalled = true ∧
        sightings sf looks = []) := by
    cases stalled <;> simp [PoolStallState.start, hf, hs]
  cases st with
  | none => exact (fresh rfl (h sf)).imp_right .inr
  | some st0 =>
    by_cases he : st0.shortfall = sf
    · exact .inr (.inl ⟨st0, by simp [PoolStallState.start, Option.filter, he], he, rfl⟩)
    · exact (fresh (by simp [he]) (h.2.2.2 sf (Ne.symm he))).imp_right .inr

/-- What `observe` answers and leaves, from the sightings it goes on from. -/
theorem observe_some {sf stalled now} {st0 : PoolStallState}
    (h : PoolStallState.start st sf stalled now = some st0) :
    ∃ nf, (PoolStallState.observe st sf stalled now).2 = some { st0 with notFilling := nf } ∧
      (nf = true ↔ st0.notFilling = true ∨ stalled = true ∧ st0.since + poolStallWait ≤ now) ∧
      ((PoolStallState.observe st sf stalled now).1.1.isSome = true ↔ nf = true) ∧
      (stalled = true → nf = false →
        (PoolStallState.observe st sf stalled now).1 =
          (none, st0.since + poolStallWait - now)) := by
  refine ⟨st0.notFilling || (stalled && decide (st0.since + poolStallWait ≤ now)), ?_⟩
  obtain ⟨shortfall, since, notFilling⟩ := st0
  unfold PoolStallState.observe
  rw [h]
  by_cases hle : since + poolStallWait ≤ now <;> cases stalled <;> cases notFilling <;>
    simp [hle]

end Observe

/-- **One look**: the memory still says it of the looks. -/
theorem holds_see {st : Option PoolStallState} (h : Holds looks st)
    (hclock : ∀ l' ∈ looks, l.NotBefore l') : Holds (l :: looks) (l.see st).2 := by
  cases l with
  | reset => exact fun sf => rfl
  | sight sf stalled now =>
    show Holds _ (PoolStallState.observe st sf stalled now).2
    rcases start_cases sf stalled now h with
      ⟨hst, rfl, hnil⟩ | ⟨st0, hst, rfl, rfl⟩ | ⟨hst, rfl, hnil⟩
    · have hnone : (PoolStallState.observe st sf false now).2 = none := by
        simp [PoolStallState.observe, hst]
      rw [hnone]
      intro sf'
      by_cases he : sf = sf'
      · simp [← he, sightings, hnil]
      · exact sightings_other he false now looks
    · obtain ⟨nf, hleft, hnf, -⟩ := observe_some hst
      obtain ⟨hin, hmin, hiff, -⟩ := h
      rw [hleft]
      have hnow : st0.since ≤ now := by
        obtain ⟨recent, ⟨old, rfl⟩, -⟩ := mem_sightings.mp hin
        exact hclock _ (List.mem_append_right _ List.mem_cons_self)
      refine ⟨mem_sightings_cons.mpr (.inl hin), fun t ht => ?_, ?_,
        fun sf' he => sightings_other he.symm _ now looks⟩
      · rcases mem_sightings_cons.mp ht with ht | ⟨-, rfl⟩
        · exact hmin t ht
        · exact hnow
      · show nf = true ↔ _
        rw [hnf, hiff]
        simp only [mem_sightings_cons]
        constructor
        · rintro (⟨t, ht, hle⟩ | ⟨hs, hle⟩)
          · exact ⟨t, .inl ht, hle⟩
          · exact ⟨now, .inr ⟨hs, rfl⟩, hle⟩
        · rintro ⟨t, ht | ⟨hs, rfl⟩, hle⟩
          · exact .inl ⟨t, ht, hle⟩
          · exact .inr ⟨hs, hle⟩
    · obtain ⟨nf, hleft, hnf, -⟩ := observe_some hst
      rw [hleft]
      have hs (t : Time) : t ∈ sightings sf (.sight sf true now :: looks) ↔ t = now := by
        simp [mem_sightings_cons, hnil]
      refine ⟨(hs now).mpr rfl, fun t ht => Int.le_of_eq ((hs t).mp ht).symm, ?_,
        fun sf' he => sightings_other he.symm _ now looks⟩
      show nf = true ↔ ∃ t ∈ sightings sf (.sight sf true now :: looks), now + poolStallWait ≤ t
      rw [hnf]
      simp [hs]

theorem holds_memoryOf (hclock : looks.Pairwise Look.NotBefore) : Holds looks (memoryOf looks) := by
  induction looks with
  | nil => exact fun sf => rfl
  | cons l looks ih =>
    obtain ⟨hl, hrest⟩ := List.pairwise_cons.mp hclock
    exact holds_see (ih hrest) hl

/-- The sightings say what the memory is. -/
theorem holds_unique {looks' : List Look} {st st' : Option PoolStallState} (h : Holds looks st)
    (h' : Holds looks' st') (he : ∀ sf, sightings sf looks = sightings sf looks') : st = st' := by
  match st, st' with
  | none, none => rfl
  | none, some st' => exact absurd h'.1 (by simp [← he, h st'.shortfall])
  | some st, none => exact absurd h.1 (by simp [he, h' st.shortfall])
  | some ⟨sf, since, notFilling⟩, some ⟨sf', since', notFilling'⟩ =>
    obtain ⟨hin, hmin, hiff, -⟩ := h
    obtain ⟨hin', hmin', hiff', hother⟩ := h'
    dsimp only at *
    have hsf : sf = sf' := by
      by_contra hne
      rw [he, hother sf hne] at hin
      cases hin
    subst hsf
    rw [he] at hin hmin hiff
    have hsince : since = since' := Int.le_antisymm (hmin _ hin') (hmin' _ hin)
    subst hsince
    rw [Bool.eq_iff_iff.mpr (hiff.trans hiff'.symm)]

/-- **The answer to the newest look**, by the looks. -/
theorem see_told (hclock : (l :: looks).Pairwise Look.NotBefore) :
    ((l.see (memoryOf looks)).1.1.isSome = true ↔ TwoSightings (l :: looks)) ∧
    ∀ sf now, l = .sight sf true now → (l.see (memoryOf looks)).1.1 = none →
      0 < (l.see (memoryOf looks)).1.2 ∧ ∀ recent t, Sighting (l :: looks) sf recent t →
        now + (l.see (memoryOf looks)).1.2 ≤ t + poolStallWait := by
  have hpast := holds_memoryOf (List.pairwise_cons.mp hclock).2
  have hnew := holds_memoryOf hclock
  rw [twoSightings_iff hclock]
  cases l with
  | reset =>
    refine ⟨⟨nofun, ?_⟩, nofun⟩
    rintro ⟨sf, t, ht, -⟩
    cases ht
  | sight sf stalled now =>
    have hsee : memoryOf (.sight sf stalled now :: looks) =
      (PoolStallState.observe (memoryOf looks) sf stalled now).2 := rfl
    simp only [Look.see]
    have hstart : (PoolStallState.start (memoryOf looks) sf stalled now = none ∧ stalled = false) ∨
        ∃ st0, PoolStallState.start (memoryOf looks) sf stalled now = some st0 ∧
          st0.shortfall = sf := by
      rcases start_cases sf stalled now hpast with ⟨hst, hs, -⟩ | ⟨st0, hst, hsf, -⟩ | ⟨hst, -, -⟩
      · exact .inl ⟨hst, hs⟩
      · exact .inr ⟨st0, hst, hsf⟩
      · exact .inr ⟨_, hst, rfl⟩
    rcases hstart with ⟨hst, rfl⟩ | ⟨st0, hst, rfl⟩
    · have hnone : PoolStallState.observe (memoryOf looks) sf false now = ((none, 0), none) := by
        simp [PoolStallState.observe, hst]
      rw [hsee, hnone] at hnew
      rw [hnone]
      refine ⟨⟨nofun, ?_⟩, nofun⟩
      rintro ⟨sf', t, ht, -⟩
      simp [hnew sf'] at ht
    · obtain ⟨nf, hleft, hnf, hsome, htold⟩ := observe_some hst
      rw [hsee, hleft] at hnew
      obtain ⟨hin, hmin, hiff, hother⟩ := hnew
      refine ⟨?_, ?_⟩
      · rw [hsome]
        refine hiff.trans ⟨fun ⟨t', ht', hle⟩ => ⟨_, _, hin, t', ht', hle⟩, ?_⟩
        rintro ⟨sf', t, ht, t', ht', hle⟩
        by_cases he : sf' = st0.shortfall
        · subst he
          exact ⟨t', ht', Int.le_trans (Int.add_le_add_right (hmin t ht) _) hle⟩
        · simp [hother sf' he] at ht
      · intro sf' now' hl hno
        cases hl
        have hfalse : nf = false := by
          rw [hno] at hsome
          simpa using hsome
        rw [htold rfl hfalse]
        have hlt : ¬ st0.since + poolStallWait ≤ now := fun hle => by
          simp [hnf.mpr (.inr ⟨rfl, hle⟩)] at hfalse
        refine ⟨Int.sub_pos_of_lt (Int.not_le.mp hlt), fun recent t ht => ?_⟩
        have hle := hmin t (mem_sightings.mpr ⟨recent, ht⟩)
        have hdue (a b n w : Int) (h : a ≤ b) : n + (a + w - n) ≤ b + w := by omega
        exact hdue _ _ now _ hle

end Looks

/-! ## 2. What a reconcile sees -/

abbrev Trace := List (Asked PoolOp PoolOp.Ans)

abbrev Steps := List (Visit PoolOp PoolOp.Ans PoolScope)

/-- The scope a reconcile opens. -/
abbrev opened (pool : Pool) : PoolScope := { object := pool, original := pool }

/-- A Pool's shortfall by battery's counts, where its strategy has one. -/
def shortBy (spec : PoolSpec) (st : Battery.PoolStatus) : Int32 :=
  match spec.replenishment.type with
  | .immediateOnLease => spec.size - st.available
  | .replaceOnDelete => spec.size - (st.available + st.leased)
  | _ => 0

/-- What the answers to a reconcile say of its Pool: whether battery accepted its generation,
    whether its selector matches no Host, whether battery refused its spec, and battery's counts;
    `some none` is that battery holds no such Pool. -/
structure Seen where
  accepted : Bool
  noHost : Bool := false
  refused : Bool := false
  held : Option (Option Battery.PoolStatus) := none

namespace Seen

/-- What is seen before battery is asked. -/
def start (pool : Pool) : Seen where
  accepted := pool.generation = pool.status.observedGeneration

/-- A spec was sent to battery. -/
def sent (s : Seen) : Except BatteryError Battery.Pool → Seen
  | .ok held => { s with accepted := true, held := some (some held.status) }
  | .error e => if e.kind = .invalid then { s with refused := true } else s

/-- **One more answer.** A CreatePool that finds the Pool says that battery holds it after all. -/
def hear (s : Seen) : Asked PoolOp PoolOp.Ans → Seen
  | ⟨.matching _, .ok hosts⟩ => { s with noHost := hosts.isEmpty }
  | ⟨.getPool, .ok held⟩ => { s with held := some (some held.status) }
  | ⟨.getPool, .error e⟩ => if e.kind = .notFound then { s with held := some none } else s
  | ⟨.createPool _, .error e⟩ =>
    if e.kind = .alreadyExists then { s with held := none } else s.sent (.error e)
  | ⟨.createPool _, .ok held⟩ => s.sent (.ok held)
  | ⟨.updatePool _, r⟩ => s.sent r
  | _ => s

/-- The look this makes at the time; none where battery said nothing of the Pool. -/
def look (s : Seen) (spec : PoolSpec) (now : Time) : Option Look :=
  if s.noHost || s.refused || !s.accepted then some .reset
  else s.held.map fun
    | none => .reset
    | some st =>
      if shortBy spec st ≤ 0 then .reset
      else .sight (shortBy spec st) (st.provisioning = 0) now

end Seen

/-- An error that no step takes up: it ends the chain. -/
def fails : Asked PoolOp PoolOp.Ans → Bool
  | ⟨.matching _, .error _⟩ => true
  | ⟨.getPool, .error e⟩ => e.kind ≠ .notFound
  | ⟨.createPool _, .error e⟩ => e.kind ≠ .alreadyExists && e.kind ≠ .invalid
  | ⟨.updatePool _, .error e⟩ => e.kind ≠ .invalid
  | _ => false

/-- A time that was read. -/
def timeOf : Asked PoolOp PoolOp.Ans → Option Time
  | ⟨.now, t⟩ => some t
  | _ => none

/-- One reconcile: when it started, what the cache answered, the steps of the chain that ran, what
    was asked after them, and how it ended. -/
structure Pass where
  key : ObjectKey
  started : Time
  got : Except ApiError Pool
  steps : Steps
  after : Trace
  res : Result × Option String

namespace Pass

/-- Everything the reconcile asked for. -/
def asked (p : Pass) : Trace := ⟨.get, p.got⟩ :: (p.steps.flatMap Visit.asked ++ p.after)

/-- The object the reconcile read, or that there was none; a failed read says neither. -/
def read (p : Pass) : Option (Option String) :=
  match p.got with
  | .ok pool => some (some pool.uid)
  | .error e => if e.isNotFound then some none else none

/-- The answers up to `poolStall`. -/
def answers (p : Pass) : Trace :=
  (p.steps.take ((stepsBefore p.key).length + 1)).flatMap Visit.asked

/-- When the reconcile saw what it saw. -/
def seenAt (p : Pass) : Time := (p.answers.filterMap timeOf).getLastD p.started

/-- What the reconcile saw of its Pool, up to `poolStall`. One that is being deleted stays so, and
    none of its reconciles comes that far. -/
def look (p : Pass) : Option Look :=
  match p.got with
  | .ok pool =>
    if pool.deleting then none
    else (p.answers.foldl Seen.hear (.start pool)).look pool.spec p.seenAt
  | .error _ => none

/-- The reconcile ended at the Pool's deletion, to add its finalizer or at an error. -/
def interrupted (p : Pass) : Bool :=
  match p.got with
  | .ok pool => pool.deleting || !pool.held || p.answers.any fails
  | .error _ => false

/-- The reconcile reports that the Pool is not filling. -/
def reports (p : Pass) : Bool :=
  match p.got with
  | .ok pool => (Visit.leftScope (opened pool) p.steps).notFilling.isSome
  | .error _ => false

end Pass

/-! ## 3. The chain up to `poolStall` -/

variable {asked : Trace} {sc : PoolScope} {pool : Pool} {s : Seen} {o : Outcome PoolScope}
  {key : ObjectKey} {vs : Steps} {N : Seen → PoolScope → Prop}

/-- What the scope has is what was seen, but for what battery holds. -/
structure Shows (pool : Pool) (s : Seen) (sc : PoolScope) : Prop where
  spec : sc.object.spec = pool.spec
  accepted : s.accepted = decide (sc.object.generation = sc.object.status.observedGeneration)
  noHost : s.noHost = sc.hosts.isEmpty
  refused : s.refused = sc.refusal.isSome
  notFilling : sc.notFilling = none

/-- What was seen of a Pool before `poolDeclaration`. -/
def ShowsPlaced (pool : Pool) (s : Seen) (sc : PoolScope) : Prop :=
  Shows pool s sc ∧ sc.held = none ∧ sc.original.held = true

/-- ... after it: a Pool that battery turned out to hold is not in the scope yet. -/
def ShowsDeclared (pool : Pool) (s : Seen) (sc : PoolScope) : Prop :=
  Shows pool s sc ∧ (sc.refusal = none → sc.held = none ∨ s.held = some (sc.held.map (·.status)))

/-- ... and after `poolUpdate`. -/
def ShowsHeld (pool : Pool) (s : Seen) (sc : PoolScope) : Prop :=
  Shows pool s sc ∧ (sc.refusal = none → s.held = some (sc.held.map (·.status)))

/-- Steps ran: the chain goes on and what was seen is `N`, or it ended at an error. -/
def Heard (N : Seen → PoolScope → Prop) (s : Seen) (asked : Trace) (sc : PoolScope)
    (goesOn : Prop) : Prop :=
  (goesOn ∧ asked.any fails = false ∧ N (asked.foldl Seen.hear s) sc) ∨
    (¬ goesOn ∧ asked.any fails = true)

/-- A step ended. -/
abbrev HeardStep (N : Seen → PoolScope → Prop) (s : Seen) (asked : Trace)
    (o : Outcome PoolScope) : Prop :=
  Heard N s asked o.scope (o.err = none ∧ o.result.stop = false)

theorem heard_goOn (hf : asked.any fails = false) (h : N (asked.foldl Seen.hear s) sc) :
    HeardStep N s asked (goOn sc) := .inl ⟨⟨rfl, rfl⟩, hf, h⟩

theorem heard_end {err : Option String} (hf : asked.any fails = true) :
    HeardStep N s asked ⟨sc, { stop := true }, err⟩ := .inr ⟨nofun, hf⟩

/-- One more answer that ends nothing. -/
theorem heard_more {e : Asked PoolOp PoolOp.Ans} (hf : fails e = false)
    (h : HeardStep N (s.hear e) asked o) : HeardStep N s (e :: asked) o := by
  unfold HeardStep Heard
  rw [List.any_cons, hf, Bool.false_or, List.foldl_cons]
  exact h

theorem heard_cons {N' : Seen → PoolScope → Prop} {sub : Step} {subs : List Step}
    (hsub : ∀ asked o, (sub sc).Ends asked o → HeardStep N s asked o)
    (hsubs : ∀ s sc vs, N s sc → Visits subs sc vs →
      Heard N' s (vs.flatMap Visit.asked) (Visit.leftScope sc vs) (∀ v ∈ vs, v.GoesOn))
    (h : Visits (sub :: subs) sc vs) :
    Heard N' s (vs.flatMap Visit.asked) (Visit.leftScope sc vs) (∀ v ∈ vs, v.GoesOn) := by
  obtain ⟨v, rest, rfl, -, hv, hrest⟩ := visits_cons h
  unfold Heard
  rw [List.flatMap_cons, List.foldl_append, List.any_append, List.forall_mem_cons]
  rcases hsub _ _ hv with ⟨hgo, hf, hn⟩ | ⟨hend, hf⟩
  · have hrest := (hrest.resolve_left fun hr => hr.1 hgo).2
    rw [hf, Bool.false_or]
    rcases hsubs _ _ _ hn hrest with ⟨hall, hn'⟩ | ⟨hend, hf'⟩
    · exact .inl ⟨⟨hgo, hall⟩, hn'⟩
    · exact .inr ⟨fun h => hend h.2, hf'⟩
  · exact .inr ⟨fun h => hend h.1, by rw [hf, Bool.true_or]⟩

theorem poolPlacement_heard (hheld : pool.held = true)
    (h : (poolPlacement key (opened pool)).Ends asked o) :
    HeardStep (ShowsPlaced pool) (.start pool) asked o := by
  obtain ⟨r, rest, rfl, hend⟩ := ends_call.mp h
  match r with
  | .ok hosts =>
    cases hend
    exact heard_goOn rfl ⟨⟨rfl, rfl, rfl, rfl, rfl⟩, rfl, hheld⟩
  | .error .notSynced =>
    cases hend
    exact heard_end rfl
  | .error (.failed text) =>
    cases hend
    exact heard_end rfl

/-- battery took or refused the spec. -/
theorem Shows.sent (h : Shows pool s sc) :
    (∀ held, ShowsHeld pool (s.sent (.ok held)) (sc.accepted held)) ∧
    ∀ e, e.kind = .invalid → ShowsHeld pool (s.sent (.error e)) { sc with refusal := some e } := by
  refine ⟨fun held => ⟨{ h with accepted := ?_ }, fun _ => rfl⟩, fun e he => ?_⟩
  · exact (decide_eq_true rfl).symm
  · rw [Seen.sent, if_pos he]
    exact ⟨{ h with refused := rfl }, nofun⟩

theorem ShowsHeld.declared (h : ShowsHeld pool s sc) : ShowsDeclared pool s sc :=
  ⟨h.1, fun hr => .inr (h.2 hr)⟩

theorem poolDeclaration_heard (hs : ShowsPlaced pool s sc)
    (h : (poolDeclaration key sc).Ends asked o) : HeardStep (ShowsDeclared pool) s asked o := by
  obtain ⟨hs, hheld, horiginal⟩ := hs
  obtain ⟨r, rest, rfl, hget⟩ := ends_call.mp h
  cases r with
  | ok held =>
    cases hget
    refine heard_goOn rfl ⟨?_, fun _ => .inr rfl⟩
    exact { hs with }
  | error e =>
    rcases ends_ite.mp hget with ⟨hfailed, hend⟩ | ⟨hmissing, hmore⟩
    · cases hend
      exact heard_end (by simp [fails, hfailed])
    rw [horiginal] at hmore
    obtain ⟨r, rest, rfl, hcreate⟩ := ends_call.mp hmore
    have hhear : s.hear ⟨.getPool, .error e⟩ = { s with held := some none } :=
      if_pos (not_not.mp hmissing)
    refine heard_more (by simpa [fails] using hmissing) ?_
    rw [hhear]
    have hs' : Shows pool { s with held := some none } sc :=
      { hs with }
    clear hmore h hget
    cases r with
    | ok held =>
      cases hcreate
      refine heard_goOn rfl ?_
      exact (hs'.sent.1 held).declared
    | error e =>
      rcases ends_ite.mp hcreate with ⟨hexists, hend⟩ | ⟨hnew, hmore⟩
      · cases hend
        refine heard_goOn (by simp [fails, hexists]) ⟨?_, fun _ => .inl hheld⟩
        simp only [List.foldl_cons, List.foldl_nil, Seen.hear, hexists, if_true]
        exact { hs with }
      · rcases ends_ite.mp hmore with ⟨hinvalid, hend⟩ | ⟨hother, hend⟩
        · cases hend
          refine heard_goOn (by simp [fails, hinvalid]) ?_
          simp only [List.foldl_cons, List.foldl_nil, Seen.hear, if_neg hnew]
          exact (hs'.sent.2 e hinvalid).declared
        · cases hend
          exact heard_end (by simp [fails, hnew, hother])

theorem sendUpdate_heard {held : Battery.Pool} (hs : ShowsHeld pool s sc)
    (h : (sendUpdate key sc held).Ends asked o) : HeardStep (ShowsHeld pool) s asked o := by
  rcases ends_ite.mp h with ⟨-, hend⟩ | ⟨-, hmore⟩
  · cases hend
    exact heard_goOn rfl hs
  · obtain ⟨r, rest, rfl, hsend⟩ := ends_call.mp hmore
    clear hmore h
    cases r with
    | ok held =>
      cases hsend
      refine heard_goOn rfl ?_
      exact hs.1.sent.1 held
    | error e =>
      rcases ends_ite.mp hsend with ⟨hinvalid, hend⟩ | ⟨hother, hend⟩
      · cases hend
        refine heard_goOn (by simp [fails, hinvalid]) ?_
        exact hs.1.sent.2 e hinvalid
      · cases hend
        exact heard_end (by simp [fails, hother])

theorem poolUpdate_heard (hs : ShowsDeclared pool s sc) (h : (poolUpdate key sc).Ends asked o) :
    HeardStep (ShowsHeld pool) s asked o := by
  obtain ⟨hs, hheld⟩ := hs
  rcases ends_ite.mp h with ⟨hrefused, hend⟩ | ⟨haccepted, hmore⟩
  · cases hend
    refine heard_goOn rfl ⟨hs, fun hr => ?_⟩
    simp [hr] at hrefused
  have hr : sc.refusal = none := by simpa using haccepted
  clear h
  cases hsc : sc.held with
  | some held =>
    rw [hsc] at hmore
    have hheld := (hheld hr).resolve_left (by simp [hsc])
    exact sendUpdate_heard ⟨hs, fun _ => hheld⟩ hmore
  | none =>
    rw [hsc] at hmore
    obtain ⟨r, rest, rfl, hget⟩ := ends_call.mp hmore
    clear hmore
    cases r with
    | ok held =>
      refine heard_more rfl (sendUpdate_heard ⟨?_, fun _ => rfl⟩ hget)
      exact { hs with }
    | error e =>
      rcases ends_ite.mp hget with ⟨hmissing, hend⟩ | ⟨hother, hend⟩
      · cases hend
        refine heard_goOn (by simp [fails, hmissing]) ?_
        simp only [List.foldl_cons, List.foldl_nil, Seen.hear, hmissing, if_true]
        exact ⟨{ hs with }, fun _ => by rw [hsc]; rfl⟩
      · cases hend
        exact heard_end (by simp [fails, hother])

theorem poolRejection_heard (hs : ShowsHeld pool s sc) (h : (poolRejection sc).Ends asked o) :
    HeardStep (ShowsHeld pool) s asked o := by
  obtain ⟨hs, hheld⟩ := hs
  unfold poolRejection at h
  cases hr : sc.refusal with
  | none =>
    rw [hr] at h
    cases h
    refine heard_goOn rfl ⟨{ hs with accepted := ?_ }, hheld⟩
    show s.accepted = decide (_ = (clearRejection _).observedGeneration)
    rw [clearRejection_observed]
    exact hs.accepted
  | some e =>
    rw [hr] at h
    obtain ⟨now, rest, rfl, hend⟩ := ends_call.mp h
    cases hend
    exact heard_goOn rfl ⟨{ hs with }, hheld⟩

/-- A step with nothing to do. -/
theorem idle_heard {sub : Step} (hsub : sub sc = pure (goOn sc)) (h : (sub sc).Ends asked o) :
    HeardStep (fun s' sc' => s' = s ∧ sc' = sc) s asked o := by
  rw [hsub] at h
  cases h
  exact heard_goOn rfl ⟨rfl, rfl⟩

/-- **The chain comes to `poolStall` with what was seen**, or it ends before at an error. -/
theorem before_heard (hlive : pool.deleting = false) (hheld : pool.held = true)
    (h : Visits (stepsBefore key) (opened pool) vs) :
    Heard (ShowsHeld pool) (.start pool) (vs.flatMap Visit.asked)
      (Visit.leftScope (opened pool) vs) (∀ v ∈ vs, v.GoesOn) := by
  refine heard_cons (fun _ _ => idle_heard (poolDeletion_idle hlive)) ?_ h
  rintro s sc vs ⟨rfl, rfl⟩ h
  refine heard_cons (fun _ _ => idle_heard (if_pos hheld)) ?_ h
  rintro s sc vs ⟨rfl, rfl⟩ h
  refine heard_cons (fun _ _ => poolPlacement_heard hheld) (fun s sc vs hs h => ?_) h
  refine heard_cons (fun _ _ => poolDeclaration_heard hs) (fun s sc vs hs h => ?_) h
  refine heard_cons (fun _ _ => poolUpdate_heard hs) (fun s sc vs hs h => ?_) h
  refine heard_cons (fun _ _ => poolRejection_heard hs) (fun s sc vs hs h => ?_) h
  cases h
  exact .inl ⟨List.forall_mem_nil _, rfl, hs⟩

/-- A chain that comes to `poolStall` is of a Pool that is not being deleted and has the
    finalizer. -/
theorem live_of_goesOn (h : Visits (stepsBefore key) (opened pool) vs)
    (hgo : ∀ v ∈ vs, v.GoesOn) : pool.deleting = false ∧ pool.held = true := by
  obtain ⟨v, rest, rfl, -, hv, hrest⟩ := visits_cons h
  obtain ⟨hv1, hgo⟩ := List.forall_mem_cons.mp hgo
  have hlive : pool.deleting = false := by
    by_contra hdel
    have hstop := (hv.within (poolDeletion_stops (Bool.not_eq_false _ ▸ hdel))).2.2
    cases hstop.symm.trans hv1.2
  refine ⟨hlive, ?_⟩
  have hrest := (hrest.resolve_left fun hr => hr.1 hv1).2
  rw [poolDeletion_idle hlive] at hv
  rw [(ends_pure.mp hv).2] at hrest
  obtain ⟨w, rest, rfl, -, hw, -⟩ := visits_cons hrest
  rcases ends_ite.mp hw with ⟨hheld, -⟩ | ⟨-, hend⟩
  · exact hheld
  · have hstop := congrArg (fun o => o.result.stop) (ends_pure.mp hend).2
    cases hstop.symm.trans (hgo w List.mem_cons_self).2

/-- What `poolStall` looks at. -/
def stallLook (sc : PoolScope) (now : Time) : Look :=
  match stallWatched sc with
  | none => .reset
  | some (st, shortfall) => .sight shortfall (st.provisioning = 0) now

/-- **`poolStall` looks at what was seen.** -/
theorem look_eq (hs : ShowsHeld pool s sc) (now : Time) :
    s.look pool.spec now = some (stallLook sc now) := by
  obtain ⟨hs, hheld⟩ := hs
  unfold Seen.look stallLook stallWatched poolShortfall shortBy
  rw [hs.noHost, hs.refused, hs.accepted, ← hs.spec]
  cases hr : sc.refusal with
  | some e => cases sc.held <;> simp
  | none =>
    rw [hheld hr]
    cases sc.held with
    | none => simp
    | some held =>
      by_cases hh : sc.hosts.isEmpty = true
      · simp [hh]
      · by_cases hg : sc.object.generation = sc.object.status.observedGeneration
        · cases sc.object.spec.replenishment.type <;> simp [hh, hg] <;> split <;> rfl
        · simp [hg]

/-! ## 4. One reconcile -/

/-- An operation on the sightings, with its answer. -/
def lookOf : Asked PoolOp PoolOp.Ans → Option (Look × Told)
  | ⟨.forget, _⟩ => some (.reset, (none, 0))
  | ⟨.observe shortfall stalled now, told⟩ => some (.sight shortfall stalled now, told)
  | _ => none

/-- The operations on the sightings. -/
def looksIn (asked : Trace) : List (Look × Told) := asked.filterMap lookOf

theorem looksIn_append (a b : Trace) : looksIn (a ++ b) = looksIn a ++ looksIn b :=
  List.filterMap_append

theorem looksIn_nil (h : ∀ e ∈ asked, ∀ r, lookOf ⟨e.1, r⟩ = none) : looksIn asked = [] :=
  List.filterMap_eq_nil_iff.mpr fun e he => h e he e.2

theorem visits_silent {subs : List Step}
    (hs : ∀ sub ∈ subs, ∀ sc, (sub sc).Within Silent (holding.Footprint sc))
    (h : Visits subs sc vs) : looksIn (vs.flatMap Visit.asked) = [] := by
  have hall := visits_within (I := fun _ => True)
    (fun sub hsub sc _ => within_mono (fun _ _ => trivial) (hs sub hsub sc)) h trivial
  refine looksIn_nil fun e he r => ?_
  have hsilent := hall.1 e he
  obtain ⟨o, r'⟩ := e
  cases o with
  | forget | observe => exact hsilent.elim
  | _ => rfl

/-- A reconcile's steps, and what it asks for after them. -/
theorem reconcilePool_ends {res : Result × Option String}
    (h : (reconcilePool key pool).Ends asked res) :
    ∃ vs patches, Visits (poolChain key).steps (opened pool) vs ∧
      asked = vs.flatMap Visit.asked ++ patches ∧ looksIn patches = [] ∧
      res.1 = (Visit.left (opened pool) {} vs).2.1 := by
  obtain ⟨chain, rest, o, rfl, hchain, hrest⟩ := ends_bind.mp h
  obtain ⟨patches, last, e, rfl, hpatch, hend⟩ := ends_bind.mp hrest
  cases hend
  obtain ⟨steps, rest, x, rfl, hsteps, hrest⟩ := ends_bind.mp hchain
  obtain ⟨fin, last, y, rfl, hfin, hend⟩ := ends_bind.mp hrest
  cases hend
  cases hfin
  obtain ⟨vs, hvs, rfl, rfl⟩ := ends_runSteps hsteps
  refine ⟨vs, patches, hvs, by simp, ?_, rfl⟩
  have hquiet := hpatch.within (patch_within (P := fun o => ∀ r, lookOf ⟨o, r⟩ = none)
    (fun _ => rfl) fun _ => rfl)
  exact looksIn_nil hquiet.1

/-- `poolStall` looks once, at the time it read for it, and asks for the delay it is told. -/
theorem poolStall_ends (h : (poolStall sc).Ends asked o) :
    ∃ told : Told, (∀ (trace : Trace) started, looksIn asked =
        [(stallLook sc (((trace ++ asked).filterMap timeOf).getLastD started), told)]) ∧
      asked.any fails = false ∧ (∀ s, asked.foldl Seen.hear s = s) ∧
      (o.err = none ∧ o.result.stop = false) ∧
      (sc.notFilling = none → o.scope.notFilling = told.1) ∧
      (0 < told.2 → o.result.requeueAfter = told.2) := by
  unfold poolStall at h
  unfold stallLook
  cases hw : stallWatched sc with
  | none =>
    rw [hw] at h
    obtain ⟨r, rest, rfl, hend⟩ := ends_call.mp h
    cases hend
    exact ⟨(none, 0), fun _ _ => rfl, rfl, fun _ => rfl, ⟨rfl, rfl⟩, id, fun h => by cases h⟩
  | some watched =>
    rw [hw] at h
    obtain ⟨now, rest, rfl, hnow⟩ := ends_call.mp h
    obtain ⟨told, rest, rfl, htold⟩ := ends_call.mp hnow
    cases htold
    refine ⟨told, fun trace started => ?_, rfl, fun _ => rfl, ⟨rfl, rfl⟩, fun _ => rfl,
      fun hpos => ?_⟩
    · have htimes (l : List Time) : (l ++ [now]).getLastD started = now := by simp
      rw [List.filterMap_append]
      exact congrArg (fun t => [(Look.sight _ _ t, told)]) (htimes _).symm
    · exact if_pos hpos

/-- The steps after `poolStall` report what it was told. -/
theorem after_keeps (h : Visits (stepsAfter key) sc vs) :
    (Visit.leftScope sc vs).notFilling = sc.notFilling := by
  refine (visits_within (P := fun _ => True) (I := fun sc' => sc'.notFilling = sc.notFilling)
    (fun sub hsub sc' h' => ?_) h rfl).2
  simp only [stepsAfter, List.mem_cons, List.not_mem_nil, or_false] at hsub
  rcases hsub with rfl | rfl | rfl
  · unfold poolCounts
    split
    · refine within_call trivial fun r => ?_
      cases r with
      | ok held => exact h'
      | error e =>
        dsimp only
        split <;> exact h'
    · exact h'
  · exact ⟨trivial, fun _ => h'⟩
  · unfold poolReadiness
    split
    · exact h'
    · exact ⟨trivial, fun _ => h'⟩

/-- The answers are those of a reconcile. -/
structure Pass.Ran (p : Pass) : Prop where
  ends : (reconcile p.key).Ends p.asked p.res
  steps : ∀ pool, p.got = .ok pool → Visits (poolChain p.key).steps (opened pool) p.steps

/-- The reconcile looked once, and was told so. -/
structure Pass.Looked (p : Pass) (l : Look) (told : Told) : Prop where
  look : p.look = some l
  one : looksIn p.asked = [(l, told)]
  reports : p.reports = told.1.isSome
  heard : 0 < told.2 → 0 < p.res.1.requeueAfter ∧ p.res.1.requeueAfter ≤ told.2

variable {p : Pass}

theorem Pass.Ran.trace (h : p.Ran) (hgot : p.got = .ok pool) :
    looksIn p.asked = looksIn (p.steps.flatMap Visit.asked) ∧
      p.res.1 = (Visit.left (opened pool) {} p.steps).2.1 := by
  obtain ⟨key, started, got, steps, after, res⟩ := p
  subst hgot
  obtain ⟨r, rest, hasked, hrest⟩ := ends_call.mp h.ends
  cases hasked
  obtain ⟨vs, patches, hvs, he, hsilent, hres⟩ := reconcilePool_ends hrest
  obtain rfl := visits_unique (h.steps pool rfl) hvs he
  obtain rfl := List.append_cancel_left he
  refine ⟨?_, hres⟩
  show looksIn (steps.flatMap Visit.asked ++ after) = _
  rw [looksIn_append, hsilent, List.append_nil]

/-- **A reconcile that is not interrupted looks once**, at what it saw. -/
theorem Pass.Ran.looks (h : p.Ran) (hgot : p.got = .ok pool) :
    (p.interrupted = true ∧ looksIn p.asked = []) ∨
      (p.interrupted = false ∧ ∃ l told, p.Looked l told) := by
  obtain ⟨hlooks, hres⟩ := h.trace hgot
  have hvs := h.steps pool hgot
  rw [poolChain_steps] at hvs
  simp only [Pass.interrupted, hgot]
  -- the chain ended before `poolStall`, or went on to it
  rcases visits_append hvs with
    ⟨hend, hlen, hbefore⟩ | ⟨before, later, hsteps, hlen, hgo, hbefore, hlater⟩
  · refine .inl ⟨?_, hlooks.trans (visits_silent (fun _ => before_silent) hbefore)⟩
    cases hlive : pool.deleting with
    | true => rfl
    | false =>
      cases hheld : pool.held with
      | false => rfl
      | true =>
        unfold Pass.answers
        rw [List.take_of_length_le (Nat.le_succ_of_le hlen)]
        exact ((before_heard hlive hheld hbefore).resolve_left fun hg => hend hg.1).2
  · obtain ⟨hlive, hheld⟩ := live_of_goesOn hbefore hgo
    obtain ⟨-, hfails, hs⟩ := (before_heard hlive hheld hbefore).resolve_right fun hg => hg.1 hgo
    obtain ⟨v, rest, rfl, -, hv, hrest⟩ := visits_cons hlater
    obtain ⟨told, hlook, hfails', hhear, hgo', htold, hdelay⟩ := poolStall_ends hv
    have hrest := (hrest.resolve_left fun hr => hr.1 hgo').2
    have hans : p.answers = before.flatMap Visit.asked ++ v.asked := by
      unfold Pass.answers
      rw [hsteps, ← hlen, List.take_length_add_append]
      simp
    have hmem : v ∈ p.steps := by
      rw [hsteps]
      exact List.mem_append_right _ List.mem_cons_self
    refine .inr ⟨?_, stallLook (Visit.leftScope (opened pool) before) p.seenAt, told, ?_, ?_, ?_,
      fun hpos => ?_⟩
    · rw [hans, hlive, hheld, List.any_append, hfails, hfails']
      rfl
    · simp only [Pass.look, hgot, hlive]
      rw [hans, List.foldl_append, hhear]
      exact look_eq hs _
    · unfold Pass.seenAt
      rw [hans, ← hlook, hlooks, hsteps, List.flatMap_append, List.flatMap_cons, looksIn_append,
        looksIn_append, visits_silent (fun _ => before_silent) hbefore,
        visits_silent (fun _ => after_silent) hrest, List.nil_append, List.append_nil]
    · simp only [Pass.reports, hgot]
      rw [hsteps, Visit.leftScope, List.foldl_append]
      exact congrArg Option.isSome ((after_keeps hrest).trans (htold hs.1.notFilling))
    · have hdelay := hdelay hpos
      rw [← hdelay] at hpos ⊢
      rw [hres]
      exact ⟨Visit.left_pos hmem hpos, Visit.left_le hmem hpos⟩

/-! ## 5. The reconciles of a process -/

/-- What the looks make of the sightings. -/
def remembered (st : Option PoolStallState) : List (Look × Told) → Option PoolStallState
  | [] => st
  | (l, _) :: rest => remembered (l.see st).2 rest

/-- The looks were answered from the sightings. -/
def Served : Option PoolStallState → List (Look × Told) → Prop
  | _, [] => True
  | st, (l, told) :: rest => told = (l.see st).1 ∧ Served (l.see st).2 rest

instance decidableServed : (st : Option PoolStallState) → (seen : List (Look × Told)) →
    Decidable (Served st seen)
  | _, [] => .isTrue trivial
  | st, (l, _) :: rest =>
    have := decidableServed (l.see st).2 rest
    inferInstanceAs (Decidable (_ ∧ _))

/-- `poolStalls` after the reconciles of a process, the newest first. -/
def memory : List Pass → ObjectKey → Option PoolStallState
  | [], _ => none
  | p :: past, key =>
    if p.key = key then remembered (memory past key) (looksIn p.asked) else memory past key

/-- The object of the name that was read last, if there was one. -/
def lastRead (key : ObjectKey) (past : List Pass) : Option String :=
  (past.findSome? fun p => if p.key = key then p.read else none).join

/-- What the reconciles of one object saw, the newest first. -/
def looks (key : ObjectKey) (uid : String) (past : List Pass) : List Look :=
  past.filterMap fun p => if p.key = key ∧ p.read = some (some uid) then p.look else none

/-- **One more reconcile of the process.** The clock does not go back, and an object that was
    replaced or gone is not read again. -/
structure Happens (past : List Pass) (p : Pass) : Prop where
  ran : p.Ran
  served : Served (memory past p.key) (looksIn p.asked)
  clock : ∀ q ∈ past, q.key = p.key → q.seenAt ≤ p.seenAt
  once : ∀ uid, p.read = some (some uid) →
    (∃ q ∈ past, q.key = p.key ∧ q.read = some (some uid)) → lastRead p.key past = some uid

/-- The reconciles of a process. -/
def Process : List Pass → Prop
  | [] => True
  | p :: past => Happens past p ∧ Process past

/-- **No sightings are inherited**: a Pool that was replaced was not seen stalled when its name was
    read again, and no reconcile that was interrupted saw what adds a sighting or resets them. -/
def Uninherited : List Pass → Prop
  | [] => True
  | p :: past =>
    (∀ uid, p.read = some (some uid) → ∀ sf,
      (∀ old, lastRead p.key past = some old → old ≠ uid →
        sightings sf (looks p.key old past) = []) ∧
      (p.interrupted = true →
        sightings sf (looks p.key uid (p :: past)) = sightings sf (looks p.key uid past))) ∧
    Uninherited past

variable {past : List Pass} {uid : String} {l : Look} {sf : Int32}

/-- What a reconcile read, and how often it looked. -/
theorem Pass.Ran.cases (h : p.Ran) :
    (p.read = none ∧ looksIn p.asked = []) ∨
    (p.read = some none ∧ looksIn p.asked = [(.reset, (none, 0))]) ∨
    ∃ uid, p.read = some (some uid) ∧
      ((p.interrupted = true ∧ looksIn p.asked = []) ∨
        (p.interrupted = false ∧ ∃ l told, p.Looked l told)) := by
  cases hgot : p.got with
  | ok pool =>
    refine .inr (.inr ⟨pool.uid, ?_, h.looks hgot⟩)
    simp only [Pass.read, hgot]
  | error e =>
    obtain ⟨r, rest, hasked, hrest⟩ := ends_call.mp h.ends
    have hr : r = .error e := by
      rw [Pass.asked, hgot] at hasked
      cases hasked
      rfl
    subst hr
    simp only [Pass.read, hgot]
    rw [hasked]
    rcases ends_ite.mp hrest with ⟨hgone, hend⟩ | ⟨hfail, hend⟩
    · obtain ⟨u, rest, rfl, hlast⟩ := ends_call.mp hend
      rw [(ends_pure.mp hlast).1]
      exact .inr (.inl ⟨if_pos hgone, rfl⟩)
    · rw [(ends_pure.mp hend).1]
      exact .inl ⟨if_neg hfail, rfl⟩

/-- A sighting is of the time the reconcile saw it. -/
theorem look_time {stalled : Bool} {now : Time} (h : p.look = some (.sight sf stalled now)) :
    now = p.seenAt := by
  unfold Pass.look at h
  split at h
  · split at h
    · cases h
    · unfold Seen.look at h
      split at h
      · cases h
      · obtain ⟨held, -, h⟩ := Option.map_eq_some_iff.mp h
        cases held with
        | none => cases h
        | some st =>
          dsimp only at h
          split at h
          · cases h
          · cases h
            rfl
  · cases h

theorem looks_clock (h : Process past) (key : ObjectKey) (uid : String) :
    (looks key uid past).Pairwise Look.NotBefore := by
  induction past with
  | nil => exact List.Pairwise.nil
  | cons p past ih =>
    unfold looks
    rw [List.filterMap_cons]
    split
    · exact ih h.2
    next l hl =>
      refine List.pairwise_cons.mpr ⟨fun l' hl' => ?_, ih h.2⟩
      obtain ⟨q, hq, hl'⟩ := List.mem_filterMap.mp hl'
      obtain ⟨⟨hkey, -⟩, hlook⟩ := Option.ite_none_right_eq_some.mp hl
      obtain ⟨⟨hkey', -⟩, hlook'⟩ := Option.ite_none_right_eq_some.mp hl'
      cases l with
      | reset => trivial
      | sight sf stalled now =>
        cases l' with
        | reset => trivial
        | sight sf' stalled' now' =>
          show now' ≤ now
          rw [look_time hlook, look_time hlook']
          exact h.1.clock q hq (hkey'.trans hkey.symm)

theorem looks_read (h : p.read = some (some uid)) :
    looks p.key uid (p :: past) = p.look.toList ++ looks p.key uid past := by
  unfold looks
  rw [List.filterMap_cons, if_pos ⟨rfl, h⟩]
  cases p.look <;> rfl

/-- The memory is that of the object last read. -/
def Own (past : List Pass) (key : ObjectKey) : Prop :=
  match lastRead key past with
  | none => memory past key = none
  | some uid => memory past key = memoryOf (looks key uid past)

/-- The memory a reconcile finds is that of the object it reads. -/
theorem memory_found (h : Process (p :: past)) (hu : Uninherited (p :: past))
    (hown : Own past p.key) (hread : p.read = some (some uid)) :
    memory past p.key = memoryOf (looks p.key uid past) := by
  by_cases hl : lastRead p.key past = some uid
  · rw [Own, hl] at hown
    exact hown
  have hnil : looks p.key uid past = [] := by
    refine List.filterMap_eq_nil_iff.mpr fun q hq => if_neg fun hq' => hl ?_
    exact h.1.once uid hread ⟨q, hq, hq'⟩
  rw [hnil]
  cases hlast : lastRead p.key past with
  | none =>
    rw [Own, hlast] at hown
    exact hown
  | some old =>
    rw [Own, hlast] at hown
    have hold : old ≠ uid := fun he => hl (he ▸ hlast)
    rw [hown]
    have hempty : Holds [] none := fun _ => rfl
    exact holds_unique (holds_memoryOf (looks_clock h.2 p.key old)) hempty
      fun sf => (hu.1 uid hread sf).1 old hlast hold

/-- **The memory is that of the object last read**, where none is inherited. -/
theorem memory_eq (h : Process past) (hu : Uninherited past) (key : ObjectKey) : Own past key := by
  induction past with
  | nil => rfl
  | cons p past ih =>
    have hown := ih h.2 hu.2
    by_cases hk : p.key = key
    · subst hk
      have hlast : lastRead p.key (p :: past) = (p.read.getD (lastRead p.key past)) := by
        unfold lastRead
        rw [List.findSome?_cons, if_pos rfl]
        cases p.read <;> rfl
      have hmem : memory (p :: past) p.key = remembered (memory past p.key) (looksIn p.asked) :=
        if_pos rfl
      unfold Own
      rw [hlast, hmem]
      -- the read failed, found no Pool, or found an object: the last may inherit sightings
      rcases h.1.ran.cases with ⟨hread, hn⟩ | ⟨hread, hn⟩ | ⟨uid, hread, hn⟩
      · have hlooks (uid : String) : looks p.key uid (p :: past) = looks p.key uid past := by
          unfold looks
          rw [List.filterMap_cons, if_neg (by simp [hread])]
        simp only [hread, hn, Option.getD_none, hlooks]
        exact hown
      · simp only [hread, hn, Option.getD_some]
        rfl
      · simp only [hread, Option.getD_some]
        have hfound := memory_found h hu hown hread
        rcases hn with ⟨hint, hn⟩ | ⟨-, l, told, hone⟩
        · simp only [hn, remembered, hfound]
          exact (holds_unique (holds_memoryOf (looks_clock h p.key uid))
            (holds_memoryOf (looks_clock h.2 p.key uid)) fun sf => (hu.1 uid hread sf).2 hint).symm
        · simp only [looks_read hread, hone.look, hone.one, remembered, hfound]
          rfl
    · have hlast : lastRead key (p :: past) = lastRead key past := by
        unfold lastRead
        rw [List.findSome?_cons, if_neg hk]
      have hlooks (uid : String) : looks key uid (p :: past) = looks key uid past := by
        unfold looks
        rw [List.filterMap_cons, if_neg fun hp => hk hp.1]
      have hmem : memory (p :: past) key = memory past key := if_neg hk
      simp only [Own, hlast, hlooks, hmem]
      exact hown

/-! ## 6. Two sightings -/

/-- The Pool under a uid: battery accepted its spec. -/
def short (uid : String) : Pool where
  uid := uid
  generation := 1
  deletionTimestamp := none
  finalizers := [poolFinalizer]
  spec := someSpec
  status := { observedGeneration := 1 }

/-- battery holds the Pool, and has made none of its MicroVMs. -/
def unfilled : Except BatteryError Battery.Pool :=
  .ok ⟨poolSpecToBattery someKey someSpec ["host-1"], {}⟩

/-- battery does not hold the Pool. -/
def missing : Except BatteryError Battery.Pool := .error ⟨.notFound, "battery: not found"⟩

/-- The answers to a reconcile of the Pool at a time: what battery says of the Pool, and what
    `poolStall` is told. -/
def answersAt (uid : String) (now : Time) (held : Except BatteryError Battery.Pool) (told : Told) :
    (o : PoolOp) → o.Ans
  | .get => .ok (short uid)
  | .now => now
  | .matching _ => .ok ["host-1"]
  | .getPool => held
  | .observe _ _ _ => told
  | .forget | .returned _ => ()
  | .createPool _ | .updatePool _ | .deletePool => .error (errUnavailable "connection refused")
  | .patchStatus _ _ | .patch _ _ => .ok ()

def passAt (uid : String) (now : Time) (held : Except BatteryError Battery.Pool) (told : Told) :
    Pass :=
  let f := answersAt uid now held told
  let steps := visitsBy f (poolChain someKey).steps (opened (short uid))
  { key := someKey
    started := now
    got := .ok (short uid)
    steps := steps
    after := ((patch someKey (Visit.leftScope (opened (short uid)) steps)).answeredBy f).1
    res := ((reconcile someKey).answeredBy f).2 }

theorem happens_passAt {now : Time} {held : Except BatteryError Battery.Pool} {told : Told}
    (hasked : (passAt uid now held told).asked =
      ((reconcile someKey).answeredBy (answersAt uid now held told)).1)
    (hserved : Served (memory past someKey) (looksIn (passAt uid now held told).asked))
    (hclock : ∀ q ∈ past, q.seenAt ≤ (passAt uid now held told).seenAt)
    (hlast : (∀ q ∈ past, q.read ≠ some (some uid)) ∨ lastRead someKey past = some uid) :
    Happens past (passAt uid now held told) where
  ran := by
    refine ⟨?_, fun pool hgot => ?_⟩
    · rw [hasked]
      exact ends_answeredBy (answersAt uid now held told) (reconcile someKey)
    · cases hgot
      exact visits_visitsBy _ _ _
  served := hserved
  clock q hq _ := hclock q hq
  once u hu := by
    rintro ⟨q, hq, -, hread⟩
    cases hu
    exact hlast.resolve_left fun h => h q hq hread

/-- The Pool is seen stalled, and then it is told not to fill. -/
def stalledAt (uid : String) : Pass := passAt uid 0 unfilled (none, poolStallWait)

def reportedAt (uid : String) : Pass := passAt uid poolStallWait unfilled (some ⟨3, 0⟩, 0)

theorem stalledAt_process : Process [stalledAt "u1"] :=
  ⟨happens_passAt rfl (by decide +kernel) (by decide +kernel) (by decide +kernel), trivial⟩

theorem not_twoSightings (h : Process past) {key : ObjectKey} {older : List Look}
    (hl : looks key uid past = l :: older) (hno : (l.see (memoryOf older)).1.1 = none) :
    ¬ TwoSightings (looks key uid past) := by
  have hclock := looks_clock h key uid
  rw [hl] at hclock ⊢
  rw [← (see_told hclock).1, hno]
  exact Bool.false_ne_true

end BatteryOperator.Pools.Stall
