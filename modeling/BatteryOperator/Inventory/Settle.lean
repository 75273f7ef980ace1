/-
  Subject:   Only settled changes are acted on (`Settle` of
             internal/controller/inventory/subreconcilers.go), over all reconciles of one process.

  The controller remembers of each name that differs from battery what it last made and since when.
  A `Look` is what one reconcile saw: the Hosts the Nodes made and those battery placed on. The
  memory is a function of the looks of the process (`Remembers`): a name is remembered exactly while
  the last look differs from battery, since the first of the looks in a row that saw it like that.

  * `settle_lookup` -- what `Settle` leaves of every name;
  * `chain_settles` -- no later step changes it;
  * `Process`, `Process.remembers` -- **the memory after any number of reconciles**;
  * `only_settled_changes` -- what follows for the Hosts a reconcile wants.
-/
import BatteryOperator.Inventory.Walk
import Mathlib.Data.List.Dedup
import Mathlib.Data.List.TakeWhile

namespace BatteryOperator.Inventory

open Lib Prog

/-! ## 1. What a map of Hosts says of a name -/

/-- A name in a map of Hosts: absent, or present at an address. -/
def hostAt (hosts : Hosts) (name : String) : Option String :=
  if entry hosts name = "" then none else some (entry hosts name)

variable {n name : String} {acc : Settling} {s : Scope}

theorem hostAt_eq_iff {m m' : Hosts} {n' : String} :
    hostAt m n = hostAt m' n' ↔ entry m n = entry m' n' := by
  unfold hostAt
  constructor
  · intro h
    split at h
    next h1 =>
      split at h
      next h2 => rw [h1, h2]
      · cases h
    · split at h
      · cases h
      · exact Option.some.inj h
  · intro h
    rw [h]

/-! ## 2. One name -/

section Settling

variable (d : Duration) (s : Scope) (now : Time)

/-- What a name made last time, as this reconcile finds it. -/
def last (name : String) : Seen := lastSeen s.state.seen name (entry s.observed name) now

/-- A name that differs from battery, and has not done so for the settle time. -/
def Unsettled (name : String) : Prop :=
  entry s.observed name ≠ entry s.placeable name ∧ now - (last s now name).since < d

instance (name : String) : Decidable (Unsettled d s now name) := inferInstanceAs (Decidable (_ ∧ _))

/-- The address at which `Settle` wants a name, `""` for none. -/
def wanted (name : String) : String :=
  if Unsettled d s now name then entry s.placeable name else entry s.observed name

/-- What is remembered of a name. -/
def remembered (name : String) : Option Seen :=
  if entry s.observed name = entry s.placeable name then none else some (last s now name)

/-- The entry of an address that is there. -/
def present (address : String) : Option String := if address = "" then none else some address

theorem lookup_putHost {hosts : Hosts} {address : String} (h : hosts.lookup name = none) :
    (putHost hosts name address).lookup n =
      if n = name then present address else hosts.lookup n := by
  unfold putHost present
  split
  · split
    next hn => rw [hn, h]
    · rfl
  · exact Dict.lookup_insert_eq hosts name n address

/-- No round has touched these names. -/
structure Untouched (names : List String) (acc : Settling) : Prop where
  seen : ∀ n ∈ names, acc.seen.lookup n = s.state.seen.lookup n
  desired : ∀ n ∈ names, acc.desired.lookup n = none

variable {names : List String}

/-- **Settle, for one name** that no earlier round has touched. -/
theorem settleName_lookup (h : Untouched s (name :: names) acc) (n : String) :
    (settleName d s now acc name).desired.lookup n =
        (if n = name then present (wanted d s now name) else acc.desired.lookup n) ∧
      (settleName d s now acc name).seen.lookup n =
        (if n = name then remembered s now name else acc.seen.lookup n) := by
  have hdesired := h.desired name List.mem_cons_self
  have hlast : lastSeen acc.seen name (entry s.observed name) now = last s now name := by
    unfold last lastSeen
    rw [h.seen name List.mem_cons_self]
  unfold settleName wanted remembered Unsettled
  dsimp only
  rw [hlast]
  by_cases hsame : entry s.observed name = entry s.placeable name
  · simp only [hsame, if_true, ne_eq, not_true_eq_false, false_and, if_false]
    exact ⟨lookup_putHost hdesired, Dict.lookup_erase_eq _ _ _⟩
  · by_cases hlt : now - (last s now name).since < d
    · simp only [hsame, hlt, if_true, if_false, ne_eq, not_false_eq_true, and_self]
      exact ⟨lookup_putHost hdesired, Dict.lookup_insert_eq _ _ _ _⟩
    · simp only [hsame, hlt, if_false, and_false]
      exact ⟨lookup_putHost hdesired, Dict.lookup_insert_eq _ _ _ _⟩

/-- The delay a name asks for, beside what others asked for. -/
theorem settleName_delay (h : Untouched s (name :: names) acc) :
    (settleName d s now acc name).result = if Unsettled d s now name then
      acc.result.merge { requeueAfter := d - (now - (last s now name).since) } else acc.result := by
  have hlast : lastSeen acc.seen name (entry s.observed name) now = last s now name := by
    unfold last lastSeen
    rw [h.seen name List.mem_cons_self]
  unfold settleName Unsettled
  dsimp only
  rw [hlast]
  by_cases hsame : entry s.observed name = entry s.placeable name
  · simp [hsame]
  · by_cases hlt : now - (last s now name).since < d
    · simp [hsame, hlt]
    · simp [hsame, hlt]

/-! ## 3. All names -/

/-- A round leaves the names after it alone. -/
theorem Untouched.round (h : Untouched s (name :: names) acc) (hnot : name ∉ names) :
    Untouched s names (settleName d s now acc name) := by
  have hne : ∀ m ∈ names, m ≠ name := fun m hm he => hnot (he ▸ hm)
  refine ⟨fun m hm => ?_, fun m hm => ?_⟩
  · rw [(settleName_lookup d s now h m).2, if_neg (hne m hm)]
    exact h.seen m (List.mem_cons_of_mem name hm)
  · rw [(settleName_lookup d s now h m).1, if_neg (hne m hm)]
    exact h.desired m (List.mem_cons_of_mem name hm)

/-- The names in turn: each is settled once, and the others are left alone. -/
theorem settle_fold (hn : names.Nodup) (h : Untouched s names acc) (n : String) :
    (names.foldl (settleName d s now) acc).desired.lookup n =
        (if n ∈ names then present (wanted d s now n) else acc.desired.lookup n) ∧
      (names.foldl (settleName d s now) acc).seen.lookup n =
        (if n ∈ names then remembered s now n else acc.seen.lookup n) := by
  induction names generalizing acc with
  | nil => exact ⟨rfl, rfl⟩
  | cons name names ih =>
    obtain ⟨hnot, hn⟩ := List.nodup_cons.mp hn
    have hone := settleName_lookup d s now h n
    obtain ⟨hd, hs⟩ := ih hn (h.round d s now hnot)
    rw [List.foldl_cons, hd, hs, hone.1, hone.2]
    by_cases he : n = name
    · subst he
      simp [hnot]
    · simp [he]

/-- The delay is no longer than any name asked for. -/
theorem settle_delay (hn : names.Nodup) (hu : Untouched s names acc) (bound : Duration)
    (h : (0 < acc.result.requeueAfter ∧ acc.result.requeueAfter ≤ bound) ∨
      ∃ name ∈ names, Unsettled d s now name ∧ d - (now - (last s now name).since) = bound) :
    0 < (names.foldl (settleName d s now) acc).result.requeueAfter ∧
      (names.foldl (settleName d s now) acc).result.requeueAfter ≤ bound := by
  induction names generalizing acc with
  | nil =>
    rcases h with h | ⟨_, hm, _⟩
    · exact h
    · cases hm
  | cons name names ih =>
    obtain ⟨hnot, hn⟩ := List.nodup_cons.mp hn
    refine ih hn (hu.round d s now hnot) ?_
    rw [settleName_delay d s now hu]
    by_cases hu : Unsettled d s now name
    · have hpos : 0 < d - (now - (last s now name).since) := Int.sub_pos_of_lt hu.2
      rw [if_pos hu]
      rcases h with ⟨hp, hle⟩ | ⟨m, hm, hum, hb⟩
      · exact .inl ⟨Result.merge_pos_left hp, Int.le_trans (Result.merge_le_left hp) hle⟩
      · rcases List.mem_cons.mp hm with rfl | hm
        · rw [← hb]
          exact .inl ⟨Result.merge_pos_right hpos, Result.merge_le_right hpos⟩
        · exact .inr ⟨m, hm, hum, hb⟩
    · rw [if_neg hu]
      rcases h with h | ⟨m, hm, hum, hb⟩
      · exact .inl h
      · rcases List.mem_cons.mp hm with rfl | hm
        · exact absurd hum hu
        · exact .inr ⟨m, hm, hum, hb⟩

/-- A name that settles does not stop the chain. -/
theorem settleName_stop (acc : Settling) (name : String) :
    (settleName d s now acc name).result.stop = acc.result.stop := by
  unfold settleName
  simp only
  split
  · rfl
  · split
    · simp [Result.merge]
    · rfl

theorem settle_stop (names : List String) (acc : Settling) :
    (names.foldl (settleName d s now) acc).result.stop = acc.result.stop := by
  induction names generalizing acc with
  | nil => rfl
  | cons n names ih =>
    rw [List.foldl_cons, ih]
    exact settleName_stop d s now acc n

theorem untouched_start : Untouched s (settleNames s) { seen := s.state.seen } :=
  ⟨fun _ _ => rfl, fun _ _ => rfl⟩

theorem entry_of_not_mem {m : Dict String String} (h : n ∉ m.keys) : entry m n = "" := by
  unfold entry
  rw [AList.lookup_eq_none.mpr fun hm => h (AList.mem_keys.mp hm)]
  rfl

/-- **What `Settle` leaves of every name.** -/
theorem settle_lookup (n : String) :
    (settled d s now).desired.lookup n = present (wanted d s now n) ∧
      (settled d s now).seen.lookup n = remembered s now n := by
  have hn : (settleNames s).Nodup := List.nodup_dedup _
  obtain ⟨hd, hs⟩ := settle_fold d s now hn (untouched_start s) n
  by_cases hm : n ∈ settleNames s
  · rw [if_pos hm] at hd hs
    exact ⟨hd, hs⟩
  · rw [if_neg hm] at hd hs
    -- a name that is nowhere is wanted nowhere
    simp only [settleNames, List.mem_dedup, List.mem_append, not_or] at hm
    have hobserved := entry_of_not_mem hm.1.1
    have hplaced := entry_of_not_mem hm.1.2
    have hseen : s.state.seen.lookup n = none :=
      AList.lookup_eq_none.mpr fun hin => hm.2 (AList.mem_keys.mp hin)
    refine ⟨hd.trans ?_, hs.trans ?_⟩
    · simp [wanted, Unsettled, hobserved, hplaced, present]
    · simp [remembered, hobserved, hplaced, hseen]

/-- **The delay `Settle` asks for** is over when the first name settles. -/
theorem settled_delay (h : Unsettled d s now n) :
    0 < (settled d s now).result.requeueAfter ∧
      (settled d s now).result.requeueAfter ≤ d - (now - (last s now n).since) := by
  have hmem : n ∈ settleNames s := by
    by_contra hm
    simp only [settleNames, List.mem_dedup, List.mem_append, not_or] at hm
    exact h.1 ((entry_of_not_mem hm.1.1).trans (entry_of_not_mem hm.1.2).symm)
  exact settle_delay d s now (List.nodup_dedup _) (untouched_start s) _ (.inr ⟨n, hmem, h, rfl⟩)

end Settling

/-! ## 4. The other steps -/

/-- What the steps after `Settle` leave of the scope: the Nodes, the observed and the wanted Hosts
    and what is remembered of the names. -/
structure Keeps (sc sc' : Scope) : Prop where
  observed : sc'.observed = sc.observed
  desired : sc'.desired = sc.desired
  seen : sc'.state.seen = sc.state.seen

namespace Keeps

variable {a b c : Scope}

theorem refl (sc : Scope) : Keeps sc sc := ⟨rfl, rfl, rfl⟩

theorem trans (h : Keeps a b) (h' : Keeps b c) : Keeps a c :=
  ⟨h'.observed.trans h.observed, h'.desired.trans h.desired, h'.seen.trans h.seen⟩

theorem hold (h : Keeps a b) (name : String) (host : Host) : Keeps a (b.hold name host) :=
  { h with }

theorem drop (h : Keeps a b) (name : String) : Keeps a (b.drop name) :=
  { h with }

theorem fail (h : Keeps a b) (err : String) : Keeps a (b.fail err) :=
  { h with }

end Keeps

/-- The operations of these steps: none reads the clock. -/
def Timeless : Op → Prop
  | .now => False
  | _ => True

section Others

variable {sc : Scope}

theorem Keeps.heard (h : Keeps sc s) (o : Op) (r : o.Ans) : Keeps sc (s.heard o r) := by
  obtain ⟨held, he⟩ := heard_rest s o r
  rw [he]
  exact { h with }

theorem Scope.Calls.timeless (sc : Scope) (o : Op) (h : sc.Calls o) : Timeless o := by
  cases o with
  | now => exact h
  | _ => trivial

theorem reload_within {x : Scope × Bool} (name : String) (h : Keeps sc x.1) :
    (reload x name).Within Timeless fun x => Keeps sc x.1 := by
  obtain ⟨s, failed⟩ := x
  unfold reload
  dsimp only
  split
  · exact h
  · split
    · exact h
    · refine within_call trivial fun r => ?_
      cases r with
      | ok got => exact h.hold _ _
      | error e =>
        dsimp only
        rw [within_pure]
        split
        · exact h.drop _
        · exact h.fail _

theorem reloadStep_within (o : Options) (digest : Bytes → String) (s : Scope) :
    (Reload.reconcile o digest s).Within Timeless fun out => Keeps s out.scope := by
  unfold Reload.reconcile
  split
  · exact .refl s
  · split
    · exact .refl s
    · refine within_call trivial fun r => ?_
      match r with
      | .error (.other text) => exact (Keeps.refl s).fail _
      | .error .notExist => exact .refl s
      | .ok mounted =>
        dsimp only
        split
        · refine within_bind (V := fun x => Keeps s x.1) (within_foldlM _
            (fun name _ x hx => reload_within name hx) (Keeps.refl s)) fun x hx => ?_
          obtain ⟨s', failed⟩ := x
          rw [within_pure]
          cases failed with
          | true => exact hx
          | false => exact { hx with }
        · exact .refl s

/-- The steps after `Settle`. -/
def otherSteps (r : InventoryReconciler) : List (SubReconciler Code Scope) :=
  Withdraw.reconcile :: (hostSteps r.options ++ [Reload.reconcile r.options r.digest])

theorem others_within {r : InventoryReconciler} {sub : SubReconciler Code Scope}
    (hsub : sub ∈ otherSteps r) (h : Keeps sc s) :
    (sub s).Within Timeless fun o => Keeps sc o.scope := by
  rw [otherSteps, List.mem_cons, List.mem_append, List.mem_singleton] at hsub
  rcases hsub with rfl | hsub | rfl
  · exact within_call trivial fun _ => h
  · have hwalk := (hostSteps_walk hsub s).keeps (J := Keeps sc) (fun _ o r hk => hk.heard o r) h
    refine within_mono ?_ (hwalk.within Scope.Calls.timeless)
    rintro o ⟨s', ⟨errs, he⟩, hk⟩
    rw [he]
    exact { hk with }
  · exact within_mono (fun _ hk => h.trans hk) (reloadStep_within _ _ s)

/-- What `Admit` leaves. -/
def admittedScope (sc : Scope) : Scope := { sc with observed := admitted sc.nodes }

/-- What `Settle` leaves of it. -/
def settledScope (d : Duration) (sc : Scope) (now : Time) : Scope :=
  { admittedScope sc with
    desired := some (settled d (admittedScope sc) now).desired
    state := { sc.state with seen := (settled d (admittedScope sc) now).seen } }

/-- **A chain that ended**: it read the clock once, no later step changed what `Settle` worked out,
    and the delay `Settle` asked for is not put off. -/
theorem chain_settles {r : InventoryReconciler} {asked : List (Asked Op Op.Ans)}
    {o : Outcome Scope} (h : (r.chain.run sc).Ends asked o) :
    ∃ now rest, asked = ⟨.now, now⟩ :: rest ∧ (∀ e ∈ rest, Timeless e.1) ∧
      Keeps (settledScope r.options.settleTime sc now) o.scope ∧
      ∀ bound, 0 < (settled r.options.settleTime (admittedScope sc) now).result.requeueAfter →
        (settled r.options.settleTime (admittedScope sc) now).result.requeueAfter ≤ bound →
        0 < o.result.requeueAfter ∧ o.result.requeueAfter ≤ bound := by
  obtain ⟨before, after, x, rfl, hsteps, h1⟩ := ends_bind.mp h
  obtain ⟨now, rest, rfl, hgo⟩ := ends_call.mp hsteps
  have hstop : (settled r.options.settleTime (admittedScope sc) now).result.stop = false :=
    settle_stop _ _ _ _ _
  have hothers : (Chain.runSteps (otherSteps r) (settledScope r.options.settleTime sc now)
      ((({} : Result).merge {}).merge
        (settled r.options.settleTime (admittedScope sc) now).result)).Ends rest x := by
    change (if (settled r.options.settleTime (admittedScope sc) now).result.stop then pure _
      else Chain.runSteps (otherSteps r) _ _).Ends rest x at hgo
    rw [hstop] at hgo
    exact hgo
  obtain ⟨hrest, hx⟩ := hothers.within (within_runSteps (P := Timeless)
    (I := Keeps (settledScope r.options.settleTime sc now)) (fun _ hk => hk) (otherSteps r)
    (fun sub hsub s hs => within_mono (fun _ hk => ⟨hk, fun _ _ => hk⟩)
      (others_within hsub hs)) (.refl _))
  obtain ⟨last, none', y, rfl, hfinally, h2⟩ := ends_bind.mp h1
  cases h2
  have hfinal : ∀ sub ∈ r.chain.finally_, ∀ s,
      Keeps (settledScope r.options.settleTime sc now) s → (sub s).Within Timeless
        fun o => Keeps (settledScope r.options.settleTime sc now) o.scope := by
    intro sub hsub s hs
    simp only [InventoryReconciler.chain, List.mem_cons, List.not_mem_nil, or_false] at hsub
    rcases hsub with rfl | rfl
    · exact within_call trivial fun _ => hs
    · exact hs
  obtain ⟨hlast, hy⟩ := hfinally.within (within_runFinally r.chain.finally_ hfinal hx)
  refine ⟨now, rest ++ last, by simp, fun e he => ?_, hy, fun bound hpos hle => ?_⟩
  · rcases List.mem_append.mp he with he | he
    · exact hrest e he
    · exact hlast e he
  · obtain ⟨vs, -, -, rfl⟩ := ends_runSteps hothers
    have hp := Result.merge_pos_right (r := ({} : Result).merge {}) hpos
    obtain ⟨hp', hle'⟩ := ends_runFinally_delay hfinally (Visit.left_pos_of_out vs hp)
    refine ⟨hp', Int.le_trans hle' (Int.le_trans (Visit.left_le_of_out vs hp) ?_)⟩
    exact Int.le_trans (Result.merge_le_right hpos) hle

end Others

/-! ## 5. All reconciles of a process -/

/-- What one reconcile saw: when, the Hosts the Nodes made, and the Hosts battery placed on at its
    start. -/
structure Look where
  time : Time
  observed : Hosts
  placed : Hosts

/-- The scope a reconcile starts from. -/
def startScope (nodes : List Node) (hosts : List Host) (cert : Option Bytes) (st : State) : Scope :=
  { nodes := nodes
    held := InventoryReconciler.byName hosts
    clientCertificate := cert
    state := st }

/-- What a reconcile that starts from there sees. -/
def lookOf (nodes : List Node) (hosts : List Host) (now : Time) : Look :=
  ⟨now, admitted nodes, (startScope nodes hosts none {}).placeable⟩

/-- **A process**: its memory, and what its reconciles saw, the last first. Each lists any Nodes and
    any Hosts, at any time; one that cannot list them ends before the chain and remembers nothing
    else. -/
inductive Process (r : InventoryReconciler) : State → List Look → Prop where
  | start : Process r {} []
  | reconcile (st : State) (past : List Look) (h : Process r st past) (nodes : List Node)
      (hosts : List Host) (cert : Option Bytes) (asked : List (Asked Op Op.Ans)) (o : Outcome Scope)
      (hends : (r.chain.run (startScope nodes hosts cert st)).Ends asked o) (now : Time)
      (hnow : ⟨.now, now⟩ ∈ asked) :
      Process r o.scope.state (lookOf nodes hosts now :: past)

/-- The last looks in a row that saw the name as `want`, where battery did not place on it so. -/
def stretch (name : String) (want : Option String) (looks : List Look) : List Look :=
  looks.takeWhile fun l => hostAt l.observed name = want ∧ hostAt l.placed name ≠ want

/-- What is to be remembered of a name. -/
def memory (name : String) : List Look → Option Seen
  | [] => none
  | l :: past =>
    if hostAt l.observed name = hostAt l.placed name then none
    else (stretch name (hostAt l.observed name) (l :: past)).getLast?.map
      fun first => ⟨entry l.observed name, first.time⟩

/-- A look that differs from battery begins a stretch, or goes on with the last one. -/
theorem memory_cons {l : Look} {past : List Look} {seen : Dict String Seen}
    (h : seen.lookup name = memory name past)
    (hne : hostAt l.observed name ≠ hostAt l.placed name) :
    memory name (l :: past) = some (lastSeen seen name (entry l.observed name) l.time) := by
  have hstretch : stretch name (hostAt l.observed name) (l :: past) =
      l :: stretch name (hostAt l.observed name) past := by
    unfold stretch
    rw [List.takeWhile_cons_of_pos]
    simp [hne.symm]
  have hmemory : memory name (l :: past) = (stretch name (hostAt l.observed name)
      (l :: past)).getLast?.map fun first => ⟨entry l.observed name, first.time⟩ := if_neg hne
  rw [hmemory, hstretch]
  unfold lastSeen
  rw [h]
  cases past with
  | nil => rfl
  | cons l' past =>
    by_cases hd : hostAt l'.observed name = hostAt l'.placed name
    · -- battery had caught up, so the wait begins now
      have hnone : memory name (l' :: past) = none := if_pos hd
      have hstop : stretch name (hostAt l.observed name) (l' :: past) = [] := by
        unfold stretch
        rw [List.takeWhile_cons_of_neg]
        simp only [decide_eq_true_eq, not_and, not_not]
        intro he
        rw [← hd, he]
      rw [hnone, hstop]
      rfl
    · have hsome : memory name (l' :: past) = (stretch name (hostAt l'.observed name)
          (l' :: past)).getLast?.map fun first => ⟨entry l'.observed name, first.time⟩ :=
        if_neg hd
      have hcons : ∃ first, (stretch name (hostAt l'.observed name) (l' :: past)).getLast? =
          some first := by
        unfold stretch
        rw [List.takeWhile_cons_of_pos (by simp [Ne.symm hd])]
        exact ⟨_, List.getLast?_cons⟩
      obtain ⟨first, hfirst⟩ := hcons
      rw [hsome, hfirst]
      dsimp only [Option.map_some]
      by_cases he : entry l'.observed name = entry l.observed name
      · have hat := hostAt_eq_iff.mpr he
        rw [if_pos he, ← hat, List.getLast?_cons, hfirst]
        simp [he]
      · have hstop : stretch name (hostAt l.observed name) (l' :: past) = [] := by
          unfold stretch
          rw [List.takeWhile_cons_of_neg]
          simp only [decide_eq_true_eq, not_and]
          exact fun hat => absurd (hostAt_eq_iff.mp hat) he
        rw [if_neg he, hstop]
        rfl

section Process

variable {r : InventoryReconciler} {st : State} {past : List Look} {nodes : List Node}
  {hosts : List Host} {cert : Option Bytes} {asked : List (Asked Op Op.Ans)} {o : Outcome Scope}
  {now : Time}

/-- What a reconcile of the process worked out at its one reading of the clock. -/
theorem reconcile_settles (hends : (r.chain.run (startScope nodes hosts cert st)).Ends asked o)
    (hnow : ⟨.now, now⟩ ∈ asked) :
    Keeps (settledScope r.options.settleTime (startScope nodes hosts cert st) now) o.scope ∧
      ∀ name, Unsettled r.options.settleTime (admittedScope (startScope nodes hosts cert st)) now
          name →
        0 < o.result.requeueAfter ∧ o.result.requeueAfter ≤ r.options.settleTime -
          (now - (last (admittedScope (startScope nodes hosts cert st)) now name).since) := by
  obtain ⟨now', rest, rfl, hrest, hkeep, hdelay⟩ := chain_settles hends
  rcases List.mem_cons.mp hnow with he | he
  · cases he
    refine ⟨hkeep, fun name hu => ?_⟩
    obtain ⟨hpos, hle⟩ := settled_delay _ _ _ hu
    exact hdelay _ hpos hle
  · exact (hrest _ he).elim

/-- **The memory after any number of reconciles.** -/
theorem Process.remembers (h : Process r st past) (name : String) :
    st.seen.lookup name = memory name past := by
  induction h with
  | start => rfl
  | reconcile st past _ nodes hosts cert asked o hends now hnow ih =>
    have hkeep := (reconcile_settles hends hnow).1
    rw [hkeep.seen]
    refine (settle_lookup _ _ _ name).2.trans ?_
    show remembered (admittedScope (startScope nodes hosts cert st)) now name = _
    unfold remembered
    by_cases he : entry (admitted nodes) name =
        entry (startScope nodes hosts none {}).placeable name
    · have hat : hostAt (admitted nodes) name =
        hostAt (startScope nodes hosts none {}).placeable name := hostAt_eq_iff.mpr he
      have hnone : memory name (lookOf nodes hosts now :: past) = none := if_pos hat
      rw [hnone]
      exact if_pos he
    · have hat : hostAt (admitted nodes) name ≠
        hostAt (startScope nodes hosts none {}).placeable name := fun h => he (hostAt_eq_iff.mp h)
      have hmemory : memory name (lookOf nodes hosts now :: past) = _ := memory_cons ih hat
      rw [hmemory]
      exact if_neg he

/-- The address at which the reconcile wants a name. -/
theorem hostAt_wanted (hends : (r.chain.run (startScope nodes hosts cert st)).Ends asked o)
    (hnow : ⟨.now, now⟩ ∈ asked) (name : String) :
    hostAt (o.scope.desired.getD ∅) name =
      present (wanted r.options.settleTime (admittedScope (startScope nodes hosts cert st)) now
        name) := by
  have hkeep := (reconcile_settles hends hnow).1
  rw [hkeep.desired]
  show hostAt (settled _ _ now).desired name = _
  unfold hostAt entry
  rw [(settle_lookup _ _ _ name).1]
  unfold present
  by_cases he : wanted r.options.settleTime (admittedScope (startScope nodes hosts cert st)) now
      name = ""
  · simp [he]
  · simp [he]

/-- **Only settled changes are acted on.** A reconcile wants a name otherwise than battery placed on
    it at its start only as it observed it, and only if every reconcile since one that was at least
    the settle time ago observed it so, where battery placed on it otherwise. Of a name that differs
    and is not settled, the chain asks to run again by the time it has differed for the settle
    time. -/
theorem only_settled_changes (h : Process r st past)
    (hends : (r.chain.run (startScope nodes hosts cert st)).Ends asked o)
    (hnow : ⟨.now, now⟩ ∈ asked) (name : String) :
    (hostAt (o.scope.desired.getD ∅) name ≠ hostAt (lookOf nodes hosts now).placed name →
      ∃ recent older first, lookOf nodes hosts now :: past = recent ++ older ∧
        recent.getLast? = some first ∧ first.time ≤ now - r.options.settleTime ∧
        ∀ l ∈ recent, hostAt l.observed name = hostAt (o.scope.desired.getD ∅) name ∧
          hostAt l.placed name ≠ hostAt (o.scope.desired.getD ∅) name) ∧
    (hostAt (lookOf nodes hosts now).observed name ≠ hostAt (lookOf nodes hosts now).placed name →
      hostAt (o.scope.desired.getD ∅) name = hostAt (lookOf nodes hosts now).placed name →
      ∃ first, (stretch name (hostAt (lookOf nodes hosts now).observed name)
          (lookOf nodes hosts now :: past)).getLast? = some first ∧
        0 < o.result.requeueAfter ∧
        now + o.result.requeueAfter ≤ first.time + r.options.settleTime) := by
  have hwant := hostAt_wanted hends hnow name
  have hdelay := (reconcile_settles hends hnow).2 name
  -- a name that differs has been seen like that since the first look of its stretch
  have hsince : hostAt (lookOf nodes hosts now).observed name ≠
      hostAt (lookOf nodes hosts now).placed name → ∃ first,
        (stretch name (hostAt (lookOf nodes hosts now).observed name)
          (lookOf nodes hosts now :: past)).getLast? = some first ∧
        (last (admittedScope (startScope nodes hosts cert st)) now name).since = first.time := by
    intro hne
    have hmemory := memory_cons (h.remembers name) hne
    rw [memory, if_neg hne] at hmemory
    obtain ⟨first, hfirst, hlast⟩ := Option.map_eq_some_iff.mp hmemory
    exact ⟨first, hfirst, (congrArg Seen.since hlast).symm⟩
  by_cases hu : Unsettled r.options.settleTime (admittedScope (startScope nodes hosts cert st)) now
      name
  · have hplaced : hostAt (o.scope.desired.getD ∅) name =
        hostAt (lookOf nodes hosts now).placed name := by
      rw [hwant, wanted, if_pos hu]
      rfl
    refine ⟨fun hne => absurd hplaced hne, fun hne _ => ?_⟩
    obtain ⟨first, hfirst, hs⟩ := hsince hne
    obtain ⟨hpos, hle⟩ := hdelay hu
    rw [hs] at hle
    refine ⟨first, hfirst, hpos, ?_⟩
    have hdue : ∀ n q f d : Int, q ≤ d - (n - f) → n + q ≤ f + d := by omega
    exact hdue _ _ _ _ hle
  · have hobserved : hostAt (o.scope.desired.getD ∅) name =
        hostAt (lookOf nodes hosts now).observed name := by
      rw [hwant, wanted, if_neg hu]
      rfl
    refine ⟨fun hne => ?_, fun hne he => absurd (hobserved.symm.trans he) hne⟩
    rw [hobserved] at hne ⊢
    obtain ⟨first, hfirst, hs⟩ := hsince hne
    refine ⟨_, _, first, (List.takeWhile_append_dropWhile).symm, hfirst, ?_, fun l hl => ?_⟩
    · have hheld : ¬ now - (last (admittedScope (startScope nodes hosts cert st)) now name).since <
          r.options.settleTime := fun hlt => hu ⟨fun he => hne (hostAt_eq_iff.mpr he), hlt⟩
      rw [hs] at hheld
      have hago : ∀ n f d : Int, ¬ n - f < d → f ≤ n - d := by omega
      exact hago _ _ _ hheld
    · have hin := List.mem_takeWhile_imp hl
      exact of_decide_eq_true hin

end Process

/-- A Node that is ready at an address. -/
def readyNode (name address : String) : Node where
  name := name
  annotations := (∅ : Dict String String).insert annotationReady annotationTrue
    |>.insert annotationFlintlockdAddress address
  unschedulable := false
  deleting := false

/-- Timings of the defaults, and a digest that tells certificates of different length apart. -/
def byDefault : InventoryReconciler where
  options := {}
  clientSecret := ⟨"battery", "battery-flintlockd-client"⟩
  digest := fun cert => String.ofList (List.replicate (cert.length + 1) 'd')

/-- battery refuses every call, at this time. -/
def refusing (now : Time) : (o : Op) → o.Ans
  | .listNodes => .ok []
  | .listHosts => .ok []
  | .getSecret => .error ⟨.notFound, ""⟩
  | .mountedCertificate => .error .notExist
  | .now => now
  | .addHost _ _ => .error ⟨.unavailable, "refused"⟩
  | .getHost _ => .error ⟨.unavailable, "refused"⟩
  | .updateHost _ _ => .error ⟨.unavailable, "refused"⟩
  | .removeHost _ => .error ⟨.unavailable, "refused"⟩
  | .cordonHost _ _ => .error ⟨.unavailable, "refused"⟩
  | .uncordonHost _ => .error ⟨.unavailable, "refused"⟩
  | .publish _ => ()
  | .state => {}
  | .remember _ => ()

/-- The reconcile of a cluster with one ready Node while battery holds no Host. -/
def oneNodeAt (st : State) (now : Time) : List (Asked Op Op.Ans) × Outcome Scope :=
  (byDefault.chain.run (startScope [readyNode "n1" "10.0.0.1:9090"] [] none st)).answeredBy
    (refusing now)

/-- Seen for the first time, the Node is not wanted yet and the chain runs again when it has
    settled; half a minute later it is wanted. -/
theorem only_settled_changes_one_node :
    (oneNodeAt {} 0).2.result.requeueAfter = 30 * second ∧
      hostAt ((oneNodeAt (oneNodeAt {} 0).2.scope.state (30 * second)).2.scope.desired.getD ∅)
        "n1" = some "10.0.0.1:9090" ∧
      ∃ recent older first, lookOf [readyNode "n1" "10.0.0.1:9090"] [] (30 * second) ::
          [lookOf [readyNode "n1" "10.0.0.1:9090"] [] 0] = recent ++ older ∧
        recent.getLast? = some first ∧ first.time ≤ 0 ∧
        ∀ l ∈ recent, hostAt l.observed "n1" = some "10.0.0.1:9090" ∧
          hostAt l.placed "n1" ≠ some "10.0.0.1:9090" := by
  have hfirst : Process byDefault (oneNodeAt {} 0).2.scope.state
      [lookOf [readyNode "n1" "10.0.0.1:9090"] [] 0] :=
    .reconcile _ _ .start _ _ _ _ _ (ends_answeredBy _ _) 0 List.mem_cons_self
  have hwant : hostAt ((oneNodeAt (oneNodeAt {} 0).2.scope.state
      (30 * second)).2.scope.desired.getD ∅) "n1" = some "10.0.0.1:9090" := by decide +kernel
  refine ⟨by decide +kernel, hwant, ?_⟩
  have hsecond : (byDefault.chain.run (startScope [readyNode "n1" "10.0.0.1:9090"] [] none
      (oneNodeAt {} 0).2.scope.state)).Ends
        (oneNodeAt (oneNodeAt {} 0).2.scope.state (30 * second)).1
        (oneNodeAt (oneNodeAt {} 0).2.scope.state (30 * second)).2 := ends_answeredBy _ _
  have hsettled := (only_settled_changes hfirst hsecond List.mem_cons_self "n1").1
  rw [hwant] at hsettled
  exact hsettled (by decide +kernel)

end BatteryOperator.Inventory
