/-
  Subject:   The fake battery's Leases are consistent.

  `Consistent` ties the records together: the index by uid, the task a MicroVM is in the hands of,
  its Lease, and the Pool. What carries it is that a MicroVM has one task at a time, that none has
  one that is AVAILABLE or ever had a Lease, and that only the task of a claim gets it one. That
  `aliveLocked` takes a Pool of the same name for the MicroVM's own does not matter here.

  * `consistent_step` -- **one step keeps the records consistent**;
  * `leases_consistent` -- **the Leases of every run**, if no Host gives a uid twice.
-/
import BatteryOperator.FakeBattery.System
import BatteryOperator.Lib.Program
import Mathlib.Tactic.Common

namespace BatteryOperator.FakeBattery

open Lib

variable {s s' : State}

/-! ## 1. The invariant -/

/-- The MicroVM of the task has no uid yet. -/
def Task.early : Task → Bool
  | .reserved _ | .creating => true
  | _ => false

/-- What is said of one tracked MicroVM. -/
structure Tracked (s : State) (id : Nat) (vm : VmState) : Prop where
  numbered : id ≤ s.nextVM
  indexed : vm.uid ≠ "" → s.vmByUID vm.uid = some id
  owned : ∀ t, s.tasks id = some t → vm.phase ≠ .available ∧ (vm.uid = "" ↔ t.early) ∧
    ∀ ps r, t = .preLeaseHooks ps r → (s.poolStates ps).key = vm.pool ∧ ps < s.nextPool
  available : vm.phase = .available → vm.uid ≠ ""
  granted : id ∈ s.granted → vm.phase = .leased ∨ vm.phase = .deleting
  recorded : ∀ l, vm.leaseID = some l → id ∈ s.granted ∧ l < s.nextLease

/-- What ties MicroVMs, tasks, Leases and Pools together. -/
structure Consistent (s : State) : Prop where
  vm : ∀ id vm, s.vms id = some vm → Tracked s id vm
  byUID : ∀ uid id, s.vmByUID uid = some id →
    uid ∈ s.uids ∧ uid ≠ "" ∧ ∃ vm, s.vms id = some vm ∧ vm.uid = uid
  task : ∀ id t, s.tasks id = some t → id ≤ s.nextVM ∧ id ∉ s.granted
  granted : ∀ id ∈ s.granted, id ≤ s.nextVM
  held : ∀ l rec, s.leases l = some rec → l < s.nextLease ∧ (s.pools rec.pool).isSome ∧
    ∃ id vm, s.vmByUID rec.vmUID = some id ∧ s.vms id = some vm ∧ vm.leaseID = some l ∧
      vm.pool = rec.pool
  request : ∀ l l' rec rec', s.leases l = some rec → s.leases l' = some rec' →
    rec.requestID = rec'.requestID → rec.requestID ≠ "" → l = l'
  pool : ∀ key ps, s.pools key = some ps → (s.poolStates ps).key = key ∧ ps < s.nextPool
  once : s.granted.Nodup

theorem update_none {κ α : Type} [DecidableEq κ] {f : κ → Option α} {k i : κ} {x : α}
    (h : Function.update f k none i = some x) : i ≠ k ∧ f i = some x := by
  rcases update_cases h with ⟨-, hx⟩ | hx
  · cases hx
  · exact hx

theorem update_this {κ α : Type} [DecidableEq κ] {f : κ → α} {k : κ} {x y : α}
    (h : Function.update f k x k = y) : x = y := (Function.update_self ..).symm.trans h

theorem update_other {κ α : Type} [DecidableEq κ] {f : κ → α} {k i : κ} {x y : α}
    (hi : i ≠ k) (h : f i = y) : Function.update f k x i = y := by
  rwa [Function.update_of_ne hi]

/-! ## 2. What keeps it -/

namespace Consistent

variable (h : Consistent s) {id : Nat} {vm : VmState}
include h

/-- The MicroVM of a task that has given it a uid has no Lease. -/
theorem unleased {t : Task} (ht : s.tasks id = some t) (hv : s.vms id = some vm)
    (hearly : t.early = false) : vm.uid ≠ "" ∧ vm.leaseID = none := by
  refine ⟨fun hu => ?_, Option.eq_none_iff_forall_ne_some.mpr fun l hl => ?_⟩
  · rw [((h.vm id vm hv).owned t ht).2.1.mp hu] at hearly
    cases hearly
  · exact (h.task id t ht).2 ((h.vm id vm hv).recorded l hl).1

/-- One MicroVM moves, with its task. -/
theorem move (vm' : VmState) (t : Option Task) (hv : s.vms id = some vm)
    (huid : vm'.uid = vm.uid) (hpool : vm'.pool = vm.pool) (hlease : vm'.leaseID = vm.leaseID)
    (hgranted : id ∈ s.granted → t = none ∧ (vm'.phase = .leased ∨ vm'.phase = .deleting))
    (havailable : vm'.phase = .available → t = none ∧ vm.uid ≠ "")
    (htask : ∀ t', t = some t' → (vm.uid = "" ↔ t'.early) ∧
      ∀ ps r, t' = .preLeaseHooks ps r → (s.poolStates ps).key = vm.pool ∧ ps < s.nextPool) :
    Consistent ((s.setVm id (some vm')).setTask id t) := by
  have hvm := h.vm id vm hv
  refine { h with
    vm := fun i v hi => ?_, byUID := fun uid i hu => ?_, task := fun i t' ht => ?_,
    held := fun l rec hl => ?_ }
  · rcases update_cases hi with ⟨rfl, he⟩ | ⟨hne, hi⟩
    · cases he
      refine ⟨hvm.numbered, by rw [huid]; exact hvm.indexed, fun t' ht => ?_, fun hph => ?_,
        fun hg => (hgranted hg).2, by rw [hlease]; exact hvm.recorded⟩
      · rw [huid, hpool]
        refine ⟨fun hph => ?_, htask t' (update_this ht)⟩
        cases (havailable hph).1.symm.trans (update_this ht)
      · rw [huid]
        exact (havailable hph).2
    · have hold := h.vm i v hi
      exact { hold with
        owned := fun t' ht => hold.owned t' ((Function.update_of_ne hne ..).symm.trans ht) }
  all_goals simp only [State.setVm, State.setTask, Function.update_apply] at *
  · grind [h.byUID uid i hu]
  · have hold := h.task i t'
    grind [hvm.numbered]
  · grind [h.held l rec hl]

/-- A MicroVM whose task is in hand moves without its Lease, of which it has none. -/
theorem advance {t : Task} (vm' : VmState) (next : Option Task)
    (ht : s.tasks id = some t) (hv : s.vms id = some vm) (huid : vm'.uid = vm.uid)
    (hpool : vm'.pool = vm.pool) (hlease : vm'.leaseID = vm.leaseID ∨ vm'.leaseID = none)
    (hearly : t.early = false) (hnext : vm'.phase = .available → next = none)
    (htask : next = none ∨ next = some .createHooks) :
    Consistent ((s.setVm id (some vm')).setTask id next) := by
  obtain ⟨hne, hnone⟩ := h.unleased ht hv hearly
  refine h.move vm' next hv huid hpool ?_ (absurd · (h.task id t ht).2)
    (fun hph => ⟨hnext hph, hne⟩) fun t' ht' => ?_
  · rw [hnone] at hlease ⊢
    exact or_self_iff.mp hlease
  · rcases htask with rfl | rfl
    · cases ht'
    · cases ht'
      exact ⟨by simp [hne, Task.early], nofun⟩

/-- The clock does not matter, nor does what is being deleted. -/
theorem elsewhere (now : Time) (deleteInFlight doomed : Nat → Bool) :
    Consistent { s with now := now, deleteInFlight := deleteInFlight, doomed := doomed } :=
  { h with vm := fun i v hi => { h.vm i v hi with } }

theorem endTask (id : Nat) : Consistent (s.setTask id none) :=
  { h with
    vm := fun i v hi =>
      { h.vm i v hi with owned := fun t ht => (h.vm i v hi).owned t (update_none ht).2 }
    task := fun i t ht => h.task i t (update_none ht).2 }

/-- The new MicroVM's number is above all that are in use. -/
theorem reserve (ps : Nat) : Consistent (s.reserve ps) := by
  have new : ∀ i v, s.vms i = some v → i ≠ s.nextVM + 1 := fun i v hi =>
    Nat.ne_of_lt (Nat.lt_succ_of_le (h.vm i v hi).numbered)
  refine { h with
    vm := fun i v hi => ?_, byUID := fun uid i hu => ?_, task := fun i t ht => ?_,
    granted := fun i hg => Nat.le_succ_of_le (h.granted i hg), held := fun l rec hl => ?_ }
  · rcases update_cases hi with ⟨rfl, he⟩ | ⟨hne, hi⟩
    · cases he
      refine ⟨Nat.le_refl _, fun hu => absurd rfl hu, fun t ht => ?_, nofun,
        fun hg => absurd (h.granted _ hg) (Nat.not_succ_le_self _), nofun⟩
      cases update_this ht
      exact ⟨nofun, by simp [Task.early], nofun⟩
    · have hold := h.vm i v hi
      exact { hold with
        numbered := Nat.le_succ_of_le hold.numbered
        owned := fun t ht => hold.owned t ((Function.update_of_ne hne ..).symm.trans ht) }
  all_goals simp only [State.reserve, Function.update_apply] at *
  · grind [h.byUID uid i hu]
  · have hold := h.task i t
    grind [h.granted]
  · grind [h.held l rec hl]

theorem provisionNLocked (ps n : Nat) : Consistent (s.provisionNLocked ps n) := by
  induction n generalizing s with
  | zero => exact h
  | succ n ih => exact ih (h.reserve ps)

/-- A MicroVM without a uid is not in the index, so none refers to it. -/
theorem dropReserved {t : Task} (ht : s.tasks id = some t) (hearly : t.early) :
    Consistent (s.dropReserved id) := by
  have kept : ∀ uid i v, s.vmByUID uid = some i → s.vms i = some v →
      Function.update s.vms id none i = some v := by
    intro uid i v hu hi
    obtain ⟨-, hne, v', hi', he⟩ := h.byUID uid i hu
    cases hi.symm.trans hi'
    refine update_other (fun hid => hne ?_) hi
    subst hid
    rw [← he]
    exact ((h.vm i v hi).owned t ht).2.1.mpr hearly
  refine { h.endTask id with
    vm := fun i v hi => { (h.endTask id).vm i v (update_none hi).2 with },
    byUID := fun uid i hu => ?_, held := fun l rec hl => ?_ }
  all_goals simp only [State.dropReserved, State.setVm, State.setTask] at *
  · grind [h.byUID uid i hu]
  · grind [h.held l rec hl]

/-- Leases are dropped, or expire at another time. -/
theorem fewer {leases : Nat → Option LeaseState} (hsub : ∀ l rec, leases l = some rec →
      ∃ at_, s.leases l = some { rec with expiresAt := at_ }) :
    Consistent { s with leases := leases } := by
  refine { h with
    vm := fun i v hi => { h.vm i v hi with }, held := fun l rec hl => ?_,
    request := fun l l' rec rec' hl hl' => ?_ }
  · obtain ⟨_, hold⟩ := hsub l rec hl
    have hheld := h.held l _ hold
    exact hheld
  · obtain ⟨_, hold⟩ := hsub l rec hl
    obtain ⟨_, hold'⟩ := hsub l' rec' hl'
    have hsame := h.request l l' _ _ hold hold'
    exact hsame

theorem dropLease (l : Nat) : Consistent (s.dropLeaseLocked l) :=
  h.fewer fun _ _ hl => ⟨_, (update_none hl).2⟩

theorem commit {ps : Nat} {r : String}
    (ht : s.tasks id = some (.preLeaseHooks ps r)) (hv : s.vms id = some vm)
    (hp : (s.pools vm.pool).isSome) (hr : ¬ s.replays r) : Consistent (s.commit id vm ps r) := by
  have hvm := h.vm id vm hv
  obtain ⟨hnum, hnot⟩ := h.task id _ ht
  obtain ⟨huid, hnone⟩ := h.unleased ht hv rfl
  have hkey : (s.poolStates ps).key = vm.pool := ((hvm.owned _ ht).2.2 ps r rfl).1
  have hfree : r ≠ "" → ∀ l rec, s.leases l = some rec → rec.requestID ≠ r := by
    intro hne l rec hl heq
    apply hr
    simp only [State.replays, State.leaseByRequestIDLocked, ne_eq, hne, not_false_eq_true,
      decide_true, Bool.true_and, List.find?_isSome, List.mem_range]
    exact ⟨l, (h.held l rec hl).1, by simp [hl, heq]⟩
  refine { h with
    vm := fun i v hi => ?_, byUID := fun uid i hu => ?_, task := fun i t hti => ?_,
    granted := fun i hg => ?_, held := fun l rec hl => ?_, request := ?_,
    once := List.nodup_cons.mpr ⟨hnot, h.once⟩ }
  · rcases update_cases hi with ⟨rfl, he⟩ | ⟨hne, hi⟩
    · cases he
      refine ⟨hnum, hvm.indexed, fun t hti => absurd rfl (update_none hti).1, nofun,
        fun _ => .inl rfl, fun l hl => ?_⟩
      cases hl
      exact ⟨List.mem_cons_self, Nat.lt_succ_self _⟩
    · have hold := h.vm i v hi
      exact { hold with
        owned := fun t hti => hold.owned t (update_none hti).2
        granted := fun hg => hold.granted ((List.mem_cons.mp hg).resolve_left hne)
        recorded := fun l hl => (hold.recorded l hl).imp (.tail _) Nat.lt_succ_of_lt }
  · simp only [State.commit, Function.update_apply] at *
    grind [h.byUID uid i hu]
  · obtain ⟨hne, hti⟩ := update_none hti
    exact (h.task i t hti).imp_right fun hg => List.not_mem_cons_of_ne_of_not_mem hne hg
  · exact (List.mem_cons.mp hg).elim (fun he => he ▸ hnum) (h.granted i)
  · -- the new Lease has the MicroVM's uid; the MicroVM of another Lease is another one
    have hindex := hvm.indexed huid
    have hold := h.held l rec
    simp only [State.commit, Function.update_apply] at *
    grind
  · have hold := h.request
    simp only [State.commit, Function.update_apply]
    grind

theorem untrack (hv : s.vms id = some vm) : Consistent (s.untrack id vm) := by
  -- the index has no other MicroVM under the uid
  have other : ∀ uid i, s.vmByUID uid = some i → i ≠ id →
      (if vm.uid ≠ "" ∧ uid = vm.uid then none else s.vmByUID uid) = some i := by
    intro uid i hu hne
    rw [if_neg]
    · exact hu
    · rintro ⟨huid, rfl⟩
      cases hu.symm.trans ((h.vm id vm hv).indexed huid)
      exact hne rfl
  refine { h with
    vm := fun i v hi => ?_, byUID := fun uid i hu => ?_, held := fun l rec hl => ?_,
    request := fun l l' rec rec' hl hl' => ?_ }
  · obtain ⟨hne, hi⟩ := update_none hi
    have hold := h.vm i v hi
    exact { hold with indexed := fun hu => other _ i (hold.indexed hu) hne }
  · obtain ⟨hne, hu⟩ := Option.ite_none_left_eq_some.mp hu
    simp only [State.untrack, State.setVm, Function.update_apply]
    grind [h.byUID uid i hu]
  · obtain ⟨hne, hl⟩ := Option.ite_none_left_eq_some.mp hl
    simp only [State.untrack, State.setVm, Function.update_apply]
    grind [h.held l rec hl]
  · exact h.request l l' rec rec' (Option.ite_none_left_eq_some.mp hl).2
      (Option.ite_none_left_eq_some.mp hl').2

theorem deletePool (key : PoolRef) : Consistent (s.deletePool key) := by
  have dropped : ∀ l rec, (s.deletePool key).leases l = some rec →
      s.leases l = some rec ∧ rec.pool ≠ key := by
    intro l rec hl
    obtain ⟨hl, hkeep⟩ := Option.filter_eq_some_iff.mp hl
    exact ⟨hl, fun he => by simp [he] at hkeep⟩
  refine { h.fewer fun l rec hl => ⟨_, (dropped l rec hl).1⟩ with
    vm := fun i v hi => ?_, byUID := fun uid i hu => ?_, held := fun l rec hl => ?_,
    pool := fun k ps hk => h.pool k ps (update_none hk).2 }
  · obtain ⟨v, hi', rfl⟩ := Option.map_eq_some_iff.mp hi
    have hold := h.vm i v hi'
    split
    · exact { hold with
        owned := fun t ht => (hold.owned t ht).imp_left fun _ => nofun
        available := nofun, granted := fun _ => .inr rfl, recorded := nofun }
    · exact { hold with }
  · obtain ⟨hin, hne, v, hi, rfl⟩ := h.byUID uid i hu
    refine ⟨hin, hne, _, Option.map_eq_some_iff.mpr ⟨v, hi, rfl⟩, ?_⟩
    split <;> rfl
  · obtain ⟨hl, hkey⟩ := dropped l rec hl
    obtain ⟨hlt, hp, i, v, hu, hi, hlv, hpv⟩ := h.held l rec hl
    refine ⟨hlt, ?_, i, v, hu, Option.map_eq_some_iff.mpr ⟨v, hi, ?_⟩, hlv, hpv⟩
    · show (Function.update s.pools key none rec.pool).isSome
      rwa [Function.update_of_ne hkey]
    · rw [if_neg (hpv.symm ▸ hkey)]

/-- A Host gave the MicroVM a uid. -/
theorem created {uid : String} (ht : s.tasks id = some .creating)
    (hv : s.vms id = some vm) (hne : uid ≠ "") (hnew : uid ∉ s.uids) :
    Consistent { (s.setVm id (some { vm with uid := uid })).setTask id (some .booting) with
      vmByUID := Function.update s.vmByUID uid (some id), uids := uid :: s.uids } := by
  have hvm := h.vm id vm hv
  have hempty : vm.uid = "" := (hvm.owned _ ht).2.1.mpr rfl
  -- a uid in the index is another one, and names another MicroVM
  have other : ∀ uid' i, s.vmByUID uid' = some i → uid' ≠ uid ∧ i ≠ id := by
    intro uid' i hu
    obtain ⟨hin, hne', v, hi, he⟩ := h.byUID uid' i hu
    refine ⟨fun heq => hnew (heq ▸ hin), fun hid => ?_⟩
    subst hid
    cases hv.symm.trans hi
    exact hne' (he.symm.trans hempty)
  refine { h with
    vm := fun i v hi => ?_, byUID := fun uid' i hu => ?_, task := fun i t hti => ?_,
    held := fun l rec hl => ?_ }
  · rcases update_cases hi with ⟨rfl, he⟩ | ⟨hid, hi⟩
    · cases he
      refine { hvm with
        indexed := fun _ => Function.update_self .., owned := fun t hti => ?_,
        available := fun _ => hne }
      cases update_this hti
      exact ⟨(hvm.owned _ ht).1, by simp [hne, Task.early], nofun⟩
    · have hold := h.vm i v hi
      exact { hold with
        indexed := fun hu => update_other (other _ i (hold.indexed hu)).1 (hold.indexed hu)
        owned := fun t hti => hold.owned t ((Function.update_of_ne hid ..).symm.trans hti) }
  all_goals simp only [State.setVm, State.setTask, Function.update_apply] at *
  · have hold := h.byUID uid' i
    grind
  · have hold := h.task i
    grind
  · grind [h.held l rec hl]

/-- `deleteVM` marks its MicroVM. -/
theorem mark {id : Nat} {vm : VmState} (hv : s.vms id = some vm) :
    Consistent (s.setVm id (some { vm with phase := .deleting })) := by
  have hself : Function.update s.tasks id (s.tasks id) = s.tasks :=
    Function.update_eq_self id s.tasks
  have hmove := h.move { vm with phase := .deleting } (s.tasks id) hv rfl rfl rfl
    (fun hg => ⟨?_, .inr rfl⟩) nofun fun t ht => ((h.vm id vm hv).owned t ht).2
  · rwa [State.setTask, State.setVm, hself] at hmove
  · cases ht : s.tasks id with
    | none => rfl
    | some t => exact absurd hg (h.task id t ht).2

theorem policy {id : Nat} {t : Task} {vm : VmState} (ht : s.tasks id = some t)
    (hv : s.vms id = some vm) (hearly : t.early = false) (policy : HookFailurePolicy) :
    Consistent ((s.applyHookFailurePolicy id vm policy).setTask id none) := by
  cases policy with
  | quarantine => exact h.advance _ none ht hv rfl rfl (.inr rfl) hearly nofun (.inl rfl)
  | deleteAndReplace =>
    exact (h.advance { vm with leaseID := none, phase := .deleting } none ht hv rfl rfl (.inr rfl)
      hearly nofun (.inl rfl)).elsewhere _ _ _

/-- The Pools there are keep their keys. -/
theorem respec (poolStates : Nat → PoolState) {nextPool : Nat} (hle : s.nextPool ≤ nextPool)
    (hkey : ∀ ps < s.nextPool, (poolStates ps).key = (s.poolStates ps).key) :
    Consistent { s with poolStates := poolStates, nextPool := nextPool } := by
  refine { h with vm := fun i v hi => ?_, pool := fun key ps hp => ?_ }
  · refine { h.vm i v hi with owned := fun t ht => ?_ }
    obtain ⟨hph, hearly, hps⟩ := (h.vm i v hi).owned t ht
    refine ⟨hph, hearly, fun ps r hr => ?_⟩
    obtain ⟨hk, hlt⟩ := hps ps r hr
    exact ⟨(hkey ps hlt).trans hk, Nat.lt_of_lt_of_le hlt hle⟩
  · obtain ⟨hk, hlt⟩ := h.pool key ps hp
    exact ⟨(hkey ps hlt).trans hk, Nat.lt_of_lt_of_le hlt hle⟩

end Consistent

/-! ## 3. Steps and runs -/

/-- An operation that has its MicroVM again goes on, or ends. -/
theorem resume_cases {id : Nat} {go : VmState → Option State} (h : s.resume id go = some s') :
    (∃ vm, s.vms id = some vm ∧ (s.pools vm.pool).isSome ∧ go vm = some s') ∨
      s' = s.setTask id none := by
  unfold State.resume at h
  split at h
  next vm hv =>
    obtain ⟨hv, hp⟩ := Option.filter_eq_some_iff.mp hv
    exact .inl ⟨vm, hv, hp, h⟩
  next => exact .inr (Option.some.inj h).symm

/-- The step after a guard. -/
theorem of_guard {α : Type} {p : Prop} [Decidable p] {x : Option α} {y : α}
    (h : (do guard p; x) = some y) : p ∧ x = some y := by
  by_cases hp : p
  · exact ⟨hp, by simpa [guard, hp] using h⟩
  · simp [guard, hp] at h

/-- No Host gives a uid that was given before. -/
def fresh (s : State) : Act → Bool
  | .created _ uid => uid ∉ s.uids
  | _ => true

section Acts

variable (h : Consistent s) {key : PoolRef} {id l n : Nat} {r uid : String}
include h

theorem createPool_consistent {spec : PoolSpec} (hs : step s (.createPool key spec) = some s') :
    Consistent s' := by
  obtain ⟨-, hs⟩ := of_guard hs
  cases hs
  have hnew := h.respec (Function.update s.poolStates s.nextPool ⟨key, spec⟩)
    (Nat.le_succ s.nextPool) fun ps hlt => by rw [Function.update_of_ne (Nat.ne_of_lt hlt)]
  refine { hnew with
    vm := fun i v hi => { hnew.vm i v hi with }, held := fun l rec hl => ?_,
    pool := fun k ps hk => ?_ }
  · refine (h.held l rec hl).imp_right (And.imp_left fun hp => ?_)
    show (Function.update s.pools key _ rec.pool).isSome
    rw [Function.update_apply]
    split
    · rfl
    · exact hp
  · rcases update_cases hk with ⟨rfl, he⟩ | ⟨-, hk⟩
    · cases he
      refine ⟨?_, Nat.lt_succ_self _⟩
      show (Function.update s.poolStates s.nextPool ⟨k, spec⟩ s.nextPool).key = k
      rw [Function.update_self]
    · exact hnew.pool k ps hk

theorem updatePool_consistent {spec : PoolSpec} (hs : step s (.updatePool key spec) = some s') :
    Consistent s' := by
  obtain ⟨ps, -, hs⟩ := Option.bind_eq_some_iff.mp hs
  cases hs
  refine h.respec _ (Nat.le_refl _) fun ps' _ => ?_
  rw [Function.update_apply]
  split
  next he => rw [he]
  next => rfl

theorem claim_consistent (hs : step s (.claim key r id) = some s') : Consistent s' := by
  obtain ⟨ps, hp, hs⟩ := Option.bind_eq_some_iff.mp hs
  obtain ⟨vm, hv, hs⟩ := Option.bind_eq_some_iff.mp hs
  obtain ⟨⟨-, hkey, hph⟩, hs⟩ := of_guard hs
  cases hs
  subst hkey
  have huid := (h.vm id vm hv).available hph
  refine h.move _ _ hv rfl rfl rfl (fun hg => ?_) nofun fun t ht => ?_
  · have hleased := (h.vm id vm hv).granted hg
    simp [hph] at hleased
  · cases ht
    refine ⟨by simp [huid, Task.early], fun ps' r' heq => ?_⟩
    cases heq
    exact h.pool _ ps hp

theorem preLeaseDone_consistent (hs : step s (.preLeaseDone id n) = some s') :
    Consistent s' := by
  simp only [step] at hs
  split at hs
  next ps r ht =>
    obtain ⟨vm, hv, hp, hs⟩ | rfl := resume_cases hs
    · split at hs
      next =>
        cases hs
        exact h.advance _ none ht hv rfl rfl (.inr rfl) rfl (fun _ => rfl) (.inl rfl)
      next hr =>
        obtain ⟨-, hs⟩ := of_guard hs
        cases hs
        exact (h.commit ht hv hp hr).provisionNLocked ps n
    · exact h.endTask id
  next => cases hs

theorem preLeaseFailed_consistent (hs : step s (.preLeaseFailed id) = some s') :
    Consistent s' := by
  simp only [step] at hs
  split at hs
  next ps r ht =>
    obtain ⟨vm, hv, -, hs⟩ | rfl := resume_cases hs
    · obtain ⟨ps', -, hs⟩ := Option.bind_eq_some_iff.mp hs
      cases hs
      exact h.policy ht hv rfl _
    · exact h.endTask id
  next => cases hs

theorem heartbeat_consistent (hs : step s (.heartbeat l) = some s') : Consistent s' := by
  obtain ⟨rec, hl, hs⟩ := Option.bind_eq_some_iff.mp hs
  obtain ⟨ps, -, hs⟩ := Option.bind_eq_some_iff.mp hs
  cases hs
  refine h.fewer fun l' rec' hl' => ?_
  rcases update_cases hl' with ⟨rfl, he⟩ | ⟨-, hl'⟩
  · cases he
    exact ⟨rec.expiresAt, hl⟩
  · exact ⟨_, hl'⟩

theorem release_consistent (hs : step s (.release l) = some s') : Consistent s' := by
  obtain ⟨rec, -, hs⟩ := Option.bind_eq_some_iff.mp hs
  split at hs
  · cases hs
    exact h.dropLease l
  · cases hs
    exact h.elsewhere _ _ _

theorem expire_consistent (hs : step s (.expire l) = some s') : Consistent s' := by
  obtain ⟨rec, -, hs⟩ := Option.bind_eq_some_iff.mp hs
  obtain ⟨-, hs⟩ := of_guard hs
  dsimp only at hs
  split at hs
  · cases hs
    exact h.dropLease l
  · cases hs
    split
    · exact (h.dropLease l).elsewhere _ _ _
    · exact h.dropLease l

theorem provision_consistent (hs : step s (.provision id) = some s') : Consistent s' := by
  simp only [step] at hs
  split at hs
  next key ht =>
    cases hs
    split
    · refine { h with vm := fun i v hi => ?_, task := fun i t ht' => ?_ }
      · refine { h.vm i v hi with owned := fun t ht' => ?_ }
        rcases update_cases ht' with ⟨rfl, he⟩ | ⟨-, ht'⟩
        · cases he
          exact ((h.vm i v hi).owned _ ht).imp_right fun hown => ⟨hown.1, nofun⟩
        · exact (h.vm i v hi).owned t ht'
      · rcases update_cases ht' with ⟨rfl, -⟩ | ⟨-, ht'⟩
        · exact h.task i _ ht
        · exact h.task i t ht'
    · exact h.dropReserved ht rfl
  next => cases hs

theorem createFailed_consistent (hs : step s (.createFailed id) = some s') : Consistent s' := by
  simp only [step] at hs
  split at hs
  next key ht =>
    cases hs
    exact h.dropReserved ht rfl
  next ht =>
    cases hs
    exact h.dropReserved ht rfl
  next => cases hs

theorem created_consistent (hfresh : fresh s (.created id uid))
    (hs : step s (.created id uid) = some s') : Consistent s' := by
  obtain ⟨⟨ht, hne⟩, hs⟩ := of_guard hs
  obtain ⟨vm, hv, -, hs⟩ | rfl := resume_cases hs
  · cases hs
    exact h.created ht hv hne (of_decide_eq_true hfresh)
  · exact { h.endTask id with
      vm := fun i v hi => { (h.endTask id).vm i v hi with }
      byUID := fun u i hu => (h.byUID u i hu).imp_left (.tail _) }

theorem booted_consistent (hs : step s (.booted id) = some s') : Consistent s' := by
  obtain ⟨ht, hs⟩ := of_guard hs
  obtain ⟨vm, hv, -, hs⟩ | rfl := resume_cases hs
  · cases hs
    exact h.advance _ _ ht hv rfl rfl (.inl rfl) rfl nofun (.inr rfl)
  · exact h.endTask id

theorem createDone_consistent (hs : step s (.createDone id) = some s') : Consistent s' := by
  obtain ⟨ht, hs⟩ := of_guard hs
  obtain ⟨vm, hv, -, hs⟩ | rfl := resume_cases hs
  · cases hs
    exact h.advance _ none ht hv rfl rfl (.inl rfl) rfl (fun _ => rfl) (.inl rfl)
  · exact h.endTask id

theorem createHookFailed_consistent (hs : step s (.createHookFailed id) = some s') :
    Consistent s' := by
  obtain ⟨ht, hs⟩ := of_guard hs
  obtain ⟨vm, hv, -, hs⟩ | rfl := resume_cases hs
  · cases hs
    rcases ht with ht | ht
    · exact h.policy ht hv rfl _
    · exact h.policy ht hv rfl _
  · exact h.endTask id

theorem deleteVM_consistent (hs : step s (.deleteVM id) = some s') : Consistent s' := by
  obtain ⟨vm, hv, hs⟩ := Option.bind_eq_some_iff.mp hs
  obtain ⟨-, hs⟩ := of_guard hs
  cases hs
  exact (h.mark hv).elsewhere _ _ _

theorem deleted_consistent (hs : step s (.deleted id n) = some s') : Consistent s' := by
  obtain ⟨-, hs⟩ := of_guard hs
  dsimp only at hs
  split at hs
  next =>
    cases hs
    exact h.elsewhere _ _ _
  next vm hv =>
    have hgone : Consistent ({ s with
        deleteInFlight := Function.update s.deleteInFlight id false }.untrack id vm) :=
      (h.untrack hv).elsewhere _ _ _
    split at hs
    next =>
      cases hs
      exact hgone
    next ps hp =>
      obtain ⟨-, hs⟩ := of_guard hs
      cases hs
      exact hgone.provisionNLocked ps n

end Acts

/-- **One step keeps the records consistent.** -/
theorem consistent_step {a : Act} (h : Consistent s) (hfresh : fresh s a)
    (hs : step s a = some s') : Consistent s' := by
  cases a with
  | pass d =>
    cases hs
    exact h.elsewhere _ _ _
  | createPool => exact createPool_consistent h hs
  | updatePool => exact updatePool_consistent h hs
  | deletePool key force =>
    obtain ⟨-, hs⟩ := of_guard hs
    cases hs
    exact h.deletePool key
  | claim => exact claim_consistent h hs
  | preLeaseDone => exact preLeaseDone_consistent h hs
  | preLeaseFailed => exact preLeaseFailed_consistent h hs
  | heartbeat => exact heartbeat_consistent h hs
  | release => exact release_consistent h hs
  | expire => exact expire_consistent h hs
  | retry id =>
    obtain ⟨vm, -, hs⟩ := Option.bind_eq_some_iff.mp hs
    obtain ⟨-, hs⟩ := of_guard hs
    cases hs
    exact h.elsewhere _ _ _
  | topUp key n =>
    obtain ⟨ps, -, hs⟩ := Option.bind_eq_some_iff.mp hs
    obtain ⟨-, hs⟩ := of_guard hs
    cases hs
    exact h.provisionNLocked ps n
  | provision => exact provision_consistent h hs
  | createFailed => exact createFailed_consistent h hs
  | created => exact created_consistent h hfresh hs
  | booted => exact booted_consistent h hs
  | createDone => exact createDone_consistent h hs
  | createHookFailed => exact createHookFailed_consistent h hs
  | deleteVM => exact deleteVM_consistent h hs
  | deleted => exact deleted_consistent h hs
  | deleteFailed id =>
    obtain ⟨-, hs⟩ := of_guard hs
    cases hs
    exact h.elsewhere _ _ _

theorem consistent_start : Consistent start := by
  constructor <;> simp [start]

/-- **The Leases of every run are consistent.** A Lease that is held names a tracked MicroVM that
    records it, LEASED or DELETING, of a Pool that exists; no two name one MicroVM or carry one
    request id; and a MicroVM that got a Lease is not AVAILABLE again and gets no second one. -/
theorem leases_consistent (h : Steps.Run step fresh start s) :
    (∀ l rec, s.leases l = some rec → (s.pools rec.pool).isSome ∧ ∃ id vm,
      s.vmByUID rec.vmUID = some id ∧ s.vms id = some vm ∧ vm.uid = rec.vmUID ∧
      vm.pool = rec.pool ∧ vm.leaseID = some l ∧ (vm.phase = .leased ∨ vm.phase = .deleting) ∧
      id ∈ s.granted) ∧
    (∀ l l' rec rec', s.leases l = some rec → s.leases l' = some rec' →
      rec.vmUID = rec'.vmUID ∨ rec.requestID = rec'.requestID ∧ rec.requestID ≠ "" → l = l') ∧
    (∀ id ∈ s.granted, ∀ vm, s.vms id = some vm → vm.phase ≠ .available) ∧
    s.granted.Nodup := by
  have hc : Consistent s := h.keeps consistent_start fun _ _ _ => consistent_step
  refine ⟨fun l rec hl => ?_, fun l l' rec rec' hl hl' heq => ?_, fun id hid vm hv => ?_, hc.once⟩
  · obtain ⟨-, hp, id, vm, hi, hv, hlease, hpool⟩ := hc.held l rec hl
    obtain ⟨-, -, vm', hv', huid⟩ := hc.byUID rec.vmUID id hi
    obtain rfl : vm = vm' := Option.some.inj (hv.symm.trans hv')
    have hg := ((hc.vm id vm hv).recorded l hlease).1
    exact ⟨hp, id, vm, hi, hv, huid, hpool, hlease, (hc.vm id vm hv).granted hg, hg⟩
  · obtain heq | ⟨heq, hne⟩ := heq
    · -- both Leases name the MicroVM that the index has under the uid
      obtain ⟨-, -, id, vm, hi, hv, hlease, -⟩ := hc.held l rec hl
      obtain ⟨-, -, id', vm', hi', hv', hlease', -⟩ := hc.held l' rec' hl'
      rw [heq, hi'] at hi
      cases hi
      rw [hv] at hv'
      cases hv'
      exact Option.some.inj (hlease.symm.trans hlease')
    · exact hc.request l l' rec rec' hl hl' heq hne
  · obtain hph | hph := (hc.vm id vm hv).granted hid
    all_goals simp [hph]

/-- A MicroVM of a Pool of one is provisioned and claimed. -/
def claimed : List Act :=
  [.createPool ⟨"p", "n"⟩ ⟨1, .immediateOnLease, .deleteAndReplace, 60⟩, .topUp ⟨"p", "n"⟩ 1,
    .provision 1, .created 1 "u", .booted 1, .createDone 1, .claim ⟨"p", "n"⟩ "r" 1,
    .preLeaseDone 1 1]

theorem leases_consistent_claimed : ∃ s, Steps.Run step fresh start s ∧ (s.leases 0).isSome ∧
    s.granted = [1] ∧ s.granted.Nodup := by
  obtain ⟨s, hrun, hs⟩ := Steps.exists_run step fresh start claimed
    (fun s => (s.leases 0).isSome && s.granted = [1]) (by decide)
  simp only [Bool.and_eq_true, decide_eq_true_eq] at hs
  exact ⟨s, hrun, hs.1, hs.2, (leases_consistent hrun).2.2.2⟩

end BatteryOperator.FakeBattery
