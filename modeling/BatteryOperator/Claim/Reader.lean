/-
  Subject:   The Claim Controller's writes against the copy they were computed from, in any
             surroundings.

  The machine of `Claim/System.lean` with any environment at all in the place of the world around
  the Operator, as long as it gives every version of a claim a resourceVersion of its own
  (`Numbers`), and with one more thing to look at: the claim each reconcile read (`Reader.read`).

  * `reader_sound` -- **in every world reached, a metadata patch is computed from the copy that was
    read**, changes no finalizer but the controller's own, and a status patch is of the claim object
    that was read;
  * `exec_finalizers` -- **what a write leaves of the stored finalizers** (`Spared`).
-/
import BatteryOperator.Claim.Footprint
import BatteryOperator.Claim.Versions

namespace BatteryOperator.Writes

open Lib Machine

/-! ## 1. The machine -/

/-- The shared state, and the claim the last reconcile of each key read. -/
structure Reader where
  shared : Shared
  read : ObjectKey → Option MicroVMClaim

/-- A reconcile reads its claim from the cache. -/
def noteRead : Thread → (o : Op) → o.Ans → (ObjectKey → Option MicroVMClaim) →
    ObjectKey → Option MicroVMClaim
  | .claim key, .cacheGet _, .ok c, read => Function.update read key (some c)
  | _, _, _, read => read

/-- **The machine**, in the surroundings `env`. -/
def reader (r : MicroVMClaimReconciler) {A : Type} (env : A → Shared → Option Shared) :
    Machine Thread Choice A Op Op.Ans Reader where
  exec t f o s := (exec t f o s.shared).map fun x => (x.1, ⟨x.2, noteRead t o x.1 s.read⟩)
  env a s := (env a s.shared).map fun s' => { s with shared := s' }
  prog := (machine r).prog
  crash s := { s with shared := crash s.shared }

abbrev ReaderWorld := World Thread Op Op.Ans Reader

/-! ## 2. Versions and their numbers -/

/-- What any change of the API server's state does to the versions of a claim: there is at most one
    more, under a resourceVersion that was not given out before. -/
structure Numbers (s s' : Shared) : Prop where
  revision : s.revision ≤ s'.revision
  versions : ∀ k, (s'.claims k).versions = (s.claims k).versions ∨
    ∃ c, (s'.claims k).versions = c :: (s.claims k).versions ∧ ∀ v, c = some v →
      v.key = k ∧ s.revision < v.resourceVersion ∧ v.resourceVersion ≤ s'.revision

/-- Every version has a number of its own. -/
structure Numbered (s : Shared) : Prop where
  order : ∀ k, (s.claims k).versions.Pairwise fun a b =>
    ∀ new old, a = some new → b = some old → old.resourceVersion < new.resourceVersion
  revision : ∀ k v, Version s.claims k v → v.resourceVersion ≤ s.revision
  key : ∀ k v, Version s.claims k v → v.key = k

variable {s s' : Shared} {k : ObjectKey}

theorem Numbers.of_claims (hc : s'.claims = s.claims) (hr : s'.revision = s.revision) :
    Numbers s s' :=
  ⟨Nat.le_of_eq hr.symm, fun k => .inl (by rw [hc])⟩

theorem Numbers.store {k : ObjectKey} {c : Option MicroVMClaim}
    (hc : ∀ v, c = some v → v.key = k ∧ v.resourceVersion = s.revision + 1) :
    Numbers s (s.store k c) := by
  refine ⟨Nat.le_succ _, fun k' => ?_⟩
  rcases versions_store (k := k') s k c with ⟨_, heq⟩ | ⟨rfl, heq⟩
  · exact .inl heq
  · refine .inr ⟨c, heq, fun v hv => ?_⟩
    obtain ⟨hkey, hrv⟩ := hc v hv
    rw [hrv]
    exact ⟨hkey, Nat.lt_succ_self _, Nat.le_refl _⟩

theorem Numbers.version (h : Numbers s s') {v : MicroVMClaim} (hv : Version s.claims k v) :
    Version s'.claims k v := by
  rcases h.versions k with heq | ⟨c, heq, _⟩
  · exact (version_of_versions heq).mpr hv
  · exact (version_of_cons heq).mpr (.inr hv)

/-- **A change keeps the numbering.** -/
theorem Numbered.change (hN : Numbered s) (h : Numbers s s') : Numbered s' := by
  have cases' : ∀ k v, Version s'.claims k v → Version s.claims k v ∨
      (v.key = k ∧ v.resourceVersion ≤ s'.revision) := by
    intro k v hv
    rcases h.versions k with heq | ⟨c, heq, hc⟩
    · exact .inl ((version_of_versions heq).mp hv)
    · rcases (version_of_cons heq).mp hv with hcv | hv
      · obtain ⟨hkey, _, hle⟩ := hc v hcv
        exact .inr ⟨hkey, hle⟩
      · exact .inl hv
  refine ⟨fun k => ?_, fun k v hv => ?_, fun k v hv => ?_⟩
  · rcases h.versions k with heq | ⟨c, heq, hc⟩
    · rw [heq]
      exact hN.order k
    · rw [heq, List.pairwise_cons]
      refine ⟨fun b hb new old hnew hold => ?_, hN.order k⟩
      subst hold
      have hle := hN.revision k old hb
      have hlt := (hc new hnew).2.1
      omega
  · rcases cases' k v hv with hv | ⟨_, hle⟩
    · exact Nat.le_trans (hN.revision k v hv) h.revision
    · exact hle
  · rcases cases' k v hv with hv | ⟨hkey, _⟩
    · exact hN.key k v hv
    · exact hkey

variable {st : MicroVMClaim} {t : Thread} {f : Choice} {o : Op}

/-- **The lock**: a version with the stored claim's resourceVersion is the stored claim. -/
theorem Numbered.eq_of_version (hN : Numbered s) {v : MicroVMClaim} (hst : s.stored k = some st)
    (hv : Version s.claims k v) (hrv : st.resourceVersion = v.resourceVersion) : st = v := by
  have hp := hN.order k
  rcases List.mem_cons.mp hv with heq | hmem
  · exact Option.some.inj (hst.symm.trans heq.symm)
  · have hlt := (List.pairwise_cons.mp hp).1 _ hmem st v hst rfl
    omega

theorem stored_key (hN : Numbered s) (hst : s.stored k = some st) : st.key = k :=
  hN.key k st (StoreInv.current_version hst)

/-- **An operation keeps the numbering.** -/
theorem exec_numbers {r : o.Ans} (hN : Numbered s) (hx : exec t f o s = some (r, s')) :
    Numbers s s' := by
  have stored : ∀ {key : ObjectKey} {c : Option MicroVMClaim},
      s'.claims = (s.store key c).claims → s'.revision = s.revision + 1 →
      (∀ v, c = some v → v.key = key ∧ v.resourceVersion = s.revision + 1) → Numbers s s' := by
    intro key c hcl hrev hc
    have h := Numbers.store hc
    refine ⟨by omega, fun k => ?_⟩
    rw [hcl, hrev]
    exact h.versions k
  cases exec_wrote hx with
  | nothing _ hcl hrev => exact .of_claims hcl hrev
  | metadata original object st c hst _ hc hcl hrev =>
    have hkey : st.key = original.key := stored_key hN hst
    refine stored hcl hrev fun v hv => ?_
    rcases hc with rfl | ⟨rfl, _⟩
    · cases hv
      exact ⟨hkey, rfl⟩
    · cases hv
  | status base object st hst hcl hrev =>
    have hkey : st.key = base.key := stored_key hN hst
    refine stored hcl hrev fun v hv => ?_
    cases hv
    exact ⟨hkey, rfl⟩

/-- **The world around the Operator keeps the numbering.** -/
theorem env_numbers {a : EnvAct} (hN : Numbered s) (ha : env a s = some s') : Numbers s s' := by
  have wrote : ∀ {s1 : Shared} {uid : String} {x : Option MicroTime}, Numbers s s1 →
      Numbers s (s1.noteWrote uid x) := by
    intro s1 uid x h
    cases x with
    | none => exact h
    | some t => exact ⟨h.revision, h.versions⟩
  cases env_cases ha with
  | created key uid fs spec =>
    have h1 : Numbers s (s.store key (some (s.newClaim key uid fs spec))) :=
      .store fun v hv => by
        cases hv
        exact ⟨rfl, rfl⟩
    exact wrote ⟨h1.revision, h1.versions⟩
  | renewed key r st hst =>
    have hkey : st.key = key := stored_key hN hst
    refine wrote (.store fun v hv => ?_)
    cases hv
    exact ⟨hkey, rfl⟩
  | touched _ key st v hst same =>
    refine .store fun v' hv => ?_
    cases hv
    exact ⟨same.key.trans (stored_key hN hst), same.resourceVersion⟩
  | vanished _ key st => exact .store fun v hv => by cases hv
  | synced key n => exact ⟨Nat.le_refl _, fun k => .inl (syncClaim_spec n).1⟩
  | acted | delivered => exact .of_claims rfl rfl
  | elsewhere _ _ h => exact .of_claims h.claims h.revision

/-! ## 3. The specification -/

/-- **What a reconcile owes before a patch**: it is computed from the claim that was read. -/
def Pre : Thread → Op → Reader → Prop
  | .claim k, .patchMeta original object, s =>
    s.read k = some original ∧ Version s.shared.claims k original ∧
      OwnChange releaseFinalizer original.finalizers object.finalizers
  | .claim k, .patchStatus base _, s =>
    base.key = k ∧ ∃ c, s.read k = some c ∧ base.uid = c.uid
  | .recovery, .patchMeta _ _, _ => False
  | .recovery, .patchStatus _ _, _ => False
  | _, _, _ => True

/-- What the others leave: the versions, and what was read. -/
structure Rely (t : Thread) (s s' : Reader) : Prop where
  versions : ∀ k v, Version s.shared.claims k v → Version s'.shared.claims k v
  read : ∀ k, t = .claim k → s'.read k = s.read k

/-- **The specification.** -/
def spec : Spec Thread Op Reader where
  Inv s := Numbered s.shared
  Pre := Pre
  Rely := Rely
  Idle _ _ := True

theorem pre_inner {s : Reader} (ho : Inner o) : Pre t o s := by
  cases o with
  | cacheGet | patchMeta | patchStatus => exact ho.elim
  | _ => cases t <;> trivial

theorem noteRead_of_ne {a : o.Ans} {read : ObjectKey → Option MicroVMClaim}
    (h : ∀ key, o ≠ .cacheGet key) : noteRead t o a read = read := by
  cases o with
  | cacheGet key => exact absurd rfl (h key)
  | _ => cases t <;> rfl

/-- Another thread's reading leaves what this one read. -/
theorem noteRead_other {k : ObjectKey} {a : o.Ans} {read : ObjectKey → Option MicroVMClaim}
    (h : t ≠ .claim k) : noteRead t o a read k = read k := by
  by_cases ho : ∃ key, o = .cacheGet key
  · obtain ⟨key, rfl⟩ := ho
    cases t with
    | recovery => rfl
    | claim k' =>
      have hk : k ≠ k' := fun he => h (by rw [he])
      cases a with
      | error e => rfl
      | ok c => exact Function.update_of_ne hk _ _
  · rw [noteRead_of_ne fun key he => ho ⟨key, he⟩]

section Sound

variable {r : MicroVMClaimReconciler} {A : Type} {env : A → Shared → Option Shared}

/-- The claim that was read, and one of its versions. -/
def Has (k : ObjectKey) (c : MicroVMClaim) (s : Reader) : Prop :=
  s.read k = some c ∧ Version s.shared.claims k c

theorem stable_has (c : MicroVMClaim) : Stable spec (.claim k) (Has k c) :=
  fun _ _ h hR _ => ⟨(hR.read k rfl).trans h.1, hR.versions k c h.2⟩

variable {t : Thread} {f : Choice} {c : MicroVMClaim}

theorem reader_exec {o : Op} {a : o.Ans} {s s' : Reader}
    (hx : (reader r env).exec t f o s = some (a, s')) :
    exec t f o s.shared = some (a, s'.shared) ∧ s'.read = noteRead t o a s.read := by
  obtain ⟨⟨a', s1⟩, hx', heq⟩ := Option.map_eq_some_iff.mp hx
  cases heq
  exact ⟨hx', rfl⟩

theorem rely_refl (t : Thread) (s : Reader) : spec.Rely t s s :=
  ⟨fun _ _ hv => hv, fun _ _ => rfl⟩

/-- The steps of the chain keep what was read. -/
theorem has_inner {o : Op} {s s' : Reader} {a : o.Ans} (ho : Inner o) (hN : Numbered s.shared)
    (h : Has k c s) (hx : (reader r env).exec (.claim k) f o s = some (a, s')) : Has k c s' := by
  obtain ⟨hx', hread⟩ := reader_exec hx
  refine ⟨?_, (exec_numbers hN hx').version h.2⟩
  rw [hread, noteRead_of_ne fun key he => by rw [he] at ho; exact ho]
  exact h.1

/-- The status patch, of a claim object with the uid that was read. -/
theorem wp_patchStatus {base : MicroVMClaim} {desired : MicroVMClaimStatus} {s : Reader}
    (h : Has k c s) (hkey : base.key = k) (huid : base.uid = c.uid) :
    wp (reader r env) spec (.claim k) (Scope.patchStatus base desired)
      (fun _ _ => True) s := by
  unfold Scope.patchStatus
  split
  · exact fun _ _ _ => trivial
  · refine wp_call (stable_has c) h (fun s' _ hs' => ⟨hkey, c, hs'.1, huid⟩) ?_
    intro s' f a s'' _ _ _ _
    cases a with
    | ok | error => exact fun _ _ _ => trivial

/-- The answer to a metadata patch that worked is the claim object that was read. -/
theorem patchMeta_answer {original object answer : MicroVMClaim} (hN : Numbered s)
    (hv : Version s.claims k original)
    (hx : exec t f (.patchMeta original object) s = some (.ok answer, s')) :
    answer.key = k ∧ answer.uid = original.uid := by
  have hkey := hN.key k original hv
  have hans : (s.patchMeta original object).1 = .ok answer := by
    cases f with
    | ok =>
      have h : some (s.patchMeta original object) = some (.ok answer, s') := hx
      rw [Option.some.inj h]
    | fail applied text =>
      cases applied with
      | true | false => cases hx
    | serve | lost => cases hx
  rcases patchMeta_cases s original object with ⟨e, he⟩ | ⟨st, hst, hrv, ⟨_, hp⟩ | ⟨_, hp⟩⟩
  · rw [he] at hans
    cases hans
  all_goals
    rw [hp] at hans
    cases hans
    rw [hkey] at hst
    cases hN.eq_of_version hst hv hrv
    exact ⟨hkey, rfl⟩

/-- **The patch of what the chain left.** -/
theorem wp_patch {sc : Scope} {s : Reader} (hch : releasing.Changed (Scope.new c) sc)
    (hI : Numbered s.shared) (h : Has k c s) :
    wp (reader r env) spec (.claim k) sc.patch (fun _ _ => True) s := by
  have hkey : c.key = k := hI.key k c h.2
  unfold Scope.patch
  split
  next hsame =>
    rw [hsame, show sc.original = c from hch.original]
    exact wp_patchStatus h hkey rfl
  · unfold Scope.patchMeta
    have hpre : ∀ s', Numbered s'.shared → Has k c s' →
        Pre (.claim k) (.patchMeta sc.original sc.unpatched) s' := by
      intro s' _ hs'
      rw [show sc.original = c from hch.original]
      exact ⟨hs'.1, hs'.2, hch.finalizers⟩
    refine wp_call (stable_has c) h hpre ?_
    intro s1 f a s2 hI1 h1 hx hI2
    obtain ⟨hx', hread⟩ := reader_exec hx
    cases a with
    | error e =>
      dsimp only
      split
      · exact fun _ _ _ => trivial
      · exact fun _ _ _ => trivial
    | ok answer =>
      rw [show sc.original = c from hch.original] at hx'
      obtain ⟨hk, hu⟩ := patchMeta_answer hI1 h1.2 hx'
      have h2 : Has k c s2 := by
        refine ⟨?_, (exec_numbers hI1 hx').version h1.2⟩
        rw [hread]
        exact h1.1
      dsimp only
      split
      · exact fun _ _ _ => trivial
      · exact wp_patchStatus h2 hk hu

/-- A claim that was read is the cache's copy. -/
theorem cacheGet_copy (hx : exec t f (.cacheGet k) s = some (.ok c, s')) :
    (s.claims k).copy = some c := by
  have hv := execRead_ok hx
  split at hv
  next c' hc' =>
    cases hv
    exact hc'
  · cases hv

/-- **A reconcile meets its duties.** -/
theorem wp_reconcile (s : Reader) :
    wp (reader r env) spec (.claim k) (r.reconcile k) (fun _ _ => True) s := by
  have any : Stable spec (.claim k) fun _ => True := fun _ _ _ _ _ => trivial
  unfold MicroVMClaimReconciler.reconcile
  refine wp_call any trivial (fun _ _ _ => trivial) ?_
  intro s1 f a s2 hI1 _ hx hI2
  obtain ⟨hx', hread⟩ := reader_exec hx
  cases a with
  | error e => exact fun _ _ _ => trivial
  | ok c =>
    have hcopy := cacheGet_copy hx'
    have hver : Version s1.shared.claims k c := by
      unfold Version
      rw [← hcopy]
      exact (s1.shared.claims k).window_subset (s1.shared.claims k).copy_mem_window
    have h2 : Has k c s2 := by
      refine ⟨?_, (exec_numbers hI1 hx').version hver⟩
      rw [hread]
      exact Function.update_self ..
    refine wp_seq (rely_refl _) (wp_within (stable_has c) (fun o s ho _ _ => pre_inner ho)
      (fun f o s a s' ho hI hJ hx => has_inner ho hI hJ hx) _ (chain_within r c) h2)
      fun o s3 hI3 ho => ?_
    refine wp_seq (rely_refl _) (wp_patch ho.1 hI3 ho.2) fun perr s4 _ _ => ?_
    split
    · exact fun _ _ _ => trivial
    · exact fun _ _ _ => trivial

theorem recovery_only : claimRecovery.run.Only Inner := by
  refine ⟨trivial, fun r => ?_⟩
  cases r with
  | error e => trivial
  | ok claims =>
    refine ⟨trivial, fun _ => ⟨trivial, fun r => ?_⟩⟩
    cases r with
    | error e => trivial
    | ok leases => exact ⟨trivial, fun _ => trivial⟩

/-- **The specification is sound**, in any surroundings that number their versions. -/
theorem reader_sound (henv : ∀ a s s', Numbered s → env a s = some s' → Numbers s s') :
    Sound (reader r env) spec where
  refl := rely_refl
  trans t a b c h1 h2 :=
    ⟨fun k v hv => h2.versions k v (h1.versions k v hv),
      fun k hk => (h2.read k hk).trans (h1.read k hk)⟩
  idle _ _ _ _ _ _ := trivial
  env_inv a s s' hI hx := by
    obtain ⟨s1, hx', rfl⟩ := Option.map_eq_some_iff.mp hx
    exact hI.change (henv a _ _ hI hx')
  env_rely t a s s' hI hx := by
    obtain ⟨s1, hx', rfl⟩ := Option.map_eq_some_iff.mp hx
    exact ⟨fun k v hv => (henv a _ _ hI hx').version hv, fun _ _ => rfl⟩
  exec_inv t f o s a s' hI _ hx := hI.change (exec_numbers hI (reader_exec hx).1)
  exec_rely t u f o s a s' hne hI _ hx := by
    obtain ⟨hx', hread⟩ := reader_exec hx
    refine ⟨fun k v hv => (exec_numbers hI hx').version hv, fun k hk => ?_⟩
    rw [hread]
    exact noteRead_other (by rw [← hk]; exact hne)
  crash_inv s hI := hI.change (.of_claims rfl rfl)
  crash_idle _ _ _ := trivial
  spawn t s hI _ := by
    cases t with
    | claim k =>
      exact wp_seq (rely_refl _) (wp_reconcile s) fun _ _ _ _ _ _ _ => trivial
    | recovery =>
      have any : Stable spec .recovery fun _ => True := fun _ _ _ _ _ => trivial
      refine wp_only any (fun o s ho _ _ => pre_inner ho) (fun _ _ _ _ _ _ _ _ _ => trivial)
        _ ?_ trivial
      exact Prog.only_bind recovery_only fun _ => trivial

end Sound

/-! ## 4. The finalizers after a write -/

/-- The finalizers stored under a key. -/
def finalizersOf (s : Shared) (k : ObjectKey) : Option (List String) :=
  (s.stored k).map fun c => c.finalizers

theorem spared_of_versions (h : (s'.claims k).versions = (s.claims k).versions) :
    Spared (OwnChange releaseFinalizer) (finalizersOf s k) (finalizersOf s' k) := by
  unfold finalizersOf
  rw [current_of_versions h]
  exact Spared.refl (fun _ => .inl rfl) _

/-- A write under one key leaves the others. -/
theorem spared_store {k0 : ObjectKey} {c : Option MicroVMClaim} (hst : s.stored k0 = some st)
    (hc : Spared (OwnChange releaseFinalizer) (some st.finalizers) (c.map fun v => v.finalizers)) :
    Spared (OwnChange releaseFinalizer) (finalizersOf s k) (finalizersOf (s.store k0 c) k) := by
  rcases versions_store (k := k) s k0 c with ⟨_, heq⟩ | ⟨rfl, heq⟩
  · exact spared_of_versions heq
  · unfold finalizersOf
    rw [current_of_cons heq, hst]
    exact hc

/-- **A write leaves the finalizers of others.** -/
theorem exec_finalizers {a : o.Ans} {s s' : Reader} (hN : Numbered s.shared) (hpre : Pre t o s)
    (hx : exec t f o s.shared = some (a, s'.shared)) (k : ObjectKey) :
    Spared (OwnChange releaseFinalizer) (finalizersOf s.shared k) (finalizersOf s'.shared k) := by
  cases exec_wrote hx with
  | nothing _ hcl => exact spared_of_versions (by rw [hcl])
  | status base object st hst hcl =>
    unfold finalizersOf Shared.stored
    rw [hcl]
    exact spared_store hst (.inl rfl)
  | metadata original object st c hst hrv hc hcl =>
    cases t with
    | recovery => exact hpre.elim
    | claim key =>
      obtain ⟨_, hver, hown⟩ := hpre
      have hkey : original.key = key := hN.key key original hver
      -- the lock: what is stored is what was read
      have heq : st = original := by
        rw [hkey] at hst
        exact hN.eq_of_version hst hver hrv
      subst heq
      have hfs : (s.shared.patchedMeta st object st).finalizers = object.finalizers :=
        mergeField_base st.finalizers object.finalizers
      unfold finalizersOf Shared.stored
      rw [hcl]
      refine spared_store hst ?_
      rcases hc with rfl | ⟨rfl, hnil⟩
      · show OwnChange _ _ (s.shared.patchedMeta st object st).finalizers
        rw [hfs]
        exact hown
      · show OwnChange _ _ []
        rw [← hnil, hfs]
        exact hown

/-! ## 5. Schedules -/

/-- Nothing has happened yet. -/
def quiet : ReaderWorld := ⟨⟨quietWorld.shared, fun _ => none⟩, fun _ => none⟩

theorem quiet_numbered : Numbered quiet.shared.shared := by
  have none' : ∀ k v, ¬ Version quiet.shared.shared.claims k v := by
    intro k v hv
    cases List.mem_singleton.mp hv
  exact ⟨fun k => List.pairwise_singleton _ _, fun k v hv => absurd hv (none' k v),
    fun k v hv => absurd hv (none' k v)⟩

/-- A schedule that can be run reaches a world; what holds of it can be computed. -/
theorem exists_read (acts : List (Act Thread Choice EnvAct)) (P : ReaderWorld → Prop)
    [DecidablePred P] (h : ((reader {} env).replay (fun _ _ => True) quiet acts).any
      (fun w => decide (P w)) = true) :
    ∃ w, (reader {} env).Run (fun _ _ => True) quiet w ∧ P w :=
  exists_run _ acts P h

end BatteryOperator.Writes
