/-
  Subject:   RELY/GUARANTEE REASONING FOR THE INTERLEAVING MACHINE. Nothing here names a
             particular program.

  A `Spec` fixes an invariant of the shared state, what a thread owes before each of its
  operations (`Pre`), what the others may do to a thread between two of its operations (`Rely`),
  and what holds of a thread's own part of the state while it does not run (`Idle`). `wp` is the
  weakest precondition of the rest of one thread's program: at every later state the rely admits,
  the next operation's `Pre` is met, and the rest is safe again after it.

  * `wp_ret`, `wp_op`, `wp_call`, `wp_last`, `wp_bind`, `wp_seq`, `wp_foldlM`, `wp_foldlM_rest`,
    `wp_only`, `wp_within`, `wp_mono` -- the rules a proof about a program uses;
  * `Sound` -- the obligations of a specification that do not mention any program point: the
    invariant is kept by the environment, by an operation under its `Pre` and by a crash, and each
    of these meets the other threads' rely;
  * `Sound.reach` -- **in every world reached, the invariant holds and every running program is
    safe**; hence every operation executed meets its `Pre` (`Sound.step_cases`), and an invariant
    needs to be checked against one operation at a time (`Sound.invariant`).
-/
import BatteryOperator.Lib.Program

namespace BatteryOperator.Lib

/-- An invariant, the duty before each operation, the others' interference, and the state of a
    thread at rest. -/
structure Spec (T Op σ : Type) where
  Inv : σ → Prop
  Pre : T → Op → σ → Prop
  Rely : T → σ → σ → Prop
  Idle : T → σ → Prop

namespace Machine

variable {T F A Op : Type} {Ans : Op → Type} {σ : Type}

/-! ## 1. The weakest precondition of a thread's program -/

section Wp

variable (M : Machine T F A Op Ans σ) (S : Spec T Op σ) (t : T)

/-- The weakest precondition of a program of thread `t`. It is closed under the rely at every
    operation and at the end, so that what a proof knows between two operations is what the other
    threads leave of it. -/
def wp {α : Type} : Prog Op Ans α → (α → σ → Prop) → σ → Prop
  | .ret a, Q, s => ∀ s', S.Rely t s s' → S.Inv s' → Q a s'
  | .op o k, Q, s => ∀ s', S.Rely t s s' → S.Inv s' → S.Pre t o s' ∧
      ∀ f r s'', M.exec t f o s' = some (r, s'') → S.Inv s'' → wp (k r) Q s''

/-- A fact the other threads cannot take away. -/
def Stable (S : Spec T Op σ) (t : T) (P : σ → Prop) : Prop :=
  ∀ s s', P s → S.Rely t s s' → S.Inv s' → P s'

variable {M S t} {α β : Type}

variable {P : σ → Prop} {Q : α → σ → Prop} {s : σ} {o : Op}

theorem Stable.and {Q : σ → Prop} (hP : Stable S t P) (hQ : Stable S t Q) :
    Stable S t (fun s => P s ∧ Q s) :=
  fun s s' h hR hI => ⟨hP s s' h.1 hR hI, hQ s s' h.2 hR hI⟩

theorem wp_mono {Q' : α → σ → Prop} (hQ : ∀ a s, S.Inv s → Q a s → Q' a s) (p : Prog Op Ans α)
    (h : wp M S t p Q s) : wp M S t p Q' s := by
  induction p generalizing s with
  | ret a => exact fun s' hR hI => hQ a s' hI (h s' hR hI)
  | op o k ih =>
    intro s' hR hI
    obtain ⟨hpre, hk⟩ := h s' hR hI
    exact ⟨hpre, fun f r s'' hx hI' => ih r (hk f r s'' hx hI')⟩

/-- The precondition survives interference. -/
theorem wp_rely (htr : ∀ a b c, S.Rely t a b → S.Rely t b c → S.Rely t a c) (p : Prog Op Ans α)
    {s' : σ} (h : wp M S t p Q s) (hR : S.Rely t s s') : wp M S t p Q s' := by
  cases p with
  | ret | op => exact fun s'' hR' hI => h s'' (htr s s' s'' hR hR') hI

/-- What holds at every later state the rely admits holds now. -/
theorem wp_of_later (hrf : ∀ a, S.Rely t a a) (p : Prog Op Ans α)
    (h : ∀ s', S.Rely t s s' → S.Inv s' → wp M S t p Q s') : wp M S t p Q s := by
  cases p with
  | ret | op => exact fun s' hR hI => h s' hR hI s' (hrf s') hI

/-- **Sequencing.** -/
theorem wp_bind (hrf : ∀ a, S.Rely t a a) {Q : β → σ → Prop} (p : Prog Op Ans α)
    (f : α → Prog Op Ans β) (h : wp M S t p (fun a s' => wp M S t (f a) Q s') s) :
    wp M S t (p >>= f) Q s := by
  rw [Prog.bind_eq]
  induction p generalizing s with
  | ret a => exact wp_of_later hrf (f a) h
  | op o k ih =>
    intro s' hR hI
    obtain ⟨hpre, hk⟩ := h s' hR hI
    exact ⟨hpre, fun c r s'' hx hI' => ih r (hk c r s'' hx hI')⟩

theorem wp_seq (hrf : ∀ a, S.Rely t a a) {R : α → σ → Prop} {Q : β → σ → Prop}
    {p : Prog Op Ans α} {f : α → Prog Op Ans β} (h : wp M S t p R s)
    (hf : ∀ a s', S.Inv s' → R a s' → wp M S t (f a) Q s') : wp M S t (p >>= f) Q s :=
  wp_bind hrf p f (wp_mono hf p h)

/-- **A loop over a list**, with what is still to do: each round leaves what is known before the
    next. -/
theorem wp_foldlM_rest (hrf : ∀ a, S.Rely t a a) {γ : Type} {I : List γ → β → σ → Prop}
    (hI : ∀ b, Stable S t (I [] b)) {f : β → γ → Prog Op Ans β} (l : List γ)
    (hf : ∀ c rest b s, I (c :: rest) b s → wp M S t (f b c) (I rest) s) {b : β} (h : I l b s) :
    wp M S t (l.foldlM f b) (I []) s := by
  induction l generalizing b s with
  | nil =>
    rw [List.foldlM_nil]
    exact fun s' hR hI' => hI b s s' h hR hI'
  | cons c l ih =>
    rw [List.foldlM_cons]
    exact wp_seq hrf (hf c l b s h) fun b' s' _ hb => ih hb

/-- **A loop over a list**: what each round keeps, the loop keeps. -/
theorem wp_foldlM (hrf : ∀ a, S.Rely t a a) {γ : Type} {I : β → σ → Prop}
    (hI : ∀ b, Stable S t (I b)) {f : β → γ → Prog Op Ans β} (l : List γ)
    (hf : ∀ c ∈ l, ∀ b s, I b s → wp M S t (f b c) I s) {b : β} (h : I b s) :
    wp M S t (l.foldlM f b) I s := by
  have hround : ∀ c rest b s, ((∀ d ∈ c :: rest, d ∈ l) ∧ I b s) →
      wp M S t (f b c) (fun b s => (∀ d ∈ rest, d ∈ l) ∧ I b s) s := by
    intro c rest b s hb
    refine wp_mono (fun _ _ _ hb' => ⟨fun d hd => hb.1 d (List.mem_cons_of_mem c hd), hb'⟩) _ ?_
    exact hf c (hb.1 c List.mem_cons_self) b s hb.2
  refine wp_mono (fun _ _ _ hb => hb.2) _ (wp_foldlM_rest hrf
    (I := fun rest b s => (∀ d ∈ rest, d ∈ l) ∧ I b s) ?_ l hround ⟨fun _ hc => hc, h⟩)
  exact fun b s s' hb hR hI' => ⟨hb.1, hI b s s' hb.2 hR hI'⟩

section Only

variable {O : Op → Prop} {J : σ → Prop} (hJ : Stable S t J)
  (hpre : ∀ o s, O o → S.Inv s → J s → S.Pre t o s)
  (hstep : ∀ f o s r s', O o → S.Inv s → J s → M.exec t f o s = some (r, s') → J s')
include hJ hpre hstep

/-- **A program of operations that leave a fact alone** leaves it. -/
theorem wp_within {V : α → Prop} (p : Prog Op Ans α) (hp : p.Within O V) (h : J s) :
    wp M S t p (fun a s' => V a ∧ J s') s := by
  induction p generalizing s with
  | ret a => exact fun s' hR hI => ⟨hp, hJ s s' h hR hI⟩
  | op o k ih =>
    intro s' hR hI
    have hJ' : J s' := hJ s s' h hR hI
    refine ⟨hpre o s' hp.1 hI hJ', fun f r s'' hx _ => ?_⟩
    exact ih r (hp.2 r) (hstep f o s' r s'' hp.1 hI hJ' hx)

theorem wp_only (p : Prog Op Ans α) (hp : p.Only O) (h : J s) : wp M S t p (fun _ => J) s :=
  wp_mono (fun _ _ _ h => h.2) p (wp_within hJ hpre hstep p hp h)

end Only

/-- **A program with an account of its answers**: what is known goes with the account. -/
theorem wp_walks {G : Type} {Calls : G → Op → Prop} {heard : G → (o : Op) → Ans o → G}
    {K : G → σ → Prop} (hK : ∀ g, Stable S t (K g))
    (hpre : ∀ g o s, Calls g o → S.Inv s → K g s → S.Pre t o s)
    (hstep : ∀ g f o s r s', Calls g o → S.Inv s → K g s → M.exec t f o s = some (r, s') →
      K (heard g o r) s') {R : α → G → Prop} (p : Prog Op Ans α) {g : G}
    (hp : p.Walks Calls heard R g) (h : K g s) :
    wp M S t p (fun a s' => ∃ g, R a g ∧ K g s') s := by
  induction p generalizing g s with
  | ret a => exact fun s' hR hI => ⟨g, hp, hK g s s' h hR hI⟩
  | op o k ih =>
    intro s' hR hI
    have h' : K g s' := hK g s s' h hR hI
    refine ⟨hpre g o s' hp.1 hI h', fun f r s'' hx _ => ?_⟩
    exact ih r (hp.2 r) (hstep g f o s' r s'' hp.1 hI h' hx)

/-- **Return**, from a stable fact. -/
theorem wp_ret (hP : Stable S t P) {a : α} (h : P s) (hQ : ∀ s', S.Inv s' → P s' → Q a s') :
    wp M S t (.ret a) Q s :=
  fun s' hR hI => hQ s' hI (hP s s' h hR hI)

/-- **One operation**, from a stable fact. -/
theorem wp_op (hP : Stable S t P) {k : Ans o → Prog Op Ans α} (h : P s)
    (hpre : ∀ s', S.Inv s' → P s' → S.Pre t o s')
    (hk : ∀ s' f r s'', S.Inv s' → P s' → M.exec t f o s' = some (r, s'') → S.Inv s'' →
      wp M S t (k r) Q s'') : wp M S t (.op o k) Q s :=
  fun s' hR hI => ⟨hpre s' hI (hP s s' h hR hI),
    fun f r s'' hx hI' => hk s' f r s'' hI (hP s s' h hR hI) hx hI'⟩

/-- **One operation and what follows it**, from a stable fact. -/
theorem wp_call (hP : Stable S t P) {k : Ans o → Prog Op Ans α} (h : P s)
    (hpre : ∀ s', S.Inv s' → P s' → S.Pre t o s')
    (hk : ∀ s' f r s'', S.Inv s' → P s' → M.exec t f o s' = some (r, s'') → S.Inv s'' →
      wp M S t (k r) Q s'') : wp M S t (Prog.call o >>= k) Q s :=
  wp_op hP h hpre hk

/-- **The last operation**, where nothing is owed after it. -/
theorem wp_last (hP : Stable S t P) (h : P s) (hpre : ∀ s', S.Inv s' → P s' → S.Pre t o s') :
    wp M S t (Prog.call o) (fun _ _ => True) s :=
  wp_op hP h hpre fun _ _ _ _ _ _ _ _ _ _ _ => trivial

end Wp

/-! ## 2. Soundness -/

variable [DecidableEq T]

/-- **The obligations of a specification.** `spawn` is the proof of the programs; the rest never
    looks at one. -/
structure Sound (M : Machine T F A Op Ans σ) (S : Spec T Op σ) : Prop where
  refl : ∀ t s, S.Rely t s s
  trans : ∀ t a b c, S.Rely t a b → S.Rely t b c → S.Rely t a c
  idle : ∀ t, Stable S t (S.Idle t)
  env_inv : ∀ a s s', S.Inv s → M.env a s = some s' → S.Inv s'
  env_rely : ∀ t a s s', S.Inv s → M.env a s = some s' → S.Rely t s s'
  exec_inv : ∀ t f o s r s', S.Inv s → S.Pre t o s → M.exec t f o s = some (r, s') → S.Inv s'
  exec_rely : ∀ t u f o s r s', u ≠ t → S.Inv s → S.Pre u o s → M.exec u f o s = some (r, s') →
    S.Rely t s s'
  crash_inv : ∀ s, S.Inv s → S.Inv (M.crash s)
  crash_idle : ∀ t s, S.Inv s → S.Idle t (M.crash s)
  spawn : ∀ t s, S.Inv s → S.Idle t s → wp M S t (M.prog t) (fun _ => S.Idle t) s

/-- The invariant holds, every running program is safe, and every other thread is at rest. -/
structure Safe (M : Machine T F A Op Ans σ) (S : Spec T Op σ) (w : World T Op Ans σ) : Prop where
  inv : S.Inv w.shared
  safe : ∀ t p, w.running t = some p → wp M S t p (fun _ => S.Idle t) w.shared
  rest : ∀ t, w.running t = none → S.Idle t w.shared

namespace Sound

variable {M : Machine T F A Op Ans σ} {S : Spec T Op σ}
  {ok : World T Op Ans σ → Act T F A → Prop} {w0 w : World T Op Ans σ}

/-- **One step keeps a safe world safe.** -/
theorem step (hS : Sound M S) {a : Act T F A} {w' : World T Op Ans σ} (hw : Safe M S w)
    (hs : M.step w a = some w') : Safe M S w' := by
  cases a with
  | env a =>
    obtain ⟨s, hx, rfl⟩ := step_env hs
    have hI : S.Inv s := hS.env_inv a _ _ hw.inv hx
    refine ⟨hI, fun t p hp => ?_, fun t ht => ?_⟩
    · exact wp_rely (hS.trans t) p (hw.safe t p hp) (hS.env_rely t a _ _ hw.inv hx)
    · exact hS.idle t _ _ (hw.rest t ht) (hS.env_rely t a _ _ hw.inv hx) hI
  | spawn t =>
    obtain ⟨hn, rfl⟩ := step_spawn hs
    refine ⟨hw.inv, fun u p hp => ?_, fun u hu => ?_⟩
    · rcases update_cases hp with ⟨rfl, hq⟩ | ⟨_, hq⟩
      · cases hq
        exact hS.spawn u _ hw.inv (hw.rest u hn)
      · exact hw.safe u p hq
    · rcases update_cases hu with ⟨_, hq⟩ | ⟨_, hq⟩
      · cases hq
      · exact hw.rest u hq
  | exec t f =>
    rcases step_exec hs with ⟨o, k, r, s, hr, hx, rfl⟩ | ⟨hr, rfl⟩
    · obtain ⟨hpre, hk⟩ := hw.safe t _ hr _ (hS.refl t _) hw.inv
      have hI : S.Inv s := hS.exec_inv t f o _ r s hw.inv hpre hx
      have hrely : ∀ u, u ≠ t → S.Rely u w.shared s := fun u hu =>
        hS.exec_rely u t f o _ r s (Ne.symm hu) hw.inv hpre hx
      refine ⟨hI, fun u p hp => ?_, fun u hn => ?_⟩
      · rcases update_cases hp with ⟨rfl, hq⟩ | ⟨hu, hq⟩
        · cases hq
          exact hk f r s hx hI
        · exact wp_rely (hS.trans u) p (hw.safe u p hq) (hrely u hu)
      · rcases update_cases hn with ⟨_, hq⟩ | ⟨hu, hq⟩
        · cases hq
        · exact hS.idle u _ _ (hw.rest u hq) (hrely u hu) hI
    · refine ⟨hw.inv, fun u p hp => ?_, fun u hn => ?_⟩
      · rcases update_cases hp with ⟨_, hq⟩ | ⟨_, hq⟩
        · cases hq
        · exact hw.safe u p hq
      · rcases update_cases hn with ⟨rfl, _⟩ | ⟨_, hq⟩
        · exact hw.safe u _ hr _ (hS.refl u _) hw.inv
        · exact hw.rest u hq
  | crash =>
    rw [step_crash hs]
    refine ⟨hS.crash_inv _ hw.inv, fun t p hp => ?_, fun t _ => hS.crash_idle t _ hw.inv⟩
    cases hp

/-- **Every world reached is safe.** -/
theorem reach (hS : Sound M S) (h0 : Safe M S w0) (h : M.Run ok w0 w) : Safe M S w := by
  induction h with
  | start => exact h0
  | step w w' a _ _ hs ih => exact hS.step ih hs

/-- **What a step of a safe world did to the shared state**: nothing, an environment action, one
    operation under its `Pre`, or a crash. -/
theorem step_cases (hS : Sound M S) (hw : Safe M S w) {a : Act T F A} {w' : World T Op Ans σ}
    (hs : M.step w a = some w') :
    (∃ e, a = .env e ∧ M.env e w.shared = some w'.shared) ∨
      (∃ t f o k r, a = .exec t f ∧ w.running t = some (.op o k) ∧ S.Pre t o w.shared ∧
        M.exec t f o w.shared = some (r, w'.shared)) ∨
      w'.shared = w.shared ∨
      (a = .crash ∧ w'.shared = M.crash w.shared) := by
  cases a with
  | env a =>
    obtain ⟨s, hx, rfl⟩ := step_env hs
    exact .inl ⟨a, rfl, hx⟩
  | spawn t =>
    obtain ⟨_, rfl⟩ := step_spawn hs
    exact .inr (.inr (.inl rfl))
  | exec t f =>
    rcases step_exec hs with ⟨o, k, r, s, hr, hx, rfl⟩ | ⟨_, rfl⟩
    · have hpre := (hw.safe t _ hr _ (hS.refl t _) hw.inv).1
      exact .inr (.inl ⟨t, f, o, k, r, rfl, hr, hpre, hx⟩)
    · exact .inr (.inr (.inl rfl))
  | crash =>
    rw [step_crash hs]
    exact .inr (.inr (.inr ⟨rfl, rfl⟩))

/-- **The invariant rule over a sound specification**: a further property of the shared state that
    each environment action, each operation under its `Pre` and each crash keeps, in the steps
    `ok` admits, holds in every world reached by such steps. -/
theorem invariant (hS : Sound M S) (h0 : Safe M S w0) {C : σ → Prop} (hC0 : C w0.shared)
    (henv : ∀ w e s', ok w (.env e) → S.Inv w.shared → C w.shared →
      M.env e w.shared = some s' → S.Inv s' → C s')
    (hexec : ∀ w t f o k r s', ok w (.exec t f) → w.running t = some (.op o k) →
      S.Inv w.shared → S.Pre t o w.shared → C w.shared →
      M.exec t f o w.shared = some (r, s') → S.Inv s' → C s')
    (hcrash : ∀ s, S.Inv s → C s → C (M.crash s))
    (h : M.Run ok w0 w) : C w.shared := by
  induction h with
  | start => exact hC0
  | step w w' a hr hok hs ih =>
    have hw : Safe M S w := hS.reach h0 hr
    have hI' : S.Inv w'.shared := (hS.step hw hs).inv
    rcases hS.step_cases hw hs with ⟨e, rfl, hx⟩ | ⟨t, f, o, k, r, rfl, hrun, hpre, hx⟩ | he |
      ⟨rfl, he⟩
    · exact henv w e _ hok hw.inv ih hx hI'
    · exact hexec w t f o k r _ hok hrun hw.inv hpre ih hx hI'
    · rw [he]
      exact ih
    · rw [he]
      exact hcrash _ hw.inv ih

end Sound

end Machine

end BatteryOperator.Lib
