/-
  Subject:   PROGRAMS OVER OPERATIONS, AND THE MACHINE THAT INTERLEAVES THEM. Nothing here
             names a particular program.

  A sequential program that talks to shared services is a tree of operations (`Prog`): it stops
  with a value, or it asks for one operation and goes on with its answer. A `Machine` says what
  one operation does to the shared state, what the environment may do on its own, which program
  each thread runs, and what a crash of all threads leaves behind. A `World` is the shared state
  with the rest of every running program.

  * `Prog.Only`, `Prog.Within` -- the operations a program may ask for, and what it may end with;
    `Prog.Walks` -- the same with an account of the answers so far;
  * `Machine.step` -- one step: an environment action, a thread that starts, one operation of one
    thread, or a crash. Everything a step may choose is in the action, so a step is a function and
    a schedule can be run (`Machine.replay`);
  * `Machine.Run ok` -- the worlds reached by steps that `ok` admits; `run_of_replay` turns a
    schedule that was run into a `Run`, and `exists_run` one that can be run into a world;
  * `step_env`, `step_spawn`, `step_exec`, `step_crash` -- what a step of each kind did;
  * `Machine.restrict` -- the machine that takes only the steps which meet a condition on the
    shared state; the runs of such steps are its runs (`run_restrict`).
-/
import Mathlib.Logic.Function.Basic

namespace BatteryOperator.Lib

/-- A function after one of its values was set. -/
theorem update_cases {α β : Type} [DecidableEq α] {f : α → β} {a b : α} {v w : β}
    (h : Function.update f a v b = w) : (b = a ∧ v = w) ∨ (b ≠ a ∧ f b = w) := by
  by_cases hb : b = a
  · subst hb
    rw [Function.update_self] at h
    exact .inl ⟨rfl, h⟩
  · rw [Function.update_of_ne hb] at h
    exact .inr ⟨hb, h⟩

/-! ## 1. Programs -/

/-- A program over the operations `Op`, where operation `o` is answered with an `Ans o`. -/
inductive Prog (Op : Type) (Ans : Op → Type) (α : Type) where
  | ret (a : α) : Prog Op Ans α
  | op (o : Op) (k : Ans o → Prog Op Ans α) : Prog Op Ans α

namespace Prog

variable {Op : Type} {Ans : Op → Type} {α β : Type}

/-- Run `p`, then go on with its value. -/
def bind : Prog Op Ans α → (α → Prog Op Ans β) → Prog Op Ans β
  | .ret a, f => f a
  | .op o k, f => .op o fun r => (k r).bind f

instance : Monad (Prog Op Ans) where
  pure := .ret
  bind := Prog.bind

/-- The program that asks for one operation and returns its answer. -/
def call (o : Op) : Prog Op Ans (Ans o) := .op o .ret

theorem bind_eq (p : Prog Op Ans α) (f : α → Prog Op Ans β) : p >>= f = p.bind f := rfl

variable {P : Op → Prop} {p : Prog Op Ans α} {V : α → Prop}

/-- The program asks only for operations that satisfy `P`, and ends with a value that
    satisfies `V`. -/
def Within (P : Op → Prop) (V : α → Prop) : Prog Op Ans α → Prop
  | .ret a => V a
  | .op o k => P o ∧ ∀ r, (k r).Within P V

@[simp] theorem within_pure {a : α} : Within P V (pure a : Prog Op Ans α) ↔ V a := Iff.rfl

theorem within_bind {W : β → Prop} {f : α → Prog Op Ans β} (hp : p.Within P V)
    (hf : ∀ a, V a → (f a).Within P W) : (p >>= f).Within P W := by
  rw [bind_eq]
  induction p with
  | ret a => exact hf a hp
  | op o k ih => exact ⟨hp.1, fun r => ih r (hp.2 r)⟩

theorem within_call {W : β → Prop} {o : Op} {f : Ans o → Prog Op Ans β} (ho : P o)
    (hf : ∀ r, (f r).Within P W) : (call o >>= f).Within P W := ⟨ho, hf⟩

theorem within_mono {W : α → Prop} (hVW : ∀ a, V a → W a) (hp : p.Within P V) : p.Within P W := by
  induction p with
  | ret a => exact hVW a hp
  | op o k ih => exact ⟨hp.1, fun r => ih r (hp.2 r)⟩

theorem within_weaken {P' : Op → Prop} (hle : ∀ o, P o → P' o) (hp : p.Within P V) :
    p.Within P' V := by
  induction p with
  | ret a => exact hp
  | op o k ih => exact ⟨hle o hp.1, fun r => ih r (hp.2 r)⟩

/-- A loop over a list. -/
theorem within_foldlM {γ : Type} {I : β → Prop} {f : β → γ → Prog Op Ans β} (l : List γ)
    (hf : ∀ c ∈ l, ∀ b, I b → (f b c).Within P I) {b : β} (h : I b) :
    (l.foldlM f b).Within P I := by
  induction l generalizing b with
  | nil => exact h
  | cons c l ih =>
    rw [List.foldlM_cons]
    refine within_bind (hf c List.mem_cons_self b h) fun b' hb => ?_
    exact ih (fun d hd => hf d (List.mem_cons_of_mem c hd)) hb

/-- Every operation the program may ask for satisfies `P`. -/
abbrev Only (P : Op → Prop) (p : Prog Op Ans α) : Prop := p.Within P fun _ => True

@[simp] theorem only_pure (a : α) : Only P (pure a : Prog Op Ans α) := trivial

@[simp] theorem only_call (o : Op) : Only P (call o : Prog Op Ans (Ans o)) ↔ P o :=
  ⟨fun h => h.1, fun h => ⟨h, fun _ => trivial⟩⟩

theorem only_bind {f : α → Prog Op Ans β} (hp : p.Only P) (hf : ∀ a, (f a).Only P) :
    (p >>= f).Only P := within_bind hp fun a _ => hf a

theorem only_all (hP : ∀ o, P o) (p : Prog Op Ans α) : p.Only P := by
  induction p with
  | ret a => trivial
  | op o k ih => exact ⟨hP o, ih⟩

theorem Within.only (hp : p.Within P V) : p.Only P := within_mono (fun _ _ => trivial) hp

theorem Only.mono {P' : Op → Prop} (hle : ∀ o, P o → P' o) (hp : p.Only P) : p.Only P' :=
  within_weaken hle hp

section Walks

variable {G : Type} {Calls : G → Op → Prop} {heard : G → (o : Op) → Ans o → G} {g : G}

/-- The program keeps account of its answers: it asks for what `Calls` allows, an answer moves the
    account by `heard`, and it ends with a value that fits the account. -/
def Walks (Calls : G → Op → Prop) (heard : G → (o : Op) → Ans o → G) (Q : α → G → Prop) :
    Prog Op Ans α → G → Prop
  | .ret a, g => Q a g
  | .op o k, g => Calls g o ∧ ∀ r, (k r).Walks Calls heard Q (heard g o r)

variable {Q : α → G → Prop}

theorem walks_bind {R : β → G → Prop} {f : α → Prog Op Ans β} (hp : p.Walks Calls heard Q g)
    (hf : ∀ a g, Q a g → (f a).Walks Calls heard R g) : (p >>= f).Walks Calls heard R g := by
  rw [bind_eq]
  induction p generalizing g with
  | ret a => exact hf a g hp
  | op o k ih => exact ⟨hp.1, fun r => ih r (hp.2 r)⟩

theorem walks_call {R : β → G → Prop} {o : Op} {f : Ans o → Prog Op Ans β} (ho : Calls g o)
    (hf : ∀ r, (f r).Walks Calls heard R (heard g o r)) : (call o >>= f).Walks Calls heard R g :=
  ⟨ho, hf⟩

/-- What every answer leaves of the account. -/
theorem Walks.keeps {J : G → Prop} (hJ : ∀ g o r, J g → J (heard g o r))
    (hp : p.Walks Calls heard Q g) (h : J g) : p.Walks Calls heard (fun a g => Q a g ∧ J g) g := by
  induction p generalizing g with
  | ret a => exact ⟨hp, h⟩
  | op o k ih => exact ⟨hp.1, fun r => ih r (hp.2 r) (hJ g o r h)⟩

theorem walks_foldlM {γ : Type} {I : β → G → Prop} {f : β → γ → Prog Op Ans β} (l : List γ)
    (hf : ∀ c ∈ l, ∀ b g, I b g → (f b c).Walks Calls heard I g) {b : β} (h : I b g) :
    (l.foldlM f b).Walks Calls heard I g := by
  induction l generalizing b g with
  | nil => exact h
  | cons c l ih =>
    rw [List.foldlM_cons]
    refine walks_bind (hf c List.mem_cons_self b g h) fun b' g' hb => ?_
    exact ih (fun d hd => hf d (List.mem_cons_of_mem c hd)) hb

theorem Walks.within (hP : ∀ g o, Calls g o → P o) (hp : p.Walks Calls heard Q g) :
    p.Within P fun a => ∃ g, Q a g := by
  induction p generalizing g with
  | ret a => exact ⟨g, hp⟩
  | op o k ih => exact ⟨hP g o hp.1, fun r => ih r (hp.2 r)⟩

end Walks

/-- A loop of rounds that do nothing. -/
theorem foldlM_pure {γ : Type} {f : β → γ → Prog Op Ans β} {b : β} {l : List γ}
    (h : ∀ c ∈ l, f b c = pure b) : l.foldlM f b = pure b := by
  induction l with
  | nil => rfl
  | cons c l ih =>
    rw [List.foldlM_cons, h c List.mem_cons_self]
    exact ih fun d hd => h d (List.mem_cons_of_mem c hd)

end Prog

/-! ## 2. Machines and their steps -/

/-- What the operations, the environment, the threads' programs and a crash do. `F` are the
    choices an operation leaves open (a fault, an order), `A` the environment's actions. -/
structure Machine (T F A Op : Type) (Ans : Op → Type) (σ : Type) where
  /-- One operation of thread `t`; `none` where choice `f` does not apply. -/
  exec : T → F → (o : Op) → σ → Option (Ans o × σ)
  /-- One action of the environment; `none` where it is not enabled. -/
  env : A → σ → Option σ
  /-- The program a thread runs each time it starts. -/
  prog : T → Prog Op Ans Unit
  /-- What a crash of every thread leaves. -/
  crash : σ → σ

/-- The shared state, and what is left of each running program. -/
structure World (T Op : Type) (Ans : Op → Type) (σ : Type) where
  shared : σ
  running : T → Option (Prog Op Ans Unit)

/-- A step's label: who moves, and every choice it makes. -/
inductive Act (T F A : Type) where
  | env (a : A) : Act T F A
  | spawn (t : T) : Act T F A
  | exec (t : T) (f : F) : Act T F A
  | crash : Act T F A

namespace Machine

variable {T F A Op : Type} {Ans : Op → Type} {σ : Type} [DecidableEq T]
  (M : Machine T F A Op Ans σ)

/-- **One step of the machine.** -/
def step (w : World T Op Ans σ) : Act T F A → Option (World T Op Ans σ)
  | .env a => (M.env a w.shared).map fun s => { w with shared := s }
  | .spawn t =>
    match w.running t with
    | none => some { w with running := Function.update w.running t (some (M.prog t)) }
    | some _ => none
  | .exec t f =>
    match w.running t with
    | none => none
    | some (.ret _) => some { w with running := Function.update w.running t none }
    | some (.op o k) =>
      (M.exec t f o w.shared).map fun r =>
        { shared := r.2, running := Function.update w.running t (some (k r.1)) }
  | .crash => some { shared := M.crash w.shared, running := fun _ => none }

/-- The worlds reached from `w0` by steps that `ok` admits. -/
inductive Run (ok : World T Op Ans σ → Act T F A → Prop) (w0 : World T Op Ans σ) :
    World T Op Ans σ → Prop where
  | start : Run ok w0 w0
  | step (w w' : World T Op Ans σ) (a : Act T F A) (h : Run ok w0 w) (hok : ok w a)
      (hs : M.step w a = some w') : Run ok w0 w'

variable {M}

variable {ok : World T Op Ans σ → Act T F A → Prop} {w0 w w' : World T Op Ans σ}

theorem Run.trans {w1 w2 : World T Op Ans σ} (h1 : M.Run ok w0 w1) (h2 : M.Run ok w1 w2) :
    M.Run ok w0 w2 := by
  induction h2 with
  | start => exact h1
  | step w w' a _ hok hs ih => exact .step w w' a ih hok hs

/-- A run under a stronger admission is a run under a weaker one. -/
theorem Run.mono {ok' : World T Op Ans σ → Act T F A → Prop} (hle : ∀ w a, ok w a → ok' w a)
    (h : M.Run ok w0 w) : M.Run ok' w0 w := by
  induction h with
  | start => exact .start
  | step w w' a _ hok hs ih => exact .step w w' a ih (hle w a hok) hs

variable (M)

/-- Run a schedule, as long as `ok` admits its steps and they are enabled. -/
def replay (ok : World T Op Ans σ → Act T F A → Prop) [∀ w a, Decidable (ok w a)] :
    World T Op Ans σ → List (Act T F A) → Option (World T Op Ans σ)
  | w, [] => some w
  | w, a :: as =>
    if ok w a then
      match M.step w a with
      | none => none
      | some w' => replay ok w' as
    else none

variable {M}

/-- **A schedule that was run is a run.** -/
theorem run_of_replay [∀ w a, Decidable (ok w a)] (as : List (Act T F A))
    (h : M.replay ok w0 as = some w) : M.Run ok w0 w := by
  induction as generalizing w0 with
  | nil =>
    rw [replay, Option.some.injEq] at h
    subst h
    exact .start
  | cons a as ih =>
    obtain ⟨hok, h⟩ := Option.ite_none_right_eq_some.mp h
    split at h
    · cases h
    next w' hs => exact Run.trans (.step w0 w' a .start hok hs) (ih h)

/-- A schedule that can be run reaches a world; what holds of it can be computed. -/
theorem exists_run [∀ w a, Decidable (ok w a)] (w0 : World T Op Ans σ) (as : List (Act T F A))
    (P : World T Op Ans σ → Prop) [DecidablePred P]
    (h : (M.replay ok w0 as).any (fun w => decide (P w)) = true) : ∃ w, M.Run ok w0 w ∧ P w := by
  obtain ⟨w, hw, hp⟩ := (Option.any_eq_true ..).mp h
  exact ⟨w, run_of_replay as hw, of_decide_eq_true hp⟩

/-! ## 3. What a step did -/

theorem step_env {a : A} (h : M.step w (.env a) = some w') :
    ∃ s, M.env a w.shared = some s ∧ w' = { w with shared := s } := by
  obtain ⟨s, hs, rfl⟩ := Option.map_eq_some_iff.mp h
  exact ⟨s, hs, rfl⟩

theorem step_spawn {t : T} (h : M.step w (.spawn t) = some w') :
    w.running t = none ∧
      w' = { w with running := Function.update w.running t (some (M.prog t)) } := by
  simp only [step] at h
  split at h
  next hr => exact ⟨hr, (Option.some.inj h).symm⟩
  · cases h

/-- A step of a running thread executes its next operation, or ends it. -/
theorem step_exec {t : T} {f : F} (h : M.step w (.exec t f) = some w') :
    (∃ o k r s, w.running t = some (.op o k) ∧ M.exec t f o w.shared = some (r, s) ∧
        w' = { shared := s, running := Function.update w.running t (some (k r)) }) ∨
      (w.running t = some (.ret ()) ∧
        w' = { w with running := Function.update w.running t none }) := by
  simp only [step] at h
  split at h
  · cases h
  next hr => exact .inr ⟨hr, (Option.some.inj h).symm⟩
  next o k hr =>
    obtain ⟨⟨r, s⟩, hx, rfl⟩ := Option.map_eq_some_iff.mp h
    exact .inl ⟨o, k, r, s, hr, hx, rfl⟩

theorem step_crash (h : M.step w .crash = some w') :
    w' = { shared := M.crash w.shared, running := fun _ => none } :=
  (Option.some.inj h).symm

/-! ## 4. The machine of the steps that meet a condition -/

section Restrict

variable (okExec : T → F → Op → σ → Bool) (okEnv : A → σ → Bool)

variable (M) in
/-- `M`, without the operations and environment actions that fail a condition. -/
def restrict : Machine T F A Op Ans σ where
  exec t f o s := if okExec t f o s then M.exec t f o s else none
  env a s := if okEnv a s then M.env a s else none
  prog := M.prog
  crash := M.crash

/-- The step meets the condition. -/
def meets (w : World T Op Ans σ) : Act T F A → Bool
  | .env a => okEnv a w.shared
  | .exec t f =>
    match w.running t with
    | some (.op o _) => okExec t f o w.shared
    | _ => true
  | .spawn _ => true
  | .crash => true

variable {okExec okEnv}

omit [DecidableEq T] in
theorem restrict_exec {t : T} {f : F} {o : Op} {s s' : σ} {r : Ans o}
    (h : (M.restrict okExec okEnv).exec t f o s = some (r, s')) :
    okExec t f o s = true ∧ M.exec t f o s = some (r, s') := by
  obtain ⟨hok, h⟩ := Option.ite_none_right_eq_some.mp h
  exact ⟨hok, h⟩

omit [DecidableEq T] in
theorem restrict_env {a : A} {s s' : σ} (h : (M.restrict okExec okEnv).env a s = some s') :
    okEnv a s = true ∧ M.env a s = some s' := by
  obtain ⟨hok, h⟩ := Option.ite_none_right_eq_some.mp h
  exact ⟨hok, h⟩

/-- A step that meets the condition is a step of the restricted machine. -/
theorem step_restrict {w w' : World T Op Ans σ} {a : Act T F A}
    (hok : meets okExec okEnv w a = true) (h : M.step w a = some w') :
    (M.restrict okExec okEnv).step w a = some w' := by
  cases a with
  | env a =>
    have hx : okEnv a w.shared = true := hok
    simp only [step, restrict, hx, if_true]
    exact h
  | spawn | crash => exact h
  | exec t f =>
    simp only [step] at h ⊢
    simp only [meets] at hok
    split
    next hr =>
      rw [hr] at h
      exact h
    next hr =>
      rw [hr] at h
      exact h
    next o k hr =>
      rw [hr] at h hok
      have hx : okExec t f o w.shared = true := hok
      simp only [restrict, hx, if_true]
      exact h

/-- **The runs whose steps all meet the condition are runs of the restricted machine.** -/
theorem run_restrict {w0 w : World T Op Ans σ}
    (h : M.Run (fun w a => meets okExec okEnv w a = true) w0 w) :
    (M.restrict okExec okEnv).Run (fun _ _ => True) w0 w := by
  induction h with
  | start => exact .start
  | step w w' a _ hok hs ih => exact .step w w' a ih trivial (step_restrict hok hs)

end Restrict

end Machine

end BatteryOperator.Lib
