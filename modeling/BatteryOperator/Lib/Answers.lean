/-
  Subject:   WHAT A PROGRAM WAS ANSWERED, AND HOW IT ENDED. Nothing here names a particular
             program.

  A program asks for operations and goes on with their answers. `Ends p asked a` says that `p` ends
  with `a` after exactly the operations `asked`, answered as they are there. Whatever serves the
  operations, and whatever happens in between, a program that ended did so in such a way; so what
  follows from the answers alone is proved here once, for every machine.

  * `ends_pure`, `ends_call`, `ends_bind`, `ends_ite` -- the ends of a program by its parts;
  * `Ends.within`, `within_of_ends` -- what holds however the operations are answered;
  * `Ends.unique` -- the answers say how a program ends;
  * `answeredBy` -- the end of a program whose operations are answered by a function;
  * `AnsweredFrom` -- the answers are those of a function of the operation and its place, so that
    two runs can be given the same answers at the same places;
  * `InStep` -- two programs that ask for the same operations, place by place.
-/
import BatteryOperator.Lib.Program

namespace BatteryOperator.Lib

/-- An operation and its answer. -/
abbrev Asked (Op : Type) (Ans : Op → Type) := (o : Op) × Ans o

namespace Prog

variable {Op : Type} {Ans : Op → Type} {α β : Type}

/-- The program ends with this value after these operations with these answers. -/
inductive Ends : Prog Op Ans α → List (Asked Op Ans) → α → Prop where
  | ret (a : α) : Ends (.ret a) [] a
  | op (o : Op) (k : Ans o → Prog Op Ans α) (r : Ans o) (asked : List (Asked Op Ans)) (a : α)
      (h : Ends (k r) asked a) : Ends (.op o k) (⟨o, r⟩ :: asked) a

variable {asked : List (Asked Op Ans)} {p : Prog Op Ans α} {a : α} {b : β}

theorem ends_pure {b : α} : Ends (pure a : Prog Op Ans α) asked b ↔ asked = [] ∧ b = a := by
  constructor
  · intro h
    cases h
    exact ⟨rfl, rfl⟩
  · rintro ⟨rfl, rfl⟩
    exact .ret b

theorem ends_call {o : Op} {f : Ans o → Prog Op Ans β} :
    Ends (call o >>= f) asked b ↔
      ∃ r rest, asked = ⟨o, r⟩ :: rest ∧ Ends (f r) rest b := by
  constructor
  · intro h
    cases h with
    | op _ _ r rest _ h => exact ⟨r, rest, rfl, h⟩
  · rintro ⟨r, rest, rfl, h⟩
    exact .op o _ r rest b h

/-- **Sequencing.** -/
theorem ends_bind {f : α → Prog Op Ans β} :
    Ends (p >>= f) asked b ↔
      ∃ before after a, asked = before ++ after ∧ Ends p before a ∧ Ends (f a) after b := by
  rw [bind_eq]
  induction p generalizing asked with
  | ret a =>
    constructor
    · intro h
      exact ⟨[], asked, a, rfl, .ret a, h⟩
    · rintro ⟨before, after, a', rfl, hp, hf⟩
      cases hp
      exact hf
  | op o k ih =>
    constructor
    · intro h
      cases h with
      | op _ _ r rest _ h =>
        obtain ⟨before, after, a, rfl, hp, hf⟩ := (ih r).mp h
        exact ⟨⟨o, r⟩ :: before, after, a, rfl, .op o k r before a hp, hf⟩
    · rintro ⟨before, after, a, rfl, hp, hf⟩
      cases hp with
      | op _ _ r rest _ hp => exact .op o _ r _ b ((ih r).mpr ⟨rest, after, a, rfl, hp, hf⟩)

theorem ends_ite {c : Prop} [Decidable c] {q : Prog Op Ans α} :
    Ends (if c then p else q) asked a ↔ (c ∧ Ends p asked a) ∨ (¬ c ∧ Ends q asked a) := by
  by_cases hc : c
  · rw [if_pos hc]
    exact ⟨fun h => .inl ⟨hc, h⟩, fun h => h.elim And.right fun h => absurd hc h.1⟩
  · rw [if_neg hc]
    exact ⟨fun h => .inr ⟨hc, h⟩, fun h => h.elim (fun h => absurd h.1 hc) And.right⟩

/-- What holds however the operations are answered. -/
theorem Ends.within {P : Op → Prop} {V : α → Prop} (h : Ends p asked a) (hp : p.Within P V) :
    (∀ e ∈ asked, P e.1) ∧ V a := by
  induction h with
  | ret a => exact ⟨nofun, hp⟩
  | op o k r rest a _ ih =>
    obtain ⟨hall, hv⟩ := ih (hp.2 r)
    exact ⟨List.forall_mem_cons.mpr ⟨hp.1, hall⟩, hv⟩

/-- **The answers say how a program ends**, and where. -/
theorem Ends.unique {asked' rest rest' : List (Asked Op Ans)} {b : α} (h : Ends p asked a)
    (h' : Ends p asked' b) (he : asked ++ rest = asked' ++ rest') : asked = asked' ∧ a = b := by
  induction h generalizing asked' with
  | ret a =>
    cases h'
    exact ⟨rfl, rfl⟩
  | op o k r asked a _ ih =>
    cases h' with
    | op _ _ r' asked' _ h' =>
      obtain ⟨hhead, htail⟩ := List.cons.inj he
      cases hhead
      obtain ⟨rfl, rfl⟩ := ih h' htail
      exact ⟨rfl, rfl⟩

/-- The answers are those of `f`, from place `n` on. -/
def AnsweredFrom (f : Nat → (o : Op) → Ans o) : Nat → List (Asked Op Ans) → Prop
  | _, [] => True
  | n, e :: rest => e.2 = f n e.1 ∧ AnsweredFrom f (n + 1) rest

theorem answeredFrom_append {f : Nat → (o : Op) → Ans o} {n : Nat} {a b : List (Asked Op Ans)} :
    AnsweredFrom f n (a ++ b) ↔ AnsweredFrom f n a ∧ AnsweredFrom f (n + a.length) b := by
  induction a generalizing n with
  | nil => exact ⟨fun h => ⟨trivial, h⟩, And.right⟩
  | cons e a ih =>
    have hplace : n + (e :: a).length = n + 1 + a.length := by
      rw [List.length_cons]
      omega
    rw [List.cons_append, hplace]
    constructor
    · rintro ⟨he, h⟩
      obtain ⟨ha, hb⟩ := ih.mp h
      exact ⟨⟨he, ha⟩, hb⟩
    · rintro ⟨⟨he, ha⟩, hb⟩
      exact ⟨he, ih.mpr ⟨ha, hb⟩⟩

theorem AnsweredFrom.mem {f : Nat → (o : Op) → Ans o} {n : Nat} (h : AnsweredFrom f n asked)
    {e : Asked Op Ans} (he : e ∈ asked) : ∃ k, e.2 = f k e.1 := by
  induction asked generalizing n with
  | nil => cases he
  | cons e' asked ih =>
    rcases List.mem_cons.mp he with rfl | he
    · exact ⟨n, h.1⟩
    · exact ih h.2 he

/-- **Two programs in step**, answered by `f` and by `f'`: they ask for the same operations, and
    what they end with is related. -/
inductive InStep (f f' : Nat → (o : Op) → Ans o) (V : α → β → Prop) :
    Prog Op Ans α → Prog Op Ans β → Prop where
  | ret {a : α} {b : β} (h : V a b) : InStep f f' V (.ret a) (.ret b)
  | op {o : Op} {k : Ans o → Prog Op Ans α} {k' : Ans o → Prog Op Ans β}
      (h : ∀ n, InStep f f' V (k (f n o)) (k' (f' n o))) : InStep f f' V (.op o k) (.op o k')

/-- They end so, after as many operations. -/
theorem InStep.ends {f f' : Nat → (o : Op) → Ans o} {V : α → β → Prop} {p' : Prog Op Ans β}
    {asked' : List (Asked Op Ans)} {n : Nat} (h : InStep f f' V p p') (he : Ends p asked a)
    (he' : Ends p' asked' b) (ha : AnsweredFrom f n asked) (ha' : AnsweredFrom f' n asked') :
    V a b ∧ asked.length = asked'.length := by
  induction h generalizing n asked asked' with
  | ret h =>
    cases he
    cases he'
    exact ⟨h, rfl⟩
  | @op o k k' h ih =>
    cases he with
    | op _ _ r rest _ he =>
      cases he' with
      | op _ _ r' rest' _ he' =>
        obtain rfl : r = f n o := ha.1
        obtain rfl : r' = f' n o := ha'.1
        obtain ⟨hv, hlen⟩ := ih n he he' ha.2 ha'.2
        exact ⟨hv, congrArg (· + 1) hlen⟩

/-- The end of a program that is answered by `f`, and what it asked. -/
def answeredBy (f : (o : Op) → Ans o) : Prog Op Ans α → List (Asked Op Ans) × α
  | .ret a => ([], a)
  | .op o k =>
    let rest := answeredBy f (k (f o))
    (⟨o, f o⟩ :: rest.1, rest.2)

theorem ends_answeredBy (f : (o : Op) → Ans o) (p : Prog Op Ans α) :
    Ends p (p.answeredBy f).1 (p.answeredBy f).2 := by
  induction p with
  | ret a => exact .ret a
  | op o k ih => exact .op o k (f o) _ _ (ih (f o))

/-- What holds of every end holds however the operations are answered. -/
theorem within_of_ends (f : (o : Op) → Ans o) {P : Op → Prop} {V : α → Prop}
    (h : ∀ asked a, Ends p asked a → (∀ e ∈ asked, P e.1) ∧ V a) : p.Within P V := by
  induction p with
  | ret a => exact (h [] a (.ret a)).2
  | op o k ih =>
    refine ⟨?_, fun r => ih r fun asked a he => ?_⟩
    · exact (h _ _ (.op o k (f o) _ _ (ends_answeredBy f (k (f o))))).1 _ List.mem_cons_self
    · obtain ⟨hall, hv⟩ := h _ _ (.op o k r asked a he)
      exact ⟨fun e hm => hall e (List.mem_cons_of_mem _ hm), hv⟩

theorem answeredFrom_answeredBy (f : (o : Op) → Ans o) (p : Prog Op Ans α) (n : Nat) :
    AnsweredFrom (fun _ => f) n (p.answeredBy f).1 := by
  induction p generalizing n with
  | ret a => exact trivial
  | op o k ih => exact ⟨rfl, ih (f o) (n + 1)⟩

end Prog

end BatteryOperator.Lib
