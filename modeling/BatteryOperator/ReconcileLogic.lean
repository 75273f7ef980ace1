/-
  Subject:   The rules for a chain of subreconcilers, over any machine its steps run on.

  * `Next Q R` -- a step ended: the chain goes on from `Q`, or ends in `R`;
  * `ends_nil`, `ends_cons` -- **the steps of a chain**, one after the other;
  * `wp_runFinally` -- the steps that run whatever happened keep what they are given;
  * `wp_ofSteps`, `wp_group` -- a chain of steps alone, and a group of another chain;
  * `within_runSteps`, `within_runFinally` -- the same where the steps are answered in any way;
  * `Visits` -- the steps of a chain that ran, with what they were answered; `ends_runSteps` --
    **a chain that ended is such a list of steps**;
  * `OwnChange` -- a list of finalizers as it was, or with the controller's own added or taken away;
    `within_chain` -- **a chain that changes no other finalizer**.
-/
import BatteryOperator.Lib.Answers
import BatteryOperator.Lib.RelyGuarantee
import BatteryOperator.Reconcile

namespace BatteryOperator

open Lib Machine Prog

theorem joinErrors_eq_none {errs : List String} (h : joinErrors errs = none) : errs = [] := by
  cases errs with
  | nil => rfl
  | cons e es => cases h

section Chain

variable {T F A Op : Type} {Ans : Op → Type} {σ Sc : Type} (M : Machine T F A Op Ans σ)
  (S : Spec T Op σ) (t : T)

/-- What a chain's steps left: the scope, the results folded together and the errors. -/
abbrev Left (Sc : Type) := Sc × Result × List String

/-- From `P`, the steps end in `R`. -/
def Ends (P : Sc → σ → Prop) (R : Left Sc → σ → Prop)
    (subs : List (SubReconciler (Prog Op Ans) Sc)) : Prop :=
  ∀ sc s out, P sc s → wp M S t (Chain.runSteps subs sc out) R s

/-- A step ended: the chain goes on from `Q`, or it failed or stopped the chain and that is `R`. -/
structure Next (Q : Sc → σ → Prop) (R : Left Sc → σ → Prop) (o : Outcome Sc) (s : σ) : Prop where
  goOn : o.err = none → o.result.stop = false → Q o.scope s
  failed : ∀ e out, o.err = some e → R (o.scope, out, [e]) s
  stopped : ∀ out, o.err = none → o.result.stop = true → R (o.scope, out, []) s

variable {M S t} {P Q : Sc → σ → Prop} {R : Left Sc → σ → Prop}

theorem ends_nil (hP : ∀ sc, Stable S t (P sc))
    (h : ∀ sc out s, S.Inv s → P sc s → R (sc, out, []) s) : Ends M S t P R [] :=
  fun sc s out hp s' hR hI => h sc out s' hI (hP sc s s' hp hR hI)

variable {subs : List (SubReconciler (Prog Op Ans) Sc)} {s : σ} {sc : Sc}

theorem ends_cons (hrf : ∀ a, S.Rely t a a) (hR : ∀ x, Stable S t (R x))
    {sub : SubReconciler (Prog Op Ans) Sc}
    (hsub : ∀ sc s, P sc s → wp M S t (sub sc) (Next Q R) s) (hsubs : Ends M S t Q R subs) :
    Ends M S t P R (sub :: subs) := by
  intro sc s out h
  refine wp_seq hrf (hsub sc s h) fun o s1 _ ho => ?_
  cases he : o.err with
  | some e => exact wp_ret (hR _) (ho.failed e _ he) fun _ _ hr => hr
  | none =>
    cases hstop : o.result.stop with
    | true =>
      simp only [if_true]
      exact wp_ret (hR _) (ho.stopped _ he hstop) fun _ _ hr => hr
    | false => exact hsubs o.scope s1 _ (ho.goOn he hstop)

/-- A group of steps that keep one thing. -/
theorem ends_append (subs : List (SubReconciler (Prog Op Ans) Sc))
    {rest : List (SubReconciler (Prog Op Ans) Sc)} (hrf : ∀ a, S.Rely t a a)
    (hR : ∀ x, Stable S t (R x))
    (hsub : ∀ sub ∈ subs, ∀ sc s, P sc s → wp M S t (sub sc) (Next P R) s)
    (hrest : Ends M S t P R rest) : Ends M S t P R (subs ++ rest) := by
  induction subs with
  | nil => exact hrest
  | cons sub subs ih =>
    refine ends_cons hrf hR (hsub sub List.mem_cons_self) (ih fun sub hm => ?_)
    exact hsub sub (List.mem_cons_of_mem _ hm)

/-- A step that neither fails nor stops the chain. -/
theorem Next.of_goOn {o : Outcome Sc} (h : Q o.scope s) (he : o.err = none)
    (hs : o.result.stop = false) : Next Q R o s where
  goOn _ _ := h
  failed e _ h := by
    simp [he] at h
  stopped _ _ h := by
    simp [hs] at h

/-- **The steps that run finally** keep what each of them keeps. -/
theorem wp_runFinally (hrf : ∀ a, S.Rely t a a) {I : Sc → σ → Prop}
    (hI : ∀ sc, Stable S t (I sc)) (subs : List (SubReconciler (Prog Op Ans) Sc))
    (hsub : ∀ sub ∈ subs, ∀ sc s, I sc s → wp M S t (sub sc) (fun o => I o.scope) s)
    {out : Result} {errs : List String} (h : I sc s) :
    wp M S t (Chain.runFinally subs sc out errs) (fun x => I x.1) s := by
  induction subs generalizing sc out errs s with
  | nil => exact wp_ret (hI sc) h fun _ _ hi => hi
  | cons sub subs ih =>
    refine wp_seq hrf (hsub sub List.mem_cons_self sc s h) fun o s1 _ ho => ?_
    exact ih (fun sub' hm => hsub sub' (List.mem_cons_of_mem sub hm)) ho

variable (hrf : ∀ a, S.Rely t a a) (hR : ∀ x, Stable S t (R x)) (h : Ends M S t P R subs)
include hrf hR h

/-- **A chain of steps alone** ends where its steps end. -/
theorem wp_ofSteps (hp : P sc s) :
    wp M S t ((Chain.ofSteps subs).run sc)
      (fun o s => ∃ x, R x s ∧ o = ⟨x.1, x.2.1, joinErrors x.2.2⟩) s := by
  refine wp_seq hrf (h sc s {} hp) fun x s1 _ hx => ?_
  exact wp_ret (hR x) hx fun _ _ hx' => ⟨x, hx', rfl⟩

/-- **A group** is a step that does not stop the chain around it. -/
theorem wp_group (hp : P sc s) :
    wp M S t ((Chain.ofSteps subs).group sc)
      (fun o s => ∃ x, R x s ∧ o = ⟨x.1, { x.2.1 with stop := false }, joinErrors x.2.2⟩) s := by
  refine wp_seq hrf (wp_ofSteps hrf hR h hp) fun o s1 _ ho => ?_
  obtain ⟨x, hx, rfl⟩ := ho
  exact wp_ret (hR x) hx fun _ _ hx' => ⟨x, hx', rfl⟩

end Chain

section Within

variable {Op : Type} {Ans : Op → Type} {Sc : Type} {P : Op → Prop} {I E : Sc → Prop}

variable {sc : Sc}

/-- **The steps of a chain, however they are answered**: from `I` each step ends in `E`, and in `I`
    where the chain goes on. -/
theorem within_runSteps (hIE : ∀ sc, I sc → E sc) (subs : List (SubReconciler (Prog Op Ans) Sc))
    (h : ∀ sub ∈ subs, ∀ sc, I sc → (sub sc).Within P fun o =>
      E o.scope ∧ (o.err = none → o.result.stop = false → I o.scope)) {out : Result} (hsc : I sc) :
    (Chain.runSteps subs sc out).Within P fun x => E x.1 := by
  induction subs generalizing sc out with
  | nil => exact hIE sc hsc
  | cons sub subs ih =>
    refine within_bind (h sub List.mem_cons_self sc hsc) fun o ho => ?_
    cases he : o.err with
    | some e => exact ho.1
    | none =>
      cases hstop : o.result.stop with
      | true =>
        simp only [if_true]
        exact ho.1
      | false => exact ih (fun s hs => h s (List.mem_cons_of_mem sub hs)) (ho.2 he hstop)

/-- The steps that run finally keep what each of them keeps. -/
theorem within_runFinally (subs : List (SubReconciler (Prog Op Ans) Sc))
    (h : ∀ sub ∈ subs, ∀ sc, E sc → (sub sc).Within P fun o => E o.scope) {out : Result}
    {errs : List String} (hsc : E sc) :
    (Chain.runFinally subs sc out errs).Within P fun x => E x.1 := by
  induction subs generalizing sc out errs with
  | nil => exact hsc
  | cons sub subs ih =>
    refine within_bind (h sub List.mem_cons_self sc hsc) fun o ho => ?_
    exact ih (fun s hs => h s (List.mem_cons_of_mem sub hs)) ho

/-- **A chain, however its steps are answered.** -/
theorem within_run (hIE : ∀ sc, I sc → E sc) (c : Chain (Prog Op Ans) Sc)
    (hsteps : ∀ sub ∈ c.steps, ∀ sc, I sc → (sub sc).Within P fun o =>
      E o.scope ∧ (o.err = none → o.result.stop = false → I o.scope))
    (hfinally : ∀ sub ∈ c.finally_, ∀ sc, E sc → (sub sc).Within P fun o => E o.scope)
    (hsc : I sc) : (c.run sc).Within P fun o => E o.scope := by
  refine within_bind (within_runSteps hIE c.steps hsteps hsc) fun x hx => ?_
  exact within_bind (within_runFinally c.finally_ hfinally hx) fun y hy => hy

end Within

/-! ## The steps that ran -/

section Visits

variable {Op : Type} {Ans : Op → Type} {Sc : Type}

/-- A step of a chain that ran: the scope it was given, what it was answered and how it ended. -/
structure Visit (Op : Type) (Ans : Op → Type) (Sc : Type) where
  before : Sc
  asked : List (Asked Op Ans)
  outcome : Outcome Sc

/-- The chain goes on after the step. -/
def Visit.GoesOn (v : Visit Op Ans Sc) : Prop :=
  v.outcome.err = none ∧ v.outcome.result.stop = false

/-- **The steps of a chain that ran**, from a scope: up to the first that fails or stops it. -/
inductive Visits : List (SubReconciler (Prog Op Ans) Sc) → Sc → List (Visit Op Ans Sc) → Prop where
  | nil (sc : Sc) : Visits [] sc []
  | last (sub : SubReconciler (Prog Op Ans) Sc) (subs : List (SubReconciler (Prog Op Ans) Sc))
      (v : Visit Op Ans Sc) (h : (sub v.before).Ends v.asked v.outcome) (hend : ¬ v.GoesOn) :
      Visits (sub :: subs) v.before [v]
  | next (sub : SubReconciler (Prog Op Ans) Sc) (subs : List (SubReconciler (Prog Op Ans) Sc))
      (v : Visit Op Ans Sc) (vs : List (Visit Op Ans Sc))
      (h : (sub v.before).Ends v.asked v.outcome) (hgo : v.GoesOn)
      (hvs : Visits subs v.outcome.scope vs) : Visits (sub :: subs) v.before (v :: vs)

instance (v : Visit Op Ans Sc) : Decidable v.GoesOn := inferInstanceAs (Decidable (_ ∧ _))

/-- The scope the steps left. -/
def Visit.leftScope (sc : Sc) (vs : List (Visit Op Ans Sc)) : Sc :=
  vs.foldl (fun _ v => v.outcome.scope) sc

/-- What the steps left. -/
def Visit.left : Sc → Result → List (Visit Op Ans Sc) → Left Sc
  | sc, out, [] => (sc, out, [])
  | _, out, v :: vs =>
    let x := Visit.left v.outcome.scope (out.merge v.outcome.result) vs
    (x.1, x.2.1, v.outcome.err.toList ++ x.2.2)

theorem Visit.left_scope (sc : Sc) (out : Result) (vs : List (Visit Op Ans Sc)) :
    (Visit.left sc out vs).1 = Visit.leftScope sc vs := by
  induction vs generalizing sc out with
  | nil => rfl
  | cons v vs ih => exact ih v.outcome.scope (out.merge v.outcome.result)

variable {r o out : Result} {sc : Sc} {vs : List (Visit Op Ans Sc)} {v : Visit Op Ans Sc}
  {subs : List (SubReconciler (Prog Op Ans) Sc)}

theorem Result.merge_pos_left (h : 0 < r.requeueAfter) : 0 < (r.merge o).requeueAfter := by
  unfold Result.merge
  dsimp only
  split
  next ho => exact ho.1
  · exact h

theorem Result.merge_pos_right (h : 0 < o.requeueAfter) : 0 < (r.merge o).requeueAfter := by
  unfold Result.merge
  dsimp only
  split
  · exact h
  next ho =>
    by_contra hr
    exact ho ⟨h, .inl (Int.not_lt.mp hr)⟩

theorem Result.merge_le_left (h : 0 < r.requeueAfter) :
    (r.merge o).requeueAfter ≤ r.requeueAfter := by
  unfold Result.merge
  dsimp only
  split
  next ho =>
    rcases ho.2 with hn | hlt
    · exact absurd h (Int.not_lt.mpr hn)
    · exact Int.le_of_lt hlt
  · exact Int.le_refl _

theorem Result.merge_le_right (h : 0 < o.requeueAfter) :
    (r.merge o).requeueAfter ≤ o.requeueAfter := by
  unfold Result.merge
  dsimp only
  split
  · exact Int.le_refl _
  next ho =>
    by_contra hlt
    exact ho ⟨h, .inr (Int.not_le.mp hlt)⟩

/-- A delay that was asked for stays one. -/
theorem Visit.left_pos_of_out (vs : List (Visit Op Ans Sc)) (h : 0 < out.requeueAfter) :
    0 < (Visit.left sc out vs).2.1.requeueAfter := by
  induction vs generalizing sc out with
  | nil => exact h
  | cons v vs ih => exact ih (Result.merge_pos_left h)

/-- **A step that asks for a delay** is heard. -/
theorem Visit.left_pos (hv : v ∈ vs) (h : 0 < v.outcome.result.requeueAfter) :
    0 < (Visit.left sc out vs).2.1.requeueAfter := by
  induction vs generalizing sc out with
  | nil => cases hv
  | cons w vs ih =>
    rcases List.mem_cons.mp hv with rfl | hv
    · exact Visit.left_pos_of_out vs (Result.merge_pos_right h)
    · exact ih hv

/-- The chain asks for no longer delay than a step that ran before. -/
theorem Visit.left_le_of_out (vs : List (Visit Op Ans Sc)) (h : 0 < out.requeueAfter) :
    (Visit.left sc out vs).2.1.requeueAfter ≤ out.requeueAfter := by
  induction vs generalizing sc out with
  | nil => exact Int.le_refl _
  | cons v vs ih => exact Int.le_trans (ih (Result.merge_pos_left h)) (Result.merge_le_left h)

theorem Visit.left_le (hv : v ∈ vs) (h : 0 < v.outcome.result.requeueAfter) :
    (Visit.left sc out vs).2.1.requeueAfter ≤ v.outcome.result.requeueAfter := by
  induction vs generalizing sc out with
  | nil => cases hv
  | cons w vs ih =>
    rcases List.mem_cons.mp hv with rfl | hv
    · exact Int.le_trans (Visit.left_le_of_out vs (Result.merge_pos_right h))
        (Result.merge_le_right h)
    · exact ih hv

/-- The steps that run finally do not put a delay off. -/
theorem ends_runFinally_delay {errs : List String} {asked : List (Asked Op Ans)} {x : Left Sc}
    (h : (Chain.runFinally subs sc out errs).Ends asked x) (hpos : 0 < out.requeueAfter) :
    0 < x.2.1.requeueAfter ∧ x.2.1.requeueAfter ≤ out.requeueAfter := by
  induction subs generalizing sc out errs asked with
  | nil =>
    obtain ⟨-, rfl⟩ := ends_pure.mp h
    exact ⟨hpos, Int.le_refl _⟩
  | cons sub subs ih =>
    obtain ⟨before, after, o, rfl, -, hrest⟩ := ends_bind.mp h
    obtain ⟨hp, hle⟩ := ih hrest (Result.merge_pos_left hpos)
    exact ⟨hp, Int.le_trans hle (Result.merge_le_left hpos)⟩

/-- **A step that failed** is heard. -/
theorem Visit.left_err (hv : v ∈ vs) (h : v.outcome.err ≠ none) :
    (Visit.left sc out vs).2.2 ≠ [] := by
  induction vs generalizing sc out with
  | nil => cases hv
  | cons w vs ih =>
    rcases List.mem_cons.mp hv with rfl | hv
    · obtain ⟨e, he⟩ := Option.ne_none_iff_exists'.mp h
      simp [Visit.left, he]
    · intro hnil
      exact ih hv (List.append_eq_nil_iff.mp hnil).2

/-- The steps that were to run after a step that goes on ran from its scope. -/
theorem visits_cons {sub : SubReconciler (Prog Op Ans) Sc} (h : Visits (sub :: subs) sc vs) :
    ∃ v rest, vs = v :: rest ∧ v.before = sc ∧ (sub sc).Ends v.asked v.outcome ∧
      ((¬ v.GoesOn ∧ rest = []) ∨ (v.GoesOn ∧ Visits subs v.outcome.scope rest)) := by
  cases h with
  | last _ _ v h hend => exact ⟨v, [], rfl, rfl, h, .inl ⟨hend, rfl⟩⟩
  | next _ _ v rest h hgo hvs => exact ⟨v, rest, rfl, rfl, h, .inr ⟨hgo, hvs⟩⟩

/-- **Two lists of steps in a row**: the first ended the chain, or all of it goes on. -/
theorem visits_append {first later : List (SubReconciler (Prog Op Ans) Sc)}
    (h : Visits (first ++ later) sc vs) :
    (¬ (∀ v ∈ vs, v.GoesOn) ∧ vs.length ≤ first.length ∧ Visits first sc vs) ∨
      ∃ before after, vs = before ++ after ∧ before.length = first.length ∧
        (∀ v ∈ before, v.GoesOn) ∧ Visits first sc before ∧
        Visits later (Visit.leftScope sc before) after := by
  induction first generalizing sc vs with
  | nil => exact .inr ⟨[], vs, rfl, rfl, List.forall_mem_nil _, .nil sc, h⟩
  | cons sub first ih =>
    obtain ⟨v, rest, rfl, rfl, hv, hrest⟩ := visits_cons h
    rcases hrest with ⟨hend, rfl⟩ | ⟨hgo, hrest⟩
    · refine .inl ⟨fun hall => hend (hall v List.mem_cons_self), ?_, .last sub first v hv hend⟩
      exact Nat.succ_le_succ (Nat.zero_le _)
    · rcases ih hrest with ⟨hend, hlen, hvs⟩ | ⟨before, after, rfl, hlen, hall, hb, ha⟩
      · refine .inl ⟨fun hall => hend (List.forall_mem_cons.mp hall).2, ?_, ?_⟩
        · exact Nat.succ_le_succ hlen
        · exact .next sub first v rest hv hgo hvs
      · refine .inr ⟨v :: before, after, rfl, congrArg (· + 1) hlen, ?_, ?_, ha⟩
        · exact List.forall_mem_cons.mpr ⟨hgo, hall⟩
        · exact .next sub first v before hv hgo hb

/-- What each step does however it is answered, the steps that ran did. -/
theorem visits_within {P : Op → Prop} {I : Sc → Prop}
    (hsubs : ∀ sub ∈ subs, ∀ sc, I sc → (sub sc).Within P fun o => I o.scope)
    (h : Visits subs sc vs) (hsc : I sc) :
    (∀ e ∈ vs.flatMap Visit.asked, P e.1) ∧ I (Visit.leftScope sc vs) := by
  induction h with
  | nil sc => exact ⟨nofun, hsc⟩
  | last sub subs v h _ =>
    obtain ⟨hall, hi⟩ := h.within (hsubs sub List.mem_cons_self _ hsc)
    exact ⟨by simpa using hall, hi⟩
  | next sub subs v vs h _ _ ih =>
    obtain ⟨hsub, hsubs⟩ := List.forall_mem_cons.mp hsubs
    obtain ⟨hall, hi⟩ := h.within (hsub _ hsc)
    obtain ⟨hrest, hleft⟩ := ih hsubs hi
    refine ⟨?_, hleft⟩
    rw [List.flatMap_cons]
    exact List.forall_mem_append.mpr ⟨hall, hrest⟩

/-- The answers say which steps ran. -/
theorem visits_unique {vs' : List (Visit Op Ans Sc)} {rest rest' : List (Asked Op Ans)}
    (h : Visits subs sc vs) (h' : Visits subs sc vs')
    (he : vs.flatMap Visit.asked ++ rest = vs'.flatMap Visit.asked ++ rest') : vs = vs' := by
  induction subs generalizing sc vs vs' with
  | nil =>
    cases h
    cases h'
    rfl
  | cons sub subs ih =>
    obtain ⟨⟨before, asked, o⟩, later, rfl, hb, hv, hlater⟩ := visits_cons h
    obtain ⟨⟨before', asked', o'⟩, later', rfl, hb', hv', hlater'⟩ := visits_cons h'
    rw [List.flatMap_cons, List.flatMap_cons, List.append_assoc, List.append_assoc] at he
    obtain ⟨rfl, rfl⟩ := Prog.Ends.unique hv hv' he
    cases hb.trans hb'.symm
    rcases hlater with ⟨hend, rfl⟩ | ⟨hgo, hvs⟩
    · rcases hlater' with ⟨-, rfl⟩ | ⟨hgo, -⟩
      · rfl
      · exact absurd hgo hend
    · rcases hlater' with ⟨hend, -⟩ | ⟨-, hvs'⟩
      · exact absurd hgo hend
      · rw [ih hvs hvs' (List.append_cancel_left he)]

/-- **A chain's steps that ended.** -/
theorem ends_runSteps {asked : List (Asked Op Ans)} {x : Left Sc}
    (h : (Chain.runSteps subs sc out).Ends asked x) :
    ∃ vs, Visits subs sc vs ∧ asked = vs.flatMap Visit.asked ∧ x = Visit.left sc out vs := by
  induction subs generalizing sc out asked with
  | nil =>
    cases h
    exact ⟨[], .nil sc, rfl, rfl⟩
  | cons sub subs ih =>
    obtain ⟨before, after, o, rfl, hsub, h⟩ := ends_bind.mp h
    have hone : before = [(⟨sc, before, o⟩ : Visit Op Ans Sc)].flatMap Visit.asked := by simp
    cases he : o.err with
    | some e =>
      rw [he] at h
      cases h
      refine ⟨[⟨sc, before, o⟩], .last sub subs ⟨sc, before, o⟩ hsub ?_, ?_, ?_⟩
      · rintro ⟨hnone, -⟩
        cases he.symm.trans hnone
      · rw [List.append_nil]
        exact hone
      · simp [Visit.left, he]
    | none =>
      rw [he] at h
      dsimp only at h
      split at h
      next hstop =>
        cases h
        refine ⟨[⟨sc, before, o⟩], .last sub subs ⟨sc, before, o⟩ hsub ?_, ?_, ?_⟩
        · rintro ⟨-, hgo⟩
          cases hstop.symm.trans hgo
        · rw [List.append_nil]
          exact hone
        · simp [Visit.left, he]
      next hstop =>
        obtain ⟨vs, hvs, rfl, rfl⟩ := ih h
        refine ⟨⟨sc, before, o⟩ :: vs,
          .next sub subs ⟨sc, before, o⟩ vs hsub ⟨he, ?_⟩ hvs, rfl, ?_⟩
        · exact Bool.eq_false_iff.mpr hstop
        · simp [Visit.left, he]

/-- The steps that run if they are answered by `f`. -/
def visitsBy (f : (o : Op) → Ans o) :
    List (SubReconciler (Prog Op Ans) Sc) → Sc → List (Visit Op Ans Sc)
  | [], _ => []
  | sub :: subs, sc =>
    let v : Visit Op Ans Sc := ⟨sc, ((sub sc).answeredBy f).1, ((sub sc).answeredBy f).2⟩
    if v.GoesOn then v :: visitsBy f subs v.outcome.scope else [v]

theorem visits_visitsBy (f : (o : Op) → Ans o) (subs : List (SubReconciler (Prog Op Ans) Sc))
    (sc : Sc) : Visits subs sc (visitsBy f subs sc) := by
  induction subs generalizing sc with
  | nil => exact .nil sc
  | cons sub subs ih =>
    unfold visitsBy
    dsimp only
    split
    next hgo => exact .next sub subs _ _ (ends_answeredBy f (sub sc)) hgo (ih _)
    next hend => exact .last sub subs _ (ends_answeredBy f (sub sc)) hend

end Visits

/-! ## Finalizers -/

/-- The finalizers as they were, or with `own` added or taken away. -/
def OwnChange (own : String) (before after : List String) : Prop :=
  after = before ∨ after = before ++ [own] ∨ after = before.filter fun f => f ≠ own

/-- A controller's own finalizer, and where its scope has the object as fetched and the finalizers
    of the working copy. -/
structure Finalizing (Sc Obj : Type) where
  own : String
  original : Sc → Obj
  finalizers : Sc → List String

namespace Finalizing

variable {Op : Type} {Ans : Op → Type} {Sc Obj : Type} (v : Finalizing Sc Obj) {P : Op → Prop}

/-- Both are as they were. -/
structure Steady (sc sc' : Sc) : Prop where
  original : v.original sc' = v.original sc
  finalizers : v.finalizers sc' = v.finalizers sc

/-- What a step may leave: it changes the finalizers only if it stops the chain. -/
structure Footprint (sc : Sc) (o : Outcome Sc) : Prop where
  original : v.original o.scope = v.original sc
  finalizers : v.finalizers o.scope = v.finalizers sc ∨
    (o.result.stop = true ∧ OwnChange v.own (v.finalizers sc) (v.finalizers o.scope))

/-- What a chain leaves. -/
structure Changed (sc sc' : Sc) : Prop where
  original : v.original sc' = v.original sc
  finalizers : OwnChange v.own (v.finalizers sc) (v.finalizers sc')

variable {v}

theorem Steady.refl (sc : Sc) : v.Steady sc sc := ⟨rfl, rfl⟩

variable {sc : Sc}

theorem Steady.footprint {o : Outcome Sc} (h : v.Steady sc o.scope) : v.Footprint sc o :=
  ⟨h.original, .inl h.finalizers⟩

theorem within_steady {sc' : Sc} {res : Result} {err : Option String} (h : v.Steady sc sc') :
    Prog.Within P (v.Footprint sc) (pure ⟨sc', res, err⟩ : Prog Op Ans (Outcome Sc)) :=
  h.footprint

/-- A step after which the finalizers are the fetched ones, or the chain stops. -/
theorem Footprint.next {sc0 : Sc} {o : Outcome Sc} (hsc : v.Steady sc0 sc) (ho : v.Footprint sc o) :
    v.Changed sc0 o.scope ∧ (o.err = none → o.result.stop = false → v.Steady sc0 o.scope) := by
  have horig := ho.original.trans hsc.original
  rcases ho.finalizers with hf | ⟨hs, hf⟩
  · have hf := hf.trans hsc.finalizers
    exact ⟨⟨horig, .inl hf⟩, fun _ _ => ⟨horig, hf⟩⟩
  · rw [hsc.finalizers] at hf
    refine ⟨⟨horig, hf⟩, fun _ hstop => ?_⟩
    simp [hstop] at hs

/-- **A chain of such steps changes no finalizer but the controller's own.** -/
theorem within_chain (c : Chain (Prog Op Ans) Sc)
    (hsteps : ∀ sub ∈ c.steps, ∀ sc, (sub sc).Within P (v.Footprint sc))
    (hfinally : ∀ sub ∈ c.finally_, ∀ sc, (sub sc).Within P fun o => v.Steady sc o.scope)
    (sc0 : Sc) : (c.run sc0).Within P fun o => v.Changed sc0 o.scope := by
  refine within_run (I := v.Steady sc0) (fun sc h => ⟨h.original, .inl h.finalizers⟩) c
    (fun sub hsub sc hsc => ?_) (fun sub hsub sc hsc => ?_) (.refl sc0)
  · exact within_mono (fun o ho => ho.next hsc) (hsteps sub hsub sc)
  · refine within_mono (fun o ho => ⟨ho.original.trans hsc.original, ?_⟩)
      (hfinally sub hsub sc)
    rw [ho.finalizers]
    exact hsc.finalizers

end Finalizing

/-- The finalizers of others are as they were. -/
def SameOthers (own : String) (before after : List String) : Prop :=
  after.filter (fun f => f ≠ own) = before.filter fun f => f ≠ own

theorem OwnChange.sameOthers {own : String} {before after : List String}
    (h : OwnChange own before after) : SameOthers own before after := by
  rcases h with rfl | rfl | rfl
  · rfl
  · simp [SameOthers]
  · simp [SameOthers]

/-- What is stored under a name before and after a write: there was nothing and there is nothing, or
    the finalizers changed so; an object that is gone had none left. -/
def Spared (R : List String → List String → Prop) :
    Option (List String) → Option (List String) → Prop
  | none, after => after = none
  | some before, some after => R before after
  | some before, none => R before []

instance (own : String) (before after : List String) : Decidable (SameOthers own before after) :=
  inferInstanceAs (Decidable (_ = _))

instance (R : List String → List String → Prop) [DecidableRel R] :
    (before after : Option (List String)) → Decidable (Spared R before after)
  | none, after => inferInstanceAs (Decidable (after = none))
  | some before, some after => inferInstanceAs (Decidable (R before after))
  | some before, none => inferInstanceAs (Decidable (R before []))

theorem Spared.refl {R : List String → List String → Prop} (h : ∀ fs, R fs fs)
    (fs : Option (List String)) : Spared R fs fs := by
  cases fs with
  | none => rfl
  | some fs => exact h fs

end BatteryOperator
