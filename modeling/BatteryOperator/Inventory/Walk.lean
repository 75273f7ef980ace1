/-
  Subject:   The steps of the inventory's chain that call battery about one Host after the other:
             Cordon, Register, Secure and Remove.

  A step goes by its picture of battery's Hosts, and each answer changes it. Whatever else is to be
  shown of the steps is shown of one call (`wp_walks`, `Walks.within`), and opens no step again.

  * `Scope.heard` -- the picture after an answer; `Scope.Calls` -- the calls of the steps;
  * `hostSteps_walk` -- **the steps make no other calls, and go by the answers**.
-/
import BatteryOperator.Inventory.Controller
import BatteryOperator.ReconcileLogic

namespace BatteryOperator.Inventory

open Lib Prog

/-- The scope once a call is answered: the picture takes the Host as answered, or loses it. -/
def Scope.heard (sc : Scope) : (o : Op) → o.Ans → Scope
  | .addHost host _, .ok got => sc.hold host.name got
  | .getHost name, .ok got => sc.hold name got
  | .updateHost host _, .ok got => sc.hold host.name got
  | .cordonHost name _, .ok got => sc.hold name got
  | .uncordonHost name, .ok got => sc.hold name got
  | .removeHost name, .ok _ => sc.drop name
  | .removeHost name, .error e => if e.kind = .notFound then sc.drop name else sc
  | _, _ => sc

/-- The Host is desired at this address. -/
def Scope.Wants (sc : Scope) (host : Host) : Prop :=
  ∃ D, sc.desired = some D ∧ D.lookup host.name = some host.address

/-- The calls of the steps: a Host that is desired is added and brought to its address, one that is
    not is cordoned, secured and removed. -/
def Scope.Calls (sc : Scope) : Op → Prop
  | .addHost host _ => sc.held.lookup host.name = none ∧ sc.Wants host
  | .getHost _ | .uncordonHost _ => True
  | .updateHost host _ => sc.Wants host ∨ sc.isDesired host.name = false
  | .cordonHost name _ | .removeHost name => sc.isDesired name = false
  | _ => False

/-- The scope `s` is the one the answers make, but for the failures. -/
def Same (s sc : Scope) : Prop := ∃ errs, s = { sc with errs := errs }

/-- A piece of a step walks from the scope `sc`. -/
abbrev Walk {α : Type} (scope : α → Scope) (p : Code α) (sc : Scope) : Prop :=
  p.Walks Scope.Calls Scope.heard (fun a sc => Same (scope a) sc) sc

variable {s sc : Scope} {name : String}

theorem heard_removed (sc : Scope) {e : BatteryError} (hk : e.kind = .notFound) :
    sc.heard (.removeHost name) (.error e) = sc.drop name := if_pos hk

theorem heard_refused (sc : Scope) {e : BatteryError} (hk : e.kind ≠ .notFound) :
    sc.heard (.removeHost name) (.error e) = sc := if_neg hk

/-- An answer changes the picture alone. -/
theorem heard_rest (sc : Scope) (o : Op) (a : o.Ans) :
    ∃ held, sc.heard o a = { sc with held := held } := by
  unfold Scope.heard
  split
  case h_7 => split <;> exact ⟨_, rfl⟩
  all_goals exact ⟨_, rfl⟩

theorem not_desired {p : Prop} (h : ¬ (p ∨ sc.isDesired name = true)) :
    sc.isDesired name = false := Bool.eq_false_iff.mpr fun hd => h (.inr hd)

theorem cordon_walk (h : Same s sc) : Walk id (cordon s name) sc := by
  obtain ⟨errs, rfl⟩ := h
  unfold cordon
  split
  · exact ⟨_, rfl⟩
  · split
    · exact ⟨_, rfl⟩
    next hno =>
      refine walks_call (not_desired hno) fun r => ?_
      cases r with
      | error | ok => exact ⟨_, rfl⟩

theorem uncordon_walk {host : Host} (h : Same s sc) : Walk Prod.fst (uncordon s host name) sc := by
  obtain ⟨errs, rfl⟩ := h
  unfold uncordon
  split
  · refine walks_call trivial fun r => ?_
    cases r with
    | error | ok => exact ⟨_, rfl⟩
  · exact ⟨_, rfl⟩

theorem bringInStep_walk {host want : Host} (hw : sc.Wants want) (h : Same s sc) :
    Walk Prod.fst (bringInStep s host want) sc := by
  unfold bringInStep
  split
  · refine walks_call (.inl hw) fun r => ?_
    obtain ⟨errs, rfl⟩ := h
    cases r with
    | error => exact ⟨_, rfl⟩
    | ok => exact uncordon_walk ⟨_, rfl⟩
  · exact uncordon_walk h

theorem register_walk {address : String} (hw : sc.Wants ⟨name, address, tls, false, ""⟩)
    (h : Same s sc) : Walk Prod.fst (register s name address) sc := by
  unfold register
  split
  · exact bringInStep_walk hw h
  next hnone =>
    obtain ⟨errs, rfl⟩ := h
    refine walks_call ⟨hnone, hw⟩ fun r => ?_
    cases r with
    | ok got => exact bringInStep_walk hw ⟨_, rfl⟩
    | error e =>
      dsimp only
      split
      · refine walks_call trivial fun r => ?_
        cases r with
        | error => exact ⟨_, rfl⟩
        | ok host => exact bringInStep_walk hw ⟨_, rfl⟩
      · exact ⟨_, rfl⟩

theorem registerNext_walk {D : Hosts} (hD : sc.desired = some D) (hm : name ∈ D)
    (h : Same s sc) : Walk id (registerNext D s name) sc := by
  obtain ⟨d, hd⟩ := Option.isSome_iff_exists.mp (AList.lookup_isSome.mpr hm)
  have hw : sc.Wants ⟨name, entry D name, tls, false, ""⟩ := by
    refine ⟨D, hD, hd.trans ?_⟩
    unfold entry
    rw [hd]
    rfl
  refine walks_bind (register_walk hw h) fun x sc' hx => ?_
  obtain ⟨s', err⟩ := x
  obtain ⟨errs, rfl⟩ := hx
  cases err with
  | some | none => exact ⟨_, rfl⟩

theorem secure_walk (h : Same s sc) : Walk id (secure s name) sc := by
  obtain ⟨errs, rfl⟩ := h
  unfold secure
  split
  · exact ⟨_, rfl⟩
  · split
    · exact ⟨_, rfl⟩
    next hno =>
      refine walks_call (.inr (not_desired fun hn => hno hn.symm)) fun r => ?_
      cases r with
      | ok => exact ⟨_, rfl⟩
      | error e =>
        dsimp only
        split <;> exact ⟨_, rfl⟩

theorem remove_walk {o : Options} {live : List String} {res : Result} (h : Same s sc) :
    Walk Prod.fst (remove o live (s, res) name) sc := by
  obtain ⟨errs, rfl⟩ := h
  unfold remove
  dsimp only
  split
  · exact ⟨_, rfl⟩
  · split
    · exact ⟨_, rfl⟩
    next hno =>
      refine walks_call (not_desired fun hn => hno (.inr hn)) fun r => ?_
      cases r with
      | ok => exact ⟨_, rfl⟩
      | error e =>
        dsimp only
        split
        next hk =>
          rw [heard_removed _ hk]
          exact ⟨_, rfl⟩
        next hk =>
          rw [heard_refused _ hk]
          split <;> exact ⟨_, rfl⟩

/-- The steps. -/
def hostSteps (o : Options) : List (SubReconciler Code Scope) :=
  [Cordon.reconcile, Register.reconcile, Secure.reconcile, Remove.reconcile o]

/-- A loop over Hosts, as a step. -/
theorem loop_walk {γ : Type} (scope : γ → Scope) {f : γ → String → Code γ} {names : List String}
    (hf : ∀ n c sc, Same (scope c) sc → Walk scope (f c n) sc) {c : γ}
    {out : γ → Outcome Scope} (hout : ∀ c, (out c).scope = scope c) (h : Same (scope c) sc) :
    Walk Outcome.scope (names.foldlM f c >>= fun c => pure (out c)) sc := by
  refine walks_bind (walks_foldlM names (fun n _ c sc h => hf n c sc h) h) fun c sc h => ?_
  show Same (out c).scope sc
  rw [hout]
  exact h

/-- **Each of the steps.** -/
theorem hostSteps_walk {o : Options} {sub : SubReconciler Code Scope} (hsub : sub ∈ hostSteps o)
    (sc : Scope) : Walk Outcome.scope (sub sc) sc := by
  simp only [hostSteps, List.mem_cons, List.not_mem_nil, or_false] at hsub
  rcases hsub with rfl | rfl | rfl | rfl
  · exact loop_walk id (fun _ _ _ h => cordon_walk h) (fun _ => rfl) ⟨_, rfl⟩
  · refine walks_bind (Q := fun s sc' => Same s sc' ∧ sc'.desired = sc.desired)
      (walks_foldlM _ (fun n hn s sc' h => ?_) ⟨⟨_, rfl⟩, rfl⟩) fun s sc' h => h.1
    have hm := Dict.mem_sortedKeys.mp hn
    refine Walks.keeps (fun g o r hg => ?_) ?_ h.2
    · obtain ⟨held, he⟩ := heard_rest g o r
      rw [he]
      exact hg
    · cases hD : sc.desired with
      | none =>
        rw [hD] at hm
        exact absurd hm (AList.notMem_empty _)
      | some D =>
        rw [hD] at hm
        exact registerNext_walk (h.2.trans hD) hm h.1
  · exact loop_walk id (fun _ _ _ h => secure_walk h) (fun _ => rfl) ⟨_, rfl⟩
  · exact loop_walk Prod.fst (fun _ _ _ h => remove_walk h) (fun _ => rfl) ⟨_, rfl⟩

end BatteryOperator.Inventory
