/-
  Subject:   A PROGRAM THAT RUNS ALONE. Nothing here names a particular program.

  Where nothing happens between two operations of a program, what a machine answers them with is
  `Served`, and the rules of `wp` hold with the equality as rely (`alone`): every fact is stable.

  * `wp_served` -- **a program that was served alone ends as `wp` says**, and every operation it
    asked for met the duty;
  * `serve` -- the run of a program alone, for a choice at each operation.
-/
import BatteryOperator.Lib.Answers
import BatteryOperator.Lib.RelyGuarantee

namespace BatteryOperator.Lib.Machine

variable {T F A Op : Type} {Ans : Op → Type} {σ : Type}

/-- The machine answers these operations of a thread, one after the other, and nothing else
    happens. -/
inductive Served (M : Machine T F A Op Ans σ) (t : T) : σ → List (Asked Op Ans) → σ → Prop where
  | nil (s : σ) : Served M t s [] s
  | cons (s s1 s2 : σ) (f : F) (o : Op) (r : Ans o) (rest : List (Asked Op Ans))
      (h : M.exec t f o s = some (r, s1)) (hrest : Served M t s1 rest s2) :
      Served M t s (⟨o, r⟩ :: rest) s2

/-- The specification of a program that runs alone, with a duty for each operation. -/
def alone (Duty : Op → Prop) : Spec T Op σ where
  Inv _ := True
  Pre _ o _ := Duty o
  Rely _ a b := a = b
  Idle _ _ := True

variable {M : Machine T F A Op Ans σ} {t : T} {Duty : Op → Prop} {α β : Type}

theorem stable_alone (P : σ → Prop) : Stable (alone Duty) t P := by
  intro s s' h hR _
  cases hR
  exact h

variable {p : Prog Op Ans α} {s : σ} {a : α}

/-- **A program that was served alone.** -/
theorem wp_served {Q : α → σ → Prop} {s' : σ} {asked : List (Asked Op Ans)}
    (h : wp M (alone Duty) t p Q s) (hends : p.Ends asked a) (hs : M.Served t s asked s') :
    (∀ e ∈ asked, Duty e.1) ∧ Q a s' := by
  induction hends generalizing s with
  | ret a =>
    cases hs
    exact ⟨nofun, h _ rfl trivial⟩
  | op o k r rest a _ ih =>
    cases hs with
    | cons _ s1 _ f _ _ _ hx hrest =>
      obtain ⟨hduty, hk⟩ := h s rfl trivial
      obtain ⟨hall, hq⟩ := ih (hk f r s1 hx trivial) hrest
      exact ⟨List.forall_mem_cons.mpr ⟨hduty, hall⟩, hq⟩

/-- The run of a program alone, with the machine's choice at each operation. -/
def serve (M : Machine T F A Op Ans σ) (t : T) (pick : Op → F) :
    Prog Op Ans α → σ → Option (List (Asked Op Ans) × α × σ)
  | .ret a, s => some ([], a, s)
  | .op o k, s =>
    match M.exec t (pick o) o s with
    | none => none
    | some (r, s1) => (serve M t pick (k r) s1).map fun x => (⟨o, r⟩ :: x.1, x.2)

theorem serve_spec {pick : Op → F} {s' : σ} {asked : List (Asked Op Ans)}
    (h : M.serve t pick p s = some (asked, a, s')) : p.Ends asked a ∧ M.Served t s asked s' := by
  induction p generalizing s asked with
  | ret b =>
    cases h
    exact ⟨.ret _, .nil _⟩
  | op o k ih =>
    unfold serve at h
    split at h
    · cases h
    next r s1 hx =>
      obtain ⟨⟨rest, b, s2⟩, hrest, he⟩ := Option.map_eq_some_iff.mp h
      cases he
      obtain ⟨hends, hserved⟩ := ih r hrest
      exact ⟨.op o k r rest a hends, .cons s s1 s' (pick o) o r rest hx hserved⟩

/-! ## The rules -/

theorem awp_done {Q : α → σ → Prop} (h : Q a s) : wp M (alone Duty) t (pure a) Q s :=
  wp_ret (stable_alone (Q a)) h fun _ _ hq => hq

theorem awp_seq {Q : β → σ → Prop} {k : α → Prog Op Ans β} {R : α → σ → Prop}
    (h : wp M (alone Duty) t p R s) (hk : ∀ a s', R a s' → wp M (alone Duty) t (k a) Q s') :
    wp M (alone Duty) t (p >>= k) Q s :=
  wp_seq (fun _ => rfl) h fun a s' _ hr => hk a s' hr

theorem awp_call {Q : β → σ → Prop} {o : Op} {k : Ans o → Prog Op Ans β} (hduty : Duty o)
    (hk : ∀ f r s', M.exec t f o s = some (r, s') → wp M (alone Duty) t (k r) Q s') :
    wp M (alone Duty) t (Prog.call o >>= k) Q s := by
  refine wp_call (P := fun s' => s' = s) (stable_alone _) rfl (fun _ _ _ => hduty) ?_
  intro s1 f r s2 _ he hx _
  rw [he] at hx
  exact hk f r s2 hx

theorem awp_loop {γ : Type} {I : List γ → β → σ → Prop} {f : β → γ → Prog Op Ans β} (l : List γ)
    (hf : ∀ c rest b s, I (c :: rest) b s → wp M (alone Duty) t (f b c) (I rest) s) {b : β}
    (h : I l b s) : wp M (alone Duty) t (l.foldlM f b) (I []) s :=
  wp_foldlM_rest (fun _ => rfl) (fun _ => stable_alone _) l hf h

end BatteryOperator.Lib.Machine
