/-
  Subject:   Subreconcilers and their chain (internal/reconcile/chain.go), over the scope of one
             reconcile and the monad its steps run in.

  A step returns the scope it leaves, what it asks of the chain, and its error. Only whether there
  is an error, and its text, is kept of an error.
-/
import BatteryOperator.Time

namespace BatteryOperator

/-- `Result`: what a subreconciler asks of the chain. -/
structure Result where
  stop : Bool := false
  requeueAfter : Duration := 0
  deriving DecidableEq

/-- `Result.Merge`. -/
def Result.merge (r o : Result) : Result where
  stop := r.stop || o.stop
  requeueAfter :=
    if 0 < o.requeueAfter ∧ (r.requeueAfter ≤ 0 ∨ o.requeueAfter < r.requeueAfter) then
      o.requeueAfter
    else r.requeueAfter

/-- How a subreconciler ended. -/
structure Outcome (S : Type) where
  scope : S
  result : Result := {}
  err : Option String := none

/-- The chain is to stop. -/
abbrev Outcome.stopped {S : Type} (s : S) : Outcome S := { scope := s, result := { stop := true } }

/-- `SubReconciler`. -/
abbrev SubReconciler (m : Type → Type) (S : Type) := S → m (Outcome S)

/-- `Chain`. -/
structure Chain (m : Type → Type) (S : Type) where
  steps : List (SubReconciler m S)
  finally_ : List (SubReconciler m S)

/-- `errors.Join`: the texts of the errors there are, a line each. -/
def joinErrors (errs : List String) : Option String :=
  match errs with
  | [] => none
  | e :: es => some (es.foldl (fun acc e => acc ++ "\n" ++ e) e)

namespace Chain

variable {m : Type → Type} [Monad m] {S : Type}

/-- The first loop of `Run`: the steps in order, until one fails or stops the chain. -/
def runSteps : List (SubReconciler m S) → S → Result → m (S × Result × List String)
  | [], s, out => pure (s, out, [])
  | sub :: subs, s, out => do
      let o ← sub s
      let out := out.merge o.result
      match o.err with
      | some e => pure (o.scope, out, [e])
      | none => if o.result.stop then pure (o.scope, out, []) else runSteps subs o.scope out

/-- The second loop of `Run`: all of them, whatever they say. -/
def runFinally : List (SubReconciler m S) → S → Result → List String → m (S × Result × List String)
  | [], s, out, errs => pure (s, out, errs)
  | sub :: subs, s, out, errs => do
      let o ← sub s
      runFinally subs o.scope (out.merge { o.result with stop := false }) (errs ++ o.err.toList)

/-- `Chain.Run`. -/
def run (c : Chain m S) (s : S) : m (Outcome S) := do
  let (s, out, errs) ← runSteps c.steps s {}
  let (s, out, errs) ← runFinally c.finally_ s out errs
  pure ⟨s, out, joinErrors errs⟩

/-- `Steps`: a chain with nothing to run finally. -/
def ofSteps (steps : List (SubReconciler m S)) : Chain m S := ⟨steps, []⟩

/-- `Group.Reconcile`: the chain as one step of another, which keeps its `Stop` to itself. -/
def group (c : Chain m S) : SubReconciler m S := fun s => do
  let o ← c.run s
  pure { o with result := { o.result with stop := false } }

end Chain

end BatteryOperator
