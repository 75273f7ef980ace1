/-
  Subject:   ONE DIRECTION OF AN ORDERED STREAM. Nothing here names a particular program.

  One end puts messages on the stream, the other takes them off in the same order. A stream may
  break at any time, and what was not taken off by then is lost; so what was taken off is a prefix
  of what was put on, and that is all the two ends may count on. The prefix is a field of `Pipe`.

  * `send`, `take` -- the two ends; `take_eq_some` -- **what a message taken off says**;
  * `drained` -- nothing is on its way; then both ends have the same (`got_of_drained`).
-/
import Mathlib.Data.List.Infix

namespace BatteryOperator.Lib

/-- What one end put on the stream, and what the other end has taken off it. -/
structure Pipe (α : Type) where
  sent : List α
  got : List α
  ordered : got <+: sent

namespace Pipe

variable {α : Type} {p q : Pipe α} {a : α}

/-- A stream that nothing was put on. -/
def empty : Pipe α := ⟨[], [], List.nil_prefix⟩

/-- One message more is put on. -/
def send (p : Pipe α) (a : α) : Pipe α where
  sent := p.sent ++ [a]
  got := p.got
  ordered := p.ordered.trans (List.prefix_append _ _)

@[simp] theorem sent_send : (p.send a).sent = p.sent ++ [a] := rfl

@[simp] theorem got_send : (p.send a).got = p.got := rfl

/-- The element after a prefix prolongs it. -/
theorem concat_prefix {l m : List α} (h : l <+: m) (ha : m[l.length]? = some a) :
    l ++ [a] <+: m := by
  obtain ⟨t, rfl⟩ := h
  rw [List.getElem?_append_right (Nat.le_refl _), Nat.sub_self] at ha
  cases t with
  | nil => cases ha
  | cons b t =>
    have hb : b = a := Option.some.inj ha
    subst hb
    exact ⟨t, by simp⟩

/-- The next message is taken off, if there is one. -/
def take (p : Pipe α) : Option (α × Pipe α) :=
  match h : p.sent[p.got.length]? with
  | none => none
  | some a => some (a, ⟨p.sent, p.got ++ [a], concat_prefix p.ordered h⟩)

/-- **A message taken off** is the next one; nothing else changes. -/
theorem take_eq_some (h : p.take = some (a, q)) : q.sent = p.sent ∧ q.got = p.got ++ [a] := by
  unfold take at h
  split at h
  · cases h
  · cases h
    exact ⟨rfl, rfl⟩

/-- Everything put on was taken off. -/
def drained (p : Pipe α) : Bool := p.got.length = p.sent.length

theorem got_of_drained (h : p.drained = true) : p.got = p.sent :=
  p.ordered.eq_of_length (of_decide_eq_true h)

end Pipe

end BatteryOperator.Lib
