/-
  Subject:   FINITE MAPS. Nothing here names a particular program.

  A `Dict` is an association list without double keys; what can be asked of it is `lookup`.

  * `lookup_insert_eq`, `lookup_erase_eq` -- what an insertion and a removal leave, at every key;
  * `same`, `same_iff` -- two maps with the same entries, in any order;
  * `filterMap`, `lookup_filterMap` -- the entries that a function maps to a value;
  * `sortedKeys` -- the keys in order, each once.
-/
import Mathlib.Data.List.AList
import Mathlib.Data.List.Sort
import Mathlib.Data.String.Basic

namespace BatteryOperator.Lib

/-- A finite map. -/
abbrev Dict (κ α : Type) := AList fun _ : κ => α

namespace Dict

variable {κ α β : Type} [DecidableEq κ]

theorem lookup_insert_eq (d : Dict κ α) (k k' : κ) (a : α) :
    (AList.insert k a d).lookup k' = if k' = k then some a else d.lookup k' := by
  split
  next h =>
    subst h
    exact AList.lookup_insert d
  next h => exact AList.lookup_insert_ne h

theorem lookup_erase_eq (d : Dict κ α) (k k' : κ) :
    (AList.erase k d).lookup k' = if k' = k then none else d.lookup k' := by
  split
  next h =>
    subst h
    exact AList.lookup_erase _ d
  next h => exact AList.lookup_erase_ne h

/-- The same value at every key. -/
def same [DecidableEq α] (d d' : Dict κ α) : Bool :=
  (d.keys ++ d'.keys).all fun k => d.lookup k = d'.lookup k

theorem same_iff [DecidableEq α] {d d' : Dict κ α} :
    d.same d' = true ↔ ∀ k, d.lookup k = d'.lookup k := by
  unfold same
  simp only [List.all_eq_true, List.mem_append, decide_eq_true_eq]
  constructor
  · intro h k
    by_cases hk : k ∈ d.keys ∨ k ∈ d'.keys
    · exact h k hk
    · rw [not_or] at hk
      rw [AList.lookup_eq_none.mpr fun hm => hk.1 (AList.mem_keys.mp hm),
        AList.lookup_eq_none.mpr fun hm => hk.2 (AList.mem_keys.mp hm)]
  · intro h k _
    exact h k

/-! ## 1. Mapping the entries -/

/-- The entry of a key, mapped. -/
def mapEntry (f : κ → α → Option β) (e : Sigma fun _ : κ => α) : Option (Sigma fun _ : κ => β) :=
  (f e.1 e.2).map (Sigma.mk e.1)

omit [DecidableEq κ] in
theorem mapEntry_key {f : κ → α → Option β} {e : Sigma fun _ : κ => α}
    {e' : Sigma fun _ : κ => β} (h : mapEntry f e = some e') : e'.1 = e.1 := by
  obtain ⟨b, _, rfl⟩ := Option.map_eq_some_iff.mp h
  rfl

omit [DecidableEq κ] in
theorem keys_filterMap_sublist (f : κ → α → Option β) (l : List (Sigma fun _ : κ => α)) :
    (l.filterMap (mapEntry f)).keys.Sublist l.keys := by
  induction l with
  | nil => exact List.Sublist.refl _
  | cons e l ih =>
    rw [List.keys_cons]
    cases he : mapEntry f e with
    | none =>
      rw [List.filterMap_cons_none he]
      exact ih.cons e.1
    | some e' =>
      rw [List.filterMap_cons_some he, List.keys_cons, mapEntry_key he]
      exact ih.cons_cons e.1

/-- The entries that `f` maps to a value. -/
def filterMap (f : κ → α → Option β) (d : Dict κ α) : Dict κ β :=
  ⟨d.entries.filterMap (mapEntry f), (keys_filterMap_sublist f d.entries).nodup d.nodupKeys⟩

theorem lookup_filterMap (f : κ → α → Option β) (d : Dict κ α) (k : κ) :
    (d.filterMap f).lookup k = (d.lookup k).bind (f k) := by
  obtain ⟨l, hl⟩ := d
  show List.dlookup k (l.filterMap (mapEntry f)) = (List.dlookup k l).bind (f k)
  induction l with
  | nil => rfl
  | cons e l ih =>
    obtain ⟨k', a⟩ := e
    rw [List.nodupKeys_cons] at hl
    have ih := ih hl.2
    by_cases hk : k = k'
    · subst hk
      rw [List.dlookup_cons_eq]
      cases hf : f k a with
      | none =>
        -- the key's only entry is dropped
        have hnone : List.dlookup k l = none := List.dlookup_eq_none.mpr hl.1
        rw [List.filterMap_cons_none (by simp [mapEntry, hf]), ih, hnone]
        simp [hf]
      | some b =>
        rw [List.filterMap_cons_some (b := ⟨k, b⟩) (by simp [mapEntry, hf]),
          List.dlookup_cons_eq]
        simp [hf]
    · rw [List.dlookup_cons_ne _ _ hk]
      cases hf : f k' a with
      | none => rw [List.filterMap_cons_none (by simp [mapEntry, hf]), ih]
      | some b =>
        rw [List.filterMap_cons_some (b := ⟨k', b⟩) (by simp [mapEntry, hf]),
          List.dlookup_cons_ne _ _ hk, ih]

/-! ## 2. The keys -/

/-- The keys in order. -/
def sortedKeys (d : Dict String α) : List String := d.keys.insertionSort (· ≤ ·)

theorem mem_sortedKeys {d : Dict String α} {k : String} : k ∈ d.sortedKeys ↔ k ∈ d := by
  unfold sortedKeys
  rw [List.mem_insertionSort]
  exact AList.mem_keys.symm

end Dict

end BatteryOperator.Lib
