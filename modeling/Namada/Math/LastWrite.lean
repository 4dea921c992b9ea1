/-
# Chronological logs and the finite maps that summarize them

A log records writes in the order they happened; a key-value map keeps only
the last write of each key. The map obtained by inserting each write, or by
overlaying one map on another (a left-biased union, the semantics of
`HashMap::extend` read from the right), answers lookups exactly as the log's
last write does. The lemmas here state that correspondence once, so that a
store built from hash maps can be compared with an append-only log of its
operations.
-/

import Mathlib

namespace Namada.Math

universe u v

variable {κ : Type u} {ν : Type v}

/-- The value of the most recent write to `key` in a chronological log. -/
def lastWrite [DecidableEq κ] (log : List (κ × ν)) (key : κ) : Option ν :=
  (log.reverse.find? fun entry => entry.1 = key).map Prod.snd

section LastWrite

variable [DecidableEq κ]

@[simp]
theorem lastWrite_nil (key : κ) : lastWrite ([] : List (κ × ν)) key = none := rfl

/-- Later writes shadow earlier ones. -/
theorem lastWrite_append (first second : List (κ × ν)) (key : κ) :
    lastWrite (first ++ second) key = (lastWrite second key).or (lastWrite first key) := by
  unfold lastWrite
  rw [List.reverse_append, List.find?_append]
  cases second.reverse.find? (fun entry => entry.1 = key) <;> rfl

@[simp]
theorem lastWrite_append_singleton (log : List (κ × ν)) (written key : κ) (value : ν) :
    lastWrite (log ++ [(written, value)]) key =
      if written = key then some value else lastWrite log key := by
  rw [lastWrite_append]
  by_cases hkey : written = key <;> simp [lastWrite, hkey]

end LastWrite

/-- A finite map summarizes a log when every lookup returns the log's last write. -/
def Summarizes [DecidableEq κ] (map : AList (fun _ : κ => ν)) (log : List (κ × ν)) : Prop :=
  ∀ key, map.lookup key = lastWrite log key

section Lookup

variable [DecidableEq κ]

/-- Lookup in a left-biased union falls back to the right map. -/
theorem lookup_union_or (first second : AList (fun _ : κ => ν)) (key : κ) :
    (first ∪ second).lookup key = (first.lookup key).or (second.lookup key) := by
  by_cases hmem : key ∈ first
  · rw [AList.lookup_union_left hmem]
    obtain ⟨value, hvalue⟩ := Option.isSome_iff_exists.mp (AList.lookup_isSome.mpr hmem)
    simp [hvalue]
  · rw [AList.lookup_union_right hmem, AList.lookup_eq_none.mpr hmem]
    rfl

/-- Lookup after an insertion sees the inserted value at its own key only. -/
theorem lookup_insert_eq_ite (map : AList (fun _ : κ => ν)) (written key : κ) (value : ν) :
    (map.insert written value).lookup key =
      if written = key then some value else map.lookup key := by
  by_cases hkey : written = key
  · subst hkey
    simp [AList.lookup_insert]
  · rw [if_neg hkey, AList.lookup_insert_ne (Ne.symm hkey)]

end Lookup

section Summarizes

variable [DecidableEq κ]

theorem summarizes_empty : Summarizes (∅ : AList (fun _ : κ => ν)) [] := fun key => by
  simp [AList.lookup_empty]

/-- Inserting a write into the map appends it to the log. -/
theorem Summarizes.insert {map : AList (fun _ : κ => ν)} {log : List (κ × ν)}
    (hsum : Summarizes map log) (written : κ) (value : ν) :
    Summarizes (map.insert written value) (log ++ [(written, value)]) := fun key => by
  rw [lookup_insert_eq_ite, lastWrite_append_singleton, hsum key]

/-- Overlaying `newer` on `older` appends the newer log after the older one. -/
theorem Summarizes.union {newer older : AList (fun _ : κ => ν)}
    {newerLog olderLog : List (κ × ν)}
    (hnewer : Summarizes newer newerLog) (holder : Summarizes older olderLog) :
    Summarizes (newer ∪ older) (olderLog ++ newerLog) := fun key => by
  rw [lookup_union_or, lastWrite_append, hnewer key, holder key]

end Summarizes

end Namada.Math
