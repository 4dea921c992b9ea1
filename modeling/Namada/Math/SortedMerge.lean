/-
# A sorted stream of changes over a sorted stream of values

Two streams of bindings, each strictly increasing in key: older values and
newer changes, walked in step the way an iterator over a database and one over
a log of uncommitted changes are merged. The smaller key goes first; on a tie
the change goes and the older value is dropped. A change resolves to a value
or to nothing, as a deletion does. The merged stream is strictly increasing
again (`increasing_mergeShadow`), and a point read of it is the read through
the changes: the key's change if it has one, its older value otherwise
(`lookup_mergeShadow`).
-/

import Mathlib

namespace Namada.Math

variable {κ α β ν : Type} [LinearOrder κ]

/-- Bindings strictly increasing in key. -/
def Increasing (entries : List (κ × ν)) : Prop :=
  entries.Pairwise fun first second => first.1 < second.1

/-- Every key of the bindings lies above `bound`. -/
def Above (bound : κ) (entries : List (κ × ν)) : Prop :=
  ∀ entry ∈ entries, bound < entry.1

theorem increasing_cons {key : κ} {value : ν} {rest : List (κ × ν)} :
    Increasing ((key, value) :: rest) ↔ Above key rest ∧ Increasing rest :=
  List.pairwise_cons

theorem Above.mono {lower bound : κ} {entries : List (κ × ν)} (hle : lower ≤ bound)
    (habove : Above bound entries) : Above lower entries :=
  fun entry hentry => lt_of_le_of_lt hle (habove entry hentry)

theorem above_cons {bound key : κ} {value : ν} {rest : List (κ × ν)} :
    Above bound ((key, value) :: rest) ↔ bound < key ∧ Above bound rest := by
  simp only [Above, List.forall_mem_cons]

theorem lookup_cons_of_ne {key other : κ} {value : ν} {rest : List (κ × ν)} (hne : key ≠ other) :
    ((other, value) :: rest).lookup key = rest.lookup key := by
  rw [List.lookup_cons, beq_eq_false_iff_ne.mpr hne]

/-- A key below every binding is bound to nothing. -/
theorem lookup_eq_none_of_above {key : κ} {entries : List (κ × ν)} (habove : Above key entries) :
    entries.lookup key = none := by
  induction entries with
  | nil => rfl
  | cons entry rest ih =>
    obtain ⟨hlt, hrest⟩ := above_cons.mp habove
    rw [lookup_cons_of_ne (ne_of_lt hlt), ih hrest]

/-- In bindings strictly increasing in key, a binding is there exactly when the
key reads as its value. -/
theorem mem_iff_lookup_eq {key : κ} {value : ν} {entries : List (κ × ν)} (hinc : Increasing entries) :
    (key, value) ∈ entries ↔ entries.lookup key = some value := by
  induction entries with
  | nil => simp
  | cons entry rest ih =>
    obtain ⟨entryKey, entryValue⟩ := entry
    obtain ⟨habove, hrest⟩ := increasing_cons.mp hinc
    by_cases hkey : key = entryKey
    · -- the head is the only binding of its key
      subst hkey
      -- a later binding of the head's key would lie above itself
      have hnot : (key, value) ∉ rest := fun hmem => lt_irrefl key (habove _ hmem)
      rw [List.lookup_cons_self, List.mem_cons, Prod.mk.injEq]
      constructor
      · rintro (⟨-, rfl⟩ | hmem)
        · rfl
        · exact absurd hmem hnot
      · intro hvalue
        exact Or.inl ⟨rfl, (Option.some.inj hvalue).symm⟩
    · rw [lookup_cons_of_ne hkey, List.mem_cons, ← ih hrest]
      simp [Prod.mk.injEq, hkey]

/-! ## The merge -/

/-- A resolved change in front of the rest of the stream: a value is emitted,
nothing is not. -/
def emit (key : κ) (resolved : Option α) (rest : List (κ × α)) : List (κ × α) :=
  match resolved with
  | some value => (key, value) :: rest
  | none => rest

variable (resolve : β → Option α)

/-- The older values with the newer changes over them: the smaller key first,
the change on a tie with the older value dropped. -/
def mergeShadow : List (κ × α) → List (κ × β) → List (κ × α)
  | older, [] => older
  | [], (key, change) :: newer => emit key (resolve change) (mergeShadow [] newer)
  | (oldKey, value) :: older, (key, change) :: newer =>
    if key < oldKey then emit key (resolve change) (mergeShadow ((oldKey, value) :: older) newer)
    else if key = oldKey then emit key (resolve change) (mergeShadow older newer)
    else (oldKey, value) :: mergeShadow older ((key, change) :: newer)
termination_by older newer => older.length + newer.length

/-- The read through the changes: the key's change, resolved, if it has one, its
older value otherwise. -/
def readThrough (older : List (κ × α)) (newer : List (κ × β)) (key : κ) : Option α :=
  match newer.lookup key with
  | some change => resolve change
  | none => older.lookup key

variable {resolve}

theorem above_emit {bound key : κ} {resolved : Option α} {rest : List (κ × α)} (hkey : bound < key)
    (hrest : Above bound rest) : Above bound (emit key resolved rest) := by
  cases resolved with
  | none => exact hrest
  | some value => exact above_cons.mpr ⟨hkey, hrest⟩

theorem increasing_emit {key : κ} {resolved : Option α} {rest : List (κ × α)} (habove : Above key rest)
    (hrest : Increasing rest) : Increasing (emit key resolved rest) := by
  cases resolved with
  | none => exact hrest
  | some value => exact increasing_cons.mpr ⟨habove, hrest⟩

theorem lookup_emit_of_ne {key other : κ} {resolved : Option α} {rest : List (κ × α)} (hne : other ≠ key) :
    (emit key resolved rest).lookup other = rest.lookup other := by
  cases resolved with
  | none => rfl
  | some value => exact lookup_cons_of_ne hne

theorem lookup_emit_self {key : κ} {resolved : Option α} {rest : List (κ × α)}
    (hrest : rest.lookup key = none) : (emit key resolved rest).lookup key = resolved := by
  cases resolved with
  | none => exact hrest
  | some value => exact List.lookup_cons_self

/-- The merge emits only keys of its two streams, so a bound below both is below
all it emits. -/
theorem above_mergeShadow {bound : κ} {older : List (κ × α)} {newer : List (κ × β)}
    (holder : Above bound older) (hnewer : Above bound newer) :
    Above bound (mergeShadow resolve older newer) := by
  fun_induction mergeShadow resolve older newer with
  | case1 older => exact holder
  | case2 key change newer ih =>
    obtain ⟨hkey, hrest⟩ := above_cons.mp hnewer
    exact above_emit hkey (ih holder hrest)
  | case3 oldKey value older key change newer hlt ih =>
    obtain ⟨hkey, hrest⟩ := above_cons.mp hnewer
    exact above_emit hkey (ih holder hrest)
  | case4 value older key change newer _ ih =>
    obtain ⟨hkey, hrest⟩ := above_cons.mp hnewer
    exact above_emit hkey (ih (above_cons.mp holder).2 hrest)
  | case5 oldKey value older key change newer _ _ ih =>
    obtain ⟨holdKey, holdRest⟩ := above_cons.mp holder
    exact above_cons.mpr ⟨holdKey, ih holdRest hnewer⟩

omit [LinearOrder κ] in
theorem mem_emit {key : κ} {resolved : Option α} {rest : List (κ × α)} {entry : κ × α}
    (hmem : entry ∈ emit key resolved rest) : entry.1 = key ∨ entry ∈ rest := by
  cases resolved with
  | none => exact Or.inr hmem
  | some value =>
    rcases List.mem_cons.mp hmem with hhead | hrest
    · exact Or.inl (by rw [hhead])
    · exact Or.inr hrest

/-- The merge emits only keys of its two streams. -/
theorem key_mem_of_mem_mergeShadow {older : List (κ × α)} {newer : List (κ × β)} {entry : κ × α}
    (hmem : entry ∈ mergeShadow resolve older newer) :
    entry.1 ∈ older.map Prod.fst ∨ entry.1 ∈ newer.map Prod.fst := by
  fun_induction mergeShadow resolve older newer with
  | case1 older => exact Or.inl (List.mem_map_of_mem hmem)
  | case2 key change newer ih =>
    rcases mem_emit hmem with hkey | hrest
    · exact Or.inr (by simp [hkey])
    · rcases ih hrest with hold | hnew
      · exact Or.inl hold
      · exact Or.inr (List.mem_cons_of_mem _ hnew)
  | case3 oldKey value older key change newer _ ih =>
    rcases mem_emit hmem with hkey | hrest
    · exact Or.inr (by simp [hkey])
    · rcases ih hrest with hold | hnew
      · exact Or.inl hold
      · exact Or.inr (List.mem_cons_of_mem _ hnew)
  | case4 value older key change newer _ ih =>
    rcases mem_emit hmem with hkey | hrest
    · exact Or.inr (by simp [hkey])
    · rcases ih hrest with hold | hnew
      · exact Or.inl (List.mem_cons_of_mem _ hold)
      · exact Or.inr (List.mem_cons_of_mem _ hnew)
  | case5 oldKey value older key change newer _ _ ih =>
    rcases List.mem_cons.mp hmem with hhead | hrest
    · exact Or.inl (by simp [hhead])
    · rcases ih hrest with hold | hnew
      · exact Or.inl (List.mem_cons_of_mem _ hold)
      · exact Or.inr hnew

/-- Merging two strictly increasing streams gives a strictly increasing one:
each emitted key is below both streams that are left. -/
theorem increasing_mergeShadow {older : List (κ × α)} {newer : List (κ × β)}
    (holder : Increasing older) (hnewer : Increasing newer) :
    Increasing (mergeShadow resolve older newer) := by
  fun_induction mergeShadow resolve older newer with
  | case1 older => exact holder
  | case2 key change newer ih =>
    obtain ⟨habove, hrest⟩ := increasing_cons.mp hnewer
    exact increasing_emit (above_mergeShadow (fun _ hmem => absurd hmem List.not_mem_nil) habove)
      (ih holder hrest)
  | case3 oldKey value older key change newer hlt ih =>
    obtain ⟨habove, hrest⟩ := increasing_cons.mp hnewer
    have holdAbove : Above key ((oldKey, value) :: older) :=
      above_cons.mpr ⟨hlt, (increasing_cons.mp holder).1.mono (le_of_lt hlt)⟩
    exact increasing_emit (above_mergeShadow holdAbove habove) (ih holder hrest)
  | case4 value older key change newer _ ih =>
    obtain ⟨habove, hrest⟩ := increasing_cons.mp hnewer
    obtain ⟨holdAbove, holdRest⟩ := increasing_cons.mp holder
    exact increasing_emit (above_mergeShadow holdAbove habove) (ih holdRest hrest)
  | case5 oldKey value older key change newer hnotLt hne ih =>
    have hlt : oldKey < key := lt_of_le_of_ne (not_lt.mp hnotLt) (Ne.symm hne)
    obtain ⟨holdAbove, holdRest⟩ := increasing_cons.mp holder
    have hnewAbove : Above oldKey ((key, change) :: newer) :=
      above_cons.mpr ⟨hlt, (increasing_cons.mp hnewer).1.mono (le_of_lt hlt)⟩
    exact increasing_cons.mpr ⟨above_mergeShadow holdAbove hnewAbove, ih holdRest hnewer⟩

/-- A point read of the merge is the read through the changes. -/
theorem lookup_mergeShadow {older : List (κ × α)} {newer : List (κ × β)}
    (holder : Increasing older) (hnewer : Increasing newer) (key : κ) :
    (mergeShadow resolve older newer).lookup key = readThrough resolve older newer key := by
  fun_induction mergeShadow resolve older newer with
  | case1 older => rfl
  | case2 newKey change newer ih =>
    obtain ⟨habove, hrest⟩ := increasing_cons.mp hnewer
    by_cases hkey : key = newKey
    · -- the change of the key, with nothing older and no later change of it
      subst hkey
      rw [lookup_emit_self, readThrough, List.lookup_cons_self]
      rw [ih holder hrest, readThrough, lookup_eq_none_of_above habove]
      rfl
    · rw [lookup_emit_of_ne hkey, ih holder hrest, readThrough, readThrough, lookup_cons_of_ne hkey]
  | case3 oldKey value older newKey change newer hlt ih =>
    obtain ⟨habove, hrest⟩ := increasing_cons.mp hnewer
    by_cases hkey : key = newKey
    · -- a change below the older stream, which has no value for its key
      subst hkey
      have holdAbove : Above key ((oldKey, value) :: older) :=
        above_cons.mpr ⟨hlt, (increasing_cons.mp holder).1.mono (le_of_lt hlt)⟩
      rw [lookup_emit_self, readThrough, List.lookup_cons_self]
      rw [ih holder hrest, readThrough, lookup_eq_none_of_above habove, lookup_eq_none_of_above holdAbove]
    · rw [lookup_emit_of_ne hkey, ih holder hrest, readThrough, readThrough, lookup_cons_of_ne hkey]
  | case4 value older newKey change newer _ ih =>
    obtain ⟨habove, hrest⟩ := increasing_cons.mp hnewer
    obtain ⟨holdAbove, holdRest⟩ := increasing_cons.mp holder
    by_cases hkey : key = newKey
    · -- the change wins the tie, and the older value is dropped
      subst hkey
      rw [lookup_emit_self, readThrough, List.lookup_cons_self]
      rw [ih holdRest hrest, readThrough, lookup_eq_none_of_above habove, lookup_eq_none_of_above holdAbove]
    · rw [lookup_emit_of_ne hkey, ih holdRest hrest, readThrough, readThrough, lookup_cons_of_ne hkey,
        lookup_cons_of_ne hkey]
  | case5 oldKey value older newKey change newer hnotLt hne ih =>
    have hlt : oldKey < newKey := lt_of_le_of_ne (not_lt.mp hnotLt) (Ne.symm hne)
    obtain ⟨_, holdRest⟩ := increasing_cons.mp holder
    by_cases hkey : key = oldKey
    · -- an older value below every change
      subst hkey
      have hnewAbove : Above key ((newKey, change) :: newer) :=
        above_cons.mpr ⟨hlt, (increasing_cons.mp hnewer).1.mono (le_of_lt hlt)⟩
      rw [List.lookup_cons_self, readThrough, lookup_eq_none_of_above hnewAbove, List.lookup_cons_self]
    · rw [lookup_cons_of_ne hkey, ih holdRest hnewer, readThrough, readThrough, lookup_cons_of_ne hkey]

end Namada.Math
