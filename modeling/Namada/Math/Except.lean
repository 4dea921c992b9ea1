/-
# Computations that may fail

A bind of `Except` on a value runs the rest, on an error stops there; a bind
that succeeded ran its first step to a value. With these a chain of fallible
steps is read one step at a time, with no unfolding of the monad.
-/

import Mathlib

namespace Namada.Math

variable {ε α β : Type}

@[simp] theorem ok_bind (value : α) (next : α → Except ε β) :
    (Except.ok value >>= next) = next value := rfl

@[simp] theorem error_bind (err : ε) (next : α → Except ε β) :
    (Except.error err >>= next) = Except.error err := rfl

/-- A bind that succeeds ran its first step to a value. -/
theorem bind_eq_ok {first : Except ε α} {next : α → Except ε β} {result : β}
    (hbind : (first >>= next) = .ok result) :
    ∃ value, first = .ok value ∧ next value = .ok result := by
  cases first with
  | error err => cases hbind
  | ok value => exact ⟨value, rfl, hbind⟩

/-- A map that succeeds mapped a value. -/
theorem map_eq_ok {first : Except ε α} {f : α → β} {result : β} (hmap : first.map f = .ok result) :
    ∃ value, first = .ok value ∧ f value = result := by
  cases first with
  | error err => cases hmap
  | ok value => exact ⟨value, rfl, Except.ok.inj hmap⟩

/-- A map fails with exactly the errors of what it maps. -/
theorem map_eq_error_iff {first : Except ε α} {f : α → β} {err : ε} :
    first.map f = .error err ↔ first = .error err := by
  cases first <;> simp [Except.map]

/-- A step that gives back each element it is run on, run over a list of
images, gives back the list. -/
theorem mapM_map_eq_ok {step : β → Except ε α} {image : α → β} :
    ∀ {elements : List α}, (∀ element ∈ elements, step (image element) = .ok element) →
      (elements.map image).mapM step = .ok elements
  | [], _ => rfl
  | element :: rest, hstep => by
      have hhead := hstep element List.mem_cons_self
      have hrest := mapM_map_eq_ok fun other hother => hstep other (List.mem_cons_of_mem _ hother)
      rw [List.map_cons, List.mapM_cons, hhead, ok_bind, hrest]
      rfl

/-- Steps that all succeed give their values, each as `ok`. -/
theorem map_eq_map_ok_filterMap {γ : Type} {step : γ → Except ε α} :
    ∀ {inputs : List γ}, (∀ input ∈ inputs, ∃ value, step input = .ok value) →
      inputs.map step = (inputs.filterMap fun input => (step input).toOption).map .ok
  | [], _ => rfl
  | input :: rest, hall => by
      obtain ⟨value, hvalue⟩ := hall input List.mem_cons_self
      have hrest := map_eq_map_ok_filterMap fun other hother =>
        hall other (List.mem_cons_of_mem _ hother)
      rw [List.map_cons, List.filterMap_cons, hvalue, hrest]
      rfl

/-- A property of the accumulator that every successful step keeps holds of
the result of a fold that succeeds. -/
theorem foldlM_invariant {δ : Type} {step : α → δ → Except ε α} (invariant : α → Prop)
    (hstep : ∀ acc item next, invariant acc → step acc item = .ok next → invariant next) :
    ∀ {items : List δ} {init result : α}, invariant init →
      items.foldlM step init = .ok result → invariant result
  | [], _, _, hinit, hfold => by
      cases hfold
      exact hinit
  | item :: rest, init, _, hinit, hfold => by
      rw [List.foldlM_cons] at hfold
      obtain ⟨next, hnext, hrest⟩ := bind_eq_ok hfold
      exact foldlM_invariant invariant hstep (hstep init item next hinit hnext) hrest

/-- The same, for a property that also reads what is left of the list: each
successful step on an item keeps it for the items after. -/
theorem foldlM_invariant_rest {δ : Type} {step : α → δ → Except ε α}
    (invariant : List δ → α → Prop)
    (hstep : ∀ acc item rest next, invariant (item :: rest) acc → step acc item = .ok next →
      invariant rest next) :
    ∀ {items : List δ} {init result : α}, invariant items init →
      items.foldlM step init = .ok result → invariant [] result
  | [], _, _, hinit, hfold => by
      cases hfold
      exact hinit
  | item :: rest, init, _, hinit, hfold => by
      rw [List.foldlM_cons] at hfold
      obtain ⟨next, hnext, hrest⟩ := bind_eq_ok hfold
      exact foldlM_invariant_rest invariant hstep (hstep init item rest next hinit hnext) hrest

/-- A fold whose every successful step adds the weight of its item to a measure
of the accumulator adds their total weight. -/
theorem foldlM_measure {δ : Type} {step : α → δ → Except ε α} (measure : α → ℕ)
    (weight : δ → ℕ)
    (hstep : ∀ acc item next, step acc item = .ok next → measure next = measure acc + weight item) :
    ∀ {items : List δ} {init result : α}, items.foldlM step init = .ok result →
      measure result = measure init + (items.map weight).sum
  | [], _, _, hfold => by
      cases hfold
      simp
  | item :: rest, init, _, hfold => by
      rw [List.foldlM_cons] at hfold
      obtain ⟨next, hnext, hrest⟩ := bind_eq_ok hfold
      rw [foldlM_measure measure weight hstep hrest, hstep init item next hnext, List.map_cons,
        List.sum_cons, add_assoc]

/-- A `mapError` that succeeds ran its computation to the same value. -/
theorem mapError_eq_ok {δ : Type} {first : Except ε α} {f : ε → δ} {value : α}
    (hmap : first.mapError f = .ok value) : first = .ok value := by
  cases first with
  | error err => cases hmap
  | ok found =>
      cases hmap
      rfl

/-! ## Two computations in lockstep -/

/-- Two computations that succeed together, with related values, or fail
together, each with its own error. -/
def Lockstep {γ : Type} (related : α → γ → Prop) : Except ε α → Except ε γ → Prop
  | .ok first, .ok second => related first second
  | .error _, .error _ => True
  | _, _ => False

theorem Lockstep.ok {γ : Type} {related : α → γ → Prop} {first : α} {second : γ}
    (hrelated : related first second) :
    Lockstep related (.ok first : Except ε α) (.ok second : Except ε γ) := hrelated

theorem Lockstep.error {γ : Type} {related : α → γ → Prop} (first second : ε) :
    Lockstep related (.error first : Except ε α) (.error second : Except ε γ) := trivial

theorem Lockstep.imp {γ : Type} {related weaker : α → γ → Prop} {first : Except ε α}
    {second : Except ε γ} (hlockstep : Lockstep related first second)
    (himp : ∀ firstValue secondValue, related firstValue secondValue → weaker firstValue secondValue) :
    Lockstep weaker first second := by
  cases first <;> cases second
  · trivial
  · exact hlockstep.elim
  · exact hlockstep.elim
  · exact himp _ _ hlockstep

/-- Two folds whose steps go in lockstep go in lockstep. The relation may read
what is left of the list, as an invariant about the items still to come. -/
theorem foldlM_lockstep {γ δ : Type} {firstStep : α → δ → Except ε α}
    {secondStep : γ → δ → Except ε γ} {related : List δ → α → γ → Prop}
    (hstep : ∀ item rest first second, related (item :: rest) first second →
      Lockstep (related rest) (firstStep first item) (secondStep second item)) :
    ∀ {items : List δ} {first : α} {second : γ}, related items first second →
      Lockstep (related []) (items.foldlM firstStep first) (items.foldlM secondStep second)
  | [], _, _, hrelated => hrelated
  | item :: rest, first, second, hrelated => by
      have hhead := hstep item rest first second hrelated
      rw [List.foldlM_cons, List.foldlM_cons]
      cases hfirst : firstStep first item with
      | error firstErr =>
          cases hsecond : secondStep second item with
          | error secondErr => trivial
          | ok secondNext =>
              rw [hfirst, hsecond] at hhead
              exact hhead.elim
      | ok firstNext =>
          cases hsecond : secondStep second item with
          | error secondErr =>
              rw [hfirst, hsecond] at hhead
              exact hhead.elim
          | ok secondNext =>
              rw [hfirst, hsecond] at hhead
              exact foldlM_lockstep hstep hhead

end Namada.Math
