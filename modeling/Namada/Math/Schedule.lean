/-
# Schedules of a parallel fold and reduce

A parallel fold followed by a reduce, as rayon's `try_fold` and `try_reduce`
run it, may split the items among accumulators in any way. It may also
combine the partial results in any grouping and add extra identities. A
`Schedule` is one such choice. Each leaf is an accumulator, started from the
identity and fed its items in order. Each node combines the results of two
smaller schedules. A leaf without items is an extra identity. A run stops at
the first step that fails.

Suppose each step adds its item to a content of the accumulator, and each
combination adds the two contents up. Then a run's result holds the
schedule's items, and the identity's content once for every leaf
(`run_ok_content`). If a failure is judged by the content it was reached at,
and a failure at a content is a failure at every larger one, then a failed
run also fails at the content of the whole schedule (`run_error`).

For work run in parallel, the cost of a multiset of amounts is the largest one
plus a share of the others (`parallelCost`). It grows with the multiset
(`parallelCost_mono`), and amounts of zero add nothing to it
(`parallelCost_add_zeros`).
-/

import Mathlib
import Namada.Math.Except

namespace Namada.Math

/-- A way a parallel fold and reduce may split and combine a sequence of
items: one accumulator fed the items of a leaf in order, or the combination of
two partial results. -/
inductive Schedule (α : Type)
  | fold (items : List α)
  | reduce (left right : Schedule α)
  deriving DecidableEq

namespace Schedule

variable {α β ε : Type}

/-- The items a schedule feeds, leaf by leaf. -/
def items : Schedule α → List α
  | fold items => items
  | reduce left right => left.items ++ right.items

/-- The number of accumulators a schedule starts from the identity. -/
def leaves : Schedule α → ℕ
  | fold _ => 1
  | reduce left right => left.leaves + right.leaves

/-- The run of a schedule: each leaf folds its items into the identity, and
each node combines its two results; the first failure ends the run. -/
def run (init : β) (step : β → α → Except ε β) (combine : β → β → Except ε β) : Schedule α → Except ε β
  | fold items => items.foldlM step init
  | reduce left right => do
    let first ← left.run init step combine
    let second ← right.run init step combine
    combine first second

/-! ## Contents -/

section Content

variable (init : β) (step : β → α → Except ε β) (combine : β → β → Except ε β)

/-- What the steps keep: an invariant, with a content to which each step adds
its item, and which each combination adds up. -/
structure Additive (inv : β → Prop) (content : β → Multiset α) : Prop where
  init : inv init
  step : ∀ acc item next, inv acc → step acc item = .ok next → inv next ∧ content next = item ::ₘ content acc
  combine : ∀ first second next, inv first → inv second → combine first second = .ok next →
    inv next ∧ content next = content first + content second

variable {init step combine} {inv : β → Prop} {content : β → Multiset α}

theorem foldlM_ok_content (hadd : Additive init step combine inv content) (items : List α) {acc result : β}
    (hinv : inv acc) (hrun : items.foldlM step acc = .ok result) :
    inv result ∧ content result = ↑items + content acc := by
  induction items generalizing acc with
  | nil =>
    cases hrun
    exact ⟨hinv, by simp⟩
  | cons item items ih =>
    rw [List.foldlM_cons] at hrun
    cases hstep : step acc item with
    | error err =>
      rw [hstep] at hrun
      cases hrun
    | ok next =>
      rw [hstep] at hrun
      obtain ⟨hnext, hcontent⟩ := hadd.step acc item next hinv hstep
      obtain ⟨hresult, hfinal⟩ := ih hnext hrun
      refine ⟨hresult, ?_⟩
      rw [hfinal, hcontent, Multiset.add_cons, ← Multiset.cons_add, Multiset.cons_coe]

/-- A run's result holds the schedule's items, and the identity's content once
for every leaf. -/
theorem run_ok_content (hadd : Additive init step combine inv content) (schedule : Schedule α) {result : β}
    (hrun : schedule.run init step combine = .ok result) :
    inv result ∧ content result = ↑schedule.items + schedule.leaves • content init := by
  induction schedule generalizing result with
  | fold items =>
    obtain ⟨hresult, hcontent⟩ := foldlM_ok_content hadd items hadd.init hrun
    exact ⟨hresult, by rw [hcontent, Schedule.items, Schedule.leaves, one_nsmul]⟩
  | reduce left right ihLeft ihRight =>
    -- both halves succeeded, and then their combination
    rw [run] at hrun
    cases hleft : left.run init step combine with
    | error err => rw [hleft] at hrun; cases hrun
    | ok first =>
      cases hright : right.run init step combine with
      | error err => rw [hleft, hright] at hrun; cases hrun
      | ok second =>
        rw [hleft, hright] at hrun
        obtain ⟨hfirst, hfirstContent⟩ := ihLeft hleft
        obtain ⟨hsecond, hsecondContent⟩ := ihRight hright
        obtain ⟨hresult, hcontent⟩ := hadd.combine first second result hfirst hsecond hrun
        refine ⟨hresult, ?_⟩
        rw [hcontent, hfirstContent, hsecondContent, Schedule.items, Schedule.leaves, ← Multiset.coe_add,
          add_nsmul]
        abel

/-- Every step and every combination that succeeds leaves a result with
`property`: so does every run of a schedule that takes a step. -/
theorem run_ok_of_ne_fold_nil (hadd : Additive init step combine inv content) (property : β → Prop)
    (hstepDone : ∀ acc item next, inv acc → step acc item = .ok next → property next)
    (hcombineDone : ∀ first second next, inv first → inv second → combine first second = .ok next →
      property next)
    (schedule : Schedule α) (hsteps : schedule ≠ .fold []) {result : β}
    (hrun : schedule.run init step combine = .ok result) : property result := by
  cases schedule with
  | fold items =>
    -- the last item's step gave the result
    obtain ⟨front, last, rfl⟩ := List.eq_nil_or_concat items |>.resolve_left (fun h => hsteps (h ▸ rfl))
    rw [run, List.concat_eq_append, List.foldlM_append] at hrun
    cases hfront : front.foldlM step init with
    | error err => rw [hfront] at hrun; cases hrun
    | ok acc =>
      rw [hfront, ok_bind, List.foldlM_cons] at hrun
      simp only [List.foldlM_nil, bind_pure] at hrun
      exact hstepDone acc last result (foldlM_ok_content hadd front hadd.init hfront).1 hrun
  | reduce left right =>
    rw [run] at hrun
    cases hleft : left.run init step combine with
    | error err => rw [hleft] at hrun; cases hrun
    | ok first =>
      cases hright : right.run init step combine with
      | error err => rw [hleft, hright] at hrun; cases hrun
      | ok second =>
        rw [hleft, hright] at hrun
        exact hcombineDone first second result (run_ok_content hadd left hleft).1
          (run_ok_content hadd right hright).1 hrun

end Content

/-! ## Failures -/

section Failure

variable {init : β} {step : β → α → Except ε β} {combine : β → β → Except ε β}
  {inv : β → Prop} {content : β → Multiset α}

/-- Failures judged by the content they were reached at, where a failure at a
content is one at every larger content. -/
structure Monotone (init : β) (step : β → α → Except ε β) (combine : β → β → Except ε β)
    (inv : β → Prop) (content : β → Multiset α) (fails : Multiset α → ε → Prop) : Prop where
  mono : ∀ smaller larger err, smaller ≤ larger → fails smaller err → fails larger err
  step : ∀ acc item err, inv acc → step acc item = .error err → fails (item ::ₘ content acc) err
  combine : ∀ first second err, inv first → inv second → combine first second = .error err →
    fails (content first + content second) err

variable {fails : Multiset α → ε → Prop}

theorem foldlM_error (hadd : Additive init step combine inv content)
    (hfails : Monotone init step combine inv content fails) (items : List α) {acc : β} {err : ε}
    (hinv : inv acc) (hrun : items.foldlM step acc = .error err) : fails (↑items + content acc) err := by
  induction items generalizing acc with
  | nil => cases hrun
  | cons item items ih =>
    rw [List.foldlM_cons] at hrun
    cases hstep : step acc item with
    | error stepErr =>
      -- the failing step's content is part of the leaf's
      rw [hstep] at hrun
      cases hrun
      refine hfails.mono _ _ _ ?_ (hfails.step acc item err hinv hstep)
      rw [← Multiset.cons_coe, Multiset.cons_add]
      exact Multiset.cons_le_cons _ (Multiset.le_add_left _ _)
    | ok next =>
      rw [hstep] at hrun
      obtain ⟨hnext, hcontent⟩ := hadd.step acc item next hinv hstep
      have hlater := ih hnext hrun
      rwa [hcontent, Multiset.add_cons, ← Multiset.cons_add, Multiset.cons_coe] at hlater

/-- A failed run fails at the content of the whole schedule. -/
theorem run_error (hadd : Additive init step combine inv content)
    (hfails : Monotone init step combine inv content fails) (schedule : Schedule α) {err : ε}
    (hrun : schedule.run init step combine = .error err) :
    fails (↑schedule.items + schedule.leaves • content init) err := by
  induction schedule with
  | fold items =>
    have hleaf := foldlM_error hadd hfails items hadd.init hrun
    rwa [Schedule.items, Schedule.leaves, one_nsmul]
  | reduce left right ihLeft ihRight =>
    -- the whole content, split as the two halves'
    have hsplit : ↑(reduce left right).items + (reduce left right).leaves • content init =
        (↑left.items + left.leaves • content init) + (↑right.items + right.leaves • content init) := by
      rw [Schedule.items, Schedule.leaves, ← Multiset.coe_add, add_nsmul]
      abel
    rw [run] at hrun
    cases hleft : left.run init step combine with
    | error leftErr =>
      rw [hleft] at hrun
      cases hrun
      rw [hsplit]
      exact hfails.mono _ _ _ (Multiset.le_add_right _ _) (ihLeft hleft)
    | ok first =>
      cases hright : right.run init step combine with
      | error rightErr =>
        rw [hleft, hright] at hrun
        cases hrun
        rw [hsplit]
        exact hfails.mono _ _ _ (Multiset.le_add_left _ _) (ihRight hright)
      | ok second =>
        rw [hleft, hright] at hrun
        obtain ⟨hfirst, hfirstContent⟩ := run_ok_content hadd left hleft
        obtain ⟨hsecond, hsecondContent⟩ := run_ok_content hadd right hright
        have hcombined := hfails.combine first second err hfirst hsecond hrun
        rwa [hfirstContent, hsecondContent, ← hsplit] at hcombined

end Failure

end Schedule

/-! ## The cost of parallel work -/

section ParallelCost

/-- The amounts other than the largest, added up. -/
def restSum (work : Multiset ℕ) : ℕ := work.sum - work.sup

/-- The cost of running amounts of work in parallel: the largest amount, plus
the share `1 / divider` of the others. -/
def parallelCost (divider : ℕ) (work : Multiset ℕ) : ℕ := work.sup + restSum work / divider

theorem sup_le_sum (work : Multiset ℕ) : work.sup ≤ work.sum :=
  Multiset.sup_le.mpr fun _ hmem => Multiset.le_sum_of_mem hmem

variable {work more : Multiset ℕ}

theorem restSum_mono (hle : work ≤ more) : restSum work ≤ restSum more := by
  obtain ⟨extra, rfl⟩ := Multiset.le_iff_exists_add.mp hle
  have hwork := sup_le_sum work
  have hextra := sup_le_sum extra
  rw [restSum, restSum, Multiset.sum_add, Multiset.sup_add]
  change work.sum - work.sup ≤ work.sum + extra.sum - max work.sup extra.sup
  omega

theorem parallelCost_mono (divider : ℕ) (hle : work ≤ more) :
    parallelCost divider work ≤ parallelCost divider more :=
  Nat.add_le_add (Multiset.sup_mono (Multiset.subset_of_le hle))
    (Nat.div_le_div_right (restSum_mono hle))

/-- The largest amount of work that bounds all the others is the largest. -/
theorem sup_cons_of_forall_le {top : ℕ} {rest : Multiset ℕ} (hle : ∀ amount ∈ rest, amount ≤ top) :
    (top ::ₘ rest).sup = top := by
  rw [Multiset.sup_cons]
  exact sup_eq_left.mpr (Multiset.sup_le.mpr hle)

theorem restSum_cons_of_forall_le {top : ℕ} {rest : Multiset ℕ} (hle : ∀ amount ∈ rest, amount ≤ top) :
    restSum (top ::ₘ rest) = rest.sum := by
  rw [restSum, sup_cons_of_forall_le hle, Multiset.sum_cons, Nat.add_sub_cancel_left]

theorem sup_add_zeros (work : Multiset ℕ) (count : ℕ) : (work + count • {0}).sup = work.sup := by
  have hzeros : (count • ({0} : Multiset ℕ)).sup = 0 := by
    rw [Multiset.nsmul_singleton]
    exact Nat.le_zero.mp (Multiset.sup_le.mpr fun amount hmem => (Multiset.eq_of_mem_replicate hmem).le)
  rw [Multiset.sup_add, hzeros]
  exact sup_bot_eq _

theorem restSum_add_zeros (work : Multiset ℕ) (count : ℕ) : restSum (work + count • {0}) = restSum work := by
  rw [restSum, restSum, sup_add_zeros, Multiset.sum_add, Multiset.sum_nsmul, Multiset.sum_singleton,
    nsmul_zero, Nat.add_zero]

/-- Amounts of zero add nothing to the cost. -/
theorem parallelCost_add_zeros (divider : ℕ) (work : Multiset ℕ) (count : ℕ) :
    parallelCost divider (work + count • {0}) = parallelCost divider work := by
  rw [parallelCost, parallelCost, sup_add_zeros, restSum_add_zeros]

end ParallelCost

end Namada.Math
