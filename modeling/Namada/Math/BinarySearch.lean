/-
# Binary search by comparison, and insertion at its answer

A slice is searched with a comparison function the way `binary_search_by` of
the Rust standard library (1.76, the repository's toolchain) does it. A window
`[left, right)` starts as the whole list and is cut at its midpoint until the
comparison says equal or the window is empty. The comparisons must be
partitioned along the list: an element compares less when a later one does,
and greater when an earlier one does. Then an empty window ends at the place
where everything before compares less and everything after compares greater
(`binarySearchBy_spec`). That is where a missing key is inserted
(`pairwise_insertIdx`). A found index compares equal.
-/

import Mathlib

namespace Namada.Math

variable {α κ : Type}

/-- Comparisons partitioned along the list: an element compares less when a
later one does, and greater when an earlier one does. -/
def Partitioned (cmp : α → Ordering) (xs : List α) : Prop :=
  xs.Pairwise fun earlier later =>
    (cmp later = .lt → cmp earlier = .lt) ∧ (cmp earlier = .gt → cmp later = .gt)

/-- The `while left < right` loop of `binary_search_by`, on the window
`[left, right)`. -/
def binarySearchLoop (xs : List α) (cmp : α → Ordering) (left right : ℕ) : Except ℕ ℕ :=
  if left < right then
    let mid := left + (right - left) / 2
    match xs[mid]? with
    | some element =>
      match cmp element with
      | .lt => binarySearchLoop xs cmp (mid + 1) right
      | .gt => binarySearchLoop xs cmp left mid
      | .eq => .ok mid
    -- the window never leaves the list, so the midpoint is always in it
    | none => .error left
  else .error left
termination_by right - left

/-- `binary_search_by`: `Ok` of an index that compares equal, or `Err` of the
place where such an element would go. -/
def binarySearchBy (xs : List α) (cmp : α → Ordering) : Except ℕ ℕ :=
  binarySearchLoop xs cmp 0 xs.length

/-- `binary_search_by_key`: the search for `key` among the keys `f` gives. -/
def binarySearchByKey [Ord κ] (xs : List α) (key : κ) (f : α → κ) : Except ℕ ℕ :=
  binarySearchBy xs fun element => compare (f element) key

@[simp] theorem binarySearchBy_nil (cmp : α → Ordering) : binarySearchBy [] cmp = .error 0 := by
  rw [binarySearchBy, binarySearchLoop]
  rfl

/-! ## The window -/

/-- The invariant of the loop: the window lies in the list, everything before
it compares less and everything after it compares greater. -/
structure Window (xs : List α) (cmp : α → Ordering) (left right : ℕ) : Prop where
  le : left ≤ right
  right_le : right ≤ xs.length
  below : ∀ (index : ℕ) (hindex : index < xs.length), index < left → cmp xs[index] = .lt
  above : ∀ (index : ℕ) (hindex : index < xs.length), right ≤ index → cmp xs[index] = .gt

theorem window_whole (xs : List α) (cmp : α → Ordering) : Window xs cmp 0 xs.length :=
  ⟨Nat.zero_le _, Nat.le_refl _, fun _ _ hlt => absurd hlt (Nat.not_lt_zero _),
    fun _ hindex hle => absurd hindex (Nat.not_lt.mpr hle)⟩

section Step

variable {xs : List α} {cmp : α → Ordering} {left right mid : ℕ}

/-- A midpoint that compares less moves the window's left end past it. -/
theorem Window.of_lt (hpart : Partitioned cmp xs) (hwindow : Window xs cmp left right)
    (hmid : mid < right) (hleft : left ≤ mid) (hin : mid < xs.length) (hcmp : cmp xs[mid] = .lt) :
    Window xs cmp (mid + 1) right := by
  refine ⟨by omega, hwindow.right_le, fun index hindex hlt => ?_, hwindow.above⟩
  rcases Nat.lt_succ_iff_lt_or_eq.mp hlt with hbefore | rfl
  · exact ((List.pairwise_iff_getElem.mp hpart) index mid hindex _ hbefore).1 hcmp
  · exact hcmp

/-- A midpoint that compares greater moves the window's right end to it. -/
theorem Window.of_gt (hpart : Partitioned cmp xs) (hwindow : Window xs cmp left right)
    (hleft : left ≤ mid) (hin : mid < xs.length) (hcmp : cmp xs[mid] = .gt) :
    Window xs cmp left mid := by
  refine ⟨hleft, Nat.le_of_lt hin, hwindow.below, fun index hindex hle => ?_⟩
  rcases Nat.lt_or_eq_of_le hle with hafter | rfl
  · exact ((List.pairwise_iff_getElem.mp hpart) mid index _ hindex hafter).2 hcmp
  · exact hcmp

/-- At an empty window, everything before compares less. -/
theorem Window.forall_mem_take (hwindow : Window xs cmp left left) :
    ∀ element ∈ xs.take left, cmp element = .lt := by
  intro element hmem
  obtain ⟨index, hindex, rfl⟩ := List.getElem_of_mem hmem
  rw [List.getElem_take]
  exact hwindow.below index _ (by simp at hindex; omega)

/-- At an empty window, everything after compares greater. -/
theorem Window.forall_mem_drop (hwindow : Window xs cmp left left) :
    ∀ element ∈ xs.drop left, cmp element = .gt := by
  intro element hmem
  obtain ⟨index, hindex, rfl⟩ := List.getElem_of_mem hmem
  rw [List.getElem_drop]
  exact hwindow.above (left + index) _ (Nat.le_add_right left index)

end Step

/-- What a search answers: an index that compares equal, or a place with
everything before it less and everything after it greater. -/
def SearchAnswer (xs : List α) (cmp : α → Ordering) : Except ℕ ℕ → Prop
  | .ok index => ∃ hindex : index < xs.length, cmp xs[index] = .eq
  | .error index => Window xs cmp index index

theorem binarySearchLoop_spec {xs : List α} {cmp : α → Ordering} (hpart : Partitioned cmp xs)
    {left right : ℕ} (hwindow : Window xs cmp left right) :
    SearchAnswer xs cmp (binarySearchLoop xs cmp left right) := by
  -- induction along the loop, the window invariant handed to each recursive call
  fun_induction binarySearchLoop xs cmp left right with
  | case1 left right hlt mid element hget hcmp ih =>
    obtain ⟨hmidLt, rfl⟩ := List.getElem?_eq_some_iff.mp hget
    exact ih (hwindow.of_lt hpart (by omega) (by omega) hmidLt hcmp)
  | case2 left right hlt mid element hget hcmp ih =>
    obtain ⟨hmidLt, rfl⟩ := List.getElem?_eq_some_iff.mp hget
    exact ih (hwindow.of_gt hpart (by omega) hmidLt hcmp)
  | case3 left right hlt mid element hget hcmp =>
    obtain ⟨hmidLt, rfl⟩ := List.getElem?_eq_some_iff.mp hget
    exact ⟨hmidLt, hcmp⟩
  | case4 left right hlt mid hget =>
    -- the midpoint lies inside the window, which lies inside the list
    have hin : mid < xs.length := by have := hwindow.right_le; omega
    rw [List.getElem?_eq_getElem hin] at hget
    exact absurd hget (Option.some_ne_none _)
  | case5 left right hge =>
    obtain rfl : left = right := Nat.le_antisymm hwindow.le (Nat.not_lt.mp hge)
    exact hwindow

theorem binarySearchBy_spec {xs : List α} {cmp : α → Ordering} (hpart : Partitioned cmp xs) :
    SearchAnswer xs cmp (binarySearchBy xs cmp) :=
  binarySearchLoop_spec hpart (window_whole xs cmp)

/-! ## Searching by key -/

section ByKey

variable [LinearOrder κ] {xs : List α} {f : α → κ} {key : κ}

/-- Keys that ascend partition the comparisons with any key. -/
theorem partitioned_of_pairwise (hsorted : xs.Pairwise fun earlier later => f earlier ≤ f later) :
    Partitioned (fun element => compare (f element) key) xs := by
  refine hsorted.imp fun {earlier later} hle => ⟨fun hlt => ?_, fun hgt => ?_⟩
  · rw [compare_lt_iff_lt] at hlt ⊢
    exact lt_of_le_of_lt hle hlt
  · rw [compare_gt_iff_gt] at hgt ⊢
    exact lt_of_lt_of_le hgt hle

/-- A key that no element has is not found. -/
theorem binarySearchByKey_eq_error (hsorted : xs.Pairwise fun earlier later => f earlier ≤ f later)
    (hmissing : ∀ element ∈ xs, f element ≠ key) :
    ∃ place, binarySearchByKey xs key f = .error place ∧
      Window xs (fun element => compare (f element) key) place place := by
  have hpart : Partitioned (fun element => compare (f element) key) xs := partitioned_of_pairwise hsorted
  have hanswer := binarySearchBy_spec hpart
  rw [← binarySearchByKey] at hanswer
  cases hsearch : binarySearchByKey xs key f with
  | ok index =>
    rw [hsearch] at hanswer
    obtain ⟨hindex, heq⟩ := hanswer
    exact absurd (compare_eq_iff_eq.mp heq) (hmissing _ (List.getElem_mem hindex))
  | error place =>
    rw [hsearch] at hanswer
    exact ⟨place, rfl, hanswer⟩

end ByKey

/-! ## Inserting at the answer -/

theorem insertIdx_eq_take_append_drop (xs : List α) (place : ℕ) (element : α) (hplace : place ≤ xs.length) :
    xs.insertIdx place element = xs.take place ++ element :: xs.drop place := by
  induction xs generalizing place with
  | nil =>
    obtain rfl : place = 0 := Nat.le_zero.mp hplace
    rfl
  | cons head tail ih =>
    cases place with
    | zero => rfl
    | succ place =>
      rw [List.insertIdx_succ_cons, ih place (by simpa using hplace)]
      rfl

/-- Inserting an element between the elements before it and those after it keeps
a relation pairwise. -/
theorem pairwise_insertIdx {R : α → α → Prop} {xs : List α} {place : ℕ} {element : α}
    (hplace : place ≤ xs.length) (hpair : xs.Pairwise R)
    (hbefore : ∀ earlier ∈ xs.take place, R earlier element)
    (hafter : ∀ later ∈ xs.drop place, R element later) :
    (xs.insertIdx place element).Pairwise R := by
  have hsplit := List.pairwise_append.mp ((List.take_append_drop place xs).symm ▸ hpair)
  obtain ⟨htake, hdrop, hcross⟩ := hsplit
  rw [insertIdx_eq_take_append_drop xs place element hplace]
  refine List.pairwise_append.mpr ⟨htake, List.pairwise_cons.mpr ⟨hafter, hdrop⟩, ?_⟩
  intro earlier hearlier later hlater
  rcases List.mem_cons.mp hlater with rfl | hlater
  · exact hbefore earlier hearlier
  · exact hcross earlier hearlier later hlater

end Namada.Math
