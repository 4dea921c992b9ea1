/-
# Fixed-width big-endian digits

A number written with exactly `width` digits in a base, most significant
first, and a list of digits read back as a number. Digit lists of one width
round-trip and compare lexicographically as their numbers do; so does any
list mapped through a function that preserves the order of digits.
-/

import Mathlib

namespace Namada.Math

/-- The low `width` digits of `value` in base `base`, most significant first. -/
def toDigitsBE (base : ℕ) : ℕ → ℕ → List ℕ
  | 0, _ => []
  | width + 1, value => value / base ^ width % base :: toDigitsBE base width value

/-- The number a list of digits writes, most significant first. -/
def ofDigitsBE (base : ℕ) : List ℕ → ℕ
  | [] => 0
  | digit :: digits => digit * base ^ digits.length + ofDigitsBE base digits

variable {base : ℕ}

@[simp] theorem length_toDigitsBE (width value : ℕ) :
    (toDigitsBE base width value).length = width := by
  induction width with
  | zero => rfl
  | succ width ih => simp [toDigitsBE, ih]

theorem lt_of_mem_toDigitsBE (hbase : 0 < base) {width value digit : ℕ}
    (hmem : digit ∈ toDigitsBE base width value) : digit < base := by
  induction width with
  | zero => cases hmem
  | succ width ih =>
      rcases List.mem_cons.mp hmem with rfl | hrest
      · exact Nat.mod_lt _ hbase
      · exact ih hrest

/-- Only the low `width` digits are written. -/
theorem toDigitsBE_add_mul (width value carry : ℕ) :
    toDigitsBE base width (value + base ^ width * carry) = toDigitsBE base width value := by
  induction width generalizing carry with
  | zero => rfl
  | succ width ih =>
      have hhigh : (value + base ^ (width + 1) * carry) / base ^ width % base =
          value / base ^ width % base := by
        by_cases hzero : base ^ width = 0
        · simp [hzero, Nat.pow_succ]
        · rw [Nat.pow_succ, Nat.mul_assoc, Nat.add_mul_div_left _ _ (Nat.pos_of_ne_zero hzero),
            Nat.add_mul_mod_self_left]
      have hlow : toDigitsBE base width (value + base ^ (width + 1) * carry) =
          toDigitsBE base width value := by
        rw [Nat.pow_succ, Nat.mul_assoc]
        exact ih (base * carry)
      simp only [toDigitsBE, hhigh, hlow]

theorem toDigitsBE_mod (width value : ℕ) :
    toDigitsBE base width (value % base ^ width) = toDigitsBE base width value := by
  have hsplit : toDigitsBE base width (value % base ^ width + base ^ width * (value / base ^ width)) =
      toDigitsBE base width (value % base ^ width) := toDigitsBE_add_mul width _ _
  rw [Nat.mod_add_div] at hsplit
  exact hsplit.symm

/-- Reading the digits back gives the value below `base ^ width`. -/
theorem ofDigitsBE_toDigitsBE (width value : ℕ) :
    ofDigitsBE base (toDigitsBE base width value) = value % base ^ width := by
  induction width with
  | zero => simp [toDigitsBE, ofDigitsBE, Nat.mod_one]
  | succ width ih =>
      rw [toDigitsBE, ofDigitsBE, length_toDigitsBE, ih, Nat.mod_pow_succ, Nat.mul_comm,
        Nat.add_comm]

theorem ofDigitsBE_lt {digits : List ℕ} (hdigits : ∀ digit ∈ digits, digit < base) :
    ofDigitsBE base digits < base ^ digits.length := by
  induction digits with
  | nil => simp [ofDigitsBE]
  | cons digit digits ih =>
      have hdigit : digit < base := hdigits digit List.mem_cons_self
      have hrest := ih fun other hmem => hdigits other (List.mem_cons_of_mem _ hmem)
      -- `digit * base ^ n + rest < (digit + 1) * base ^ n ≤ base ^ (n + 1)`
      calc ofDigitsBE base (digit :: digits)
          = digit * base ^ digits.length + ofDigitsBE base digits := rfl
        _ < digit * base ^ digits.length + base ^ digits.length := by omega
        _ = (digit + 1) * base ^ digits.length := (Nat.succ_mul _ _).symm
        _ ≤ base * base ^ digits.length := Nat.mul_le_mul_right _ hdigit
        _ = base ^ (digit :: digits).length := by rw [List.length_cons, Nat.pow_succ, Nat.mul_comm]

/-- Digits below the base are what their number writes. -/
theorem toDigitsBE_ofDigitsBE {digits : List ℕ} (hdigits : ∀ digit ∈ digits, digit < base) :
    toDigitsBE base digits.length (ofDigitsBE base digits) = digits := by
  induction digits with
  | nil => rfl
  | cons digit digits ih =>
      have hdigit : digit < base := hdigits digit List.mem_cons_self
      have hrest : ∀ other ∈ digits, other < base :=
        fun other hmem => hdigits other (List.mem_cons_of_mem _ hmem)
      have hlt := ofDigitsBE_lt hrest
      have hpos : 0 < base ^ digits.length := Nat.lt_of_le_of_lt (Nat.zero_le _) hlt
      have hhead : (digit * base ^ digits.length + ofDigitsBE base digits) /
          base ^ digits.length % base = digit := by
        rw [Nat.add_comm, Nat.add_mul_div_right _ _ hpos, Nat.div_eq_of_lt hlt, Nat.zero_add,
          Nat.mod_eq_of_lt hdigit]
      have htail : toDigitsBE base digits.length
          (digit * base ^ digits.length + ofDigitsBE base digits) = digits := by
        rw [Nat.add_comm, Nat.mul_comm, toDigitsBE_add_mul, ih hrest]
      simp only [List.length_cons, toDigitsBE, ofDigitsBE, hhead, htail]

/-- Digits of one width compare lexicographically as their numbers do. -/
theorem toDigitsBE_lt_iff (width : ℕ) {first second : ℕ} (hfirst : first < base ^ width)
    (hsecond : second < base ^ width) :
    toDigitsBE base width first < toDigitsBE base width second ↔ first < second := by
  induction width generalizing first second with
  | zero =>
      have hzero : first = 0 ∧ second = 0 := by simp at hfirst hsecond; omega
      simp [toDigitsBE, hzero.1, hzero.2]
  | succ width ih =>
      have hpow : base ^ (width + 1) = base ^ width * base := by rw [Nat.pow_succ]
      -- the leading digits are the quotients by `base ^ width`, the rest the remainders
      have hhead : ∀ value, value < base ^ (width + 1) →
          value / base ^ width % base = value / base ^ width :=
        fun value hvalue => Nat.mod_eq_of_lt (Nat.div_lt_of_lt_mul (by rwa [← hpow]))
      have hpos : 0 < base ^ width := by
        rcases Nat.eq_zero_or_pos (base ^ width) with hzero | hpos
        · rw [hpow, hzero, Nat.zero_mul] at hfirst
          omega
        · exact hpos
      rw [toDigitsBE, toDigitsBE, List.cons_lt_cons_iff, hhead first hfirst,
        hhead second hsecond, ← toDigitsBE_mod width first, ← toDigitsBE_mod width second,
        ih (Nat.mod_lt _ hpos) (Nat.mod_lt _ hpos)]
      have hfirst' := Nat.div_add_mod first (base ^ width)
      have hsecond' := Nat.div_add_mod second (base ^ width)
      constructor
      · rintro (hlt | ⟨heq, hlt⟩)
        · exact Nat.lt_of_div_lt_div hlt
        · rw [← hfirst', ← hsecond', heq]
          omega
      · intro hlt
        rcases Nat.lt_or_ge (first / base ^ width) (second / base ^ width) with hquot | hquot
        · exact Or.inl hquot
        · have heq : first / base ^ width = second / base ^ width :=
            Nat.le_antisymm (Nat.div_le_div_right (Nat.le_of_lt hlt)) hquot
          refine Or.inr ⟨heq, ?_⟩
          rw [← hfirst', ← hsecond', heq] at hlt
          omega

/-- Mapping lists through a function that is injective and strictly monotone on
their elements keeps their lexicographic order. -/
theorem map_lt_map_iff {α β : Type*} [LT α] [LT β] {f : α → β} {allowed : α → Prop}
    (hlt : ∀ a b, allowed a → allowed b → (f a < f b ↔ a < b))
    (hinj : ∀ a b, allowed a → allowed b → f a = f b → a = b) :
    ∀ first second : List α, (∀ a ∈ first, allowed a) → (∀ b ∈ second, allowed b) →
      (first.map f < second.map f ↔ first < second)
  | [], [], _, _ => by simp
  | [], _ :: _, _, _ => by simp
  | _ :: _, [], _, _ => by simp
  | a :: first, b :: second, hfirst, hsecond => by
      have ha := hfirst a List.mem_cons_self
      have hb := hsecond b List.mem_cons_self
      have hrest := map_lt_map_iff hlt hinj first second
        (fun x hx => hfirst x (List.mem_cons_of_mem _ hx))
        (fun x hx => hsecond x (List.mem_cons_of_mem _ hx))
      rw [List.map_cons, List.map_cons, List.cons_lt_cons_iff, List.cons_lt_cons_iff, hrest,
        hlt a b ha hb]
      constructor
      · rintro (hab | ⟨hab, hrest⟩)
        · exact Or.inl hab
        · exact Or.inr ⟨hinj a b ha hb hab, hrest⟩
      · rintro (hab | ⟨rfl, hrest⟩)
        · exact Or.inl hab
        · exact Or.inr ⟨rfl, hrest⟩

end Namada.Math
