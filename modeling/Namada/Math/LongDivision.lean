/-
# Schoolbook division on words

A number is kept as its words in base `b`, least significant first, and read
back with `Nat.ofDigits`; `toWords b k x` are the first `k` words of `x`, and a
list of words is the list of words of its value (`toWords_ofDigits`). Words
are subtracted and added one at a time with a borrow or a carry
(`subBorrow`, `addCarry`), which gives the difference or the sum of the
numbers with the borrow or carry out of the top word (`subBorrow_value`,
`addCarry_value`, and for words of numbers `subBorrow_toWords`,
`addCarry_toWords`).

Long division finds the quotient one word at a time from the top: while what
is left of the dividend is below the divisor times `b ^ (j + 1)`, the quotient
word at `j` is below `b` and taking it off leaves less than the divisor times
`b ^ j` (`divStep`). Knuth's Algorithm D guesses that word from the top words
of the two numbers. The guess from the top two words over the top word never
falls short (`div_le_div_div`), a guess that the third word shows too large is
too large (`div_lt_of_div_lt_mul_div`), one that it does not is at most one too
large (`le_div_add_one_of_mul_div_le`), and for a divisor whose top word is at
least half the base the saturated guess is at most one too large
(`sub_two_le_div`). Shifting a number right by bits moves each word down and
brings in the low bits of the next (`div_two_pow_div_pow_mod`), and the bit
length of a number is that of its top part past the bits below
(`size_eq_add_size_div`). The loop runs the positions from the top down, and
an invariant of one pass holds after all of them (`foldl_range_reverse`).
-/

import Mathlib

namespace Namada.Math

variable {b x y : ℕ}

/-! ## The words of a number -/

/-- The first `k` words of `x` in base `b`, least significant first. -/
def toWords (b : ℕ) : ℕ → ℕ → List ℕ
  | 0, _ => []
  | k + 1, x => x % b :: toWords b k (x / b)

@[simp] theorem toWords_zero (x : ℕ) : toWords b 0 x = [] := rfl

theorem toWords_succ (k x : ℕ) : toWords b (k + 1) x = x % b :: toWords b k (x / b) := rfl

@[simp] theorem length_toWords : ∀ (k x : ℕ), (toWords b k x).length = k
  | 0, _ => rfl
  | k + 1, x => by rw [toWords_succ, List.length_cons, length_toWords k]

theorem ofDigits_toWords : ∀ (k x : ℕ), Nat.ofDigits b (toWords b k x) = x % b ^ k
  | 0, x => by simp [Nat.mod_one]
  | k + 1, x => by
    rw [toWords_succ, Nat.ofDigits_cons, ofDigits_toWords k, pow_succ', Nat.mod_mul]

theorem lt_of_mem_toWords (hb : 0 < b) : ∀ (k x : ℕ), ∀ word ∈ toWords b k x, word < b
  | 0, _, _, h => absurd h List.not_mem_nil
  | k + 1, x, word, h => by
    rcases List.mem_cons.mp h with rfl | h
    · exact Nat.mod_lt _ hb
    · exact lt_of_mem_toWords hb k (x / b) word h

/-- The words of a number split at a position: those below it, and those of
what stands above it. -/
theorem toWords_add : ∀ (j k x : ℕ), toWords b (j + k) x = toWords b j x ++ toWords b k (x / b ^ j)
  | 0, k, x => by simp
  | j + 1, k, x => by
    rw [Nat.add_right_comm, toWords_succ, toWords_add j k, toWords_succ, List.cons_append,
      Nat.div_div_eq_div_mul, ← pow_succ']

theorem toWords_mod_pow : ∀ (k x : ℕ), toWords b k (x % b ^ k) = toWords b k x
  | 0, _ => rfl
  | k + 1, x => by
    rw [toWords_succ, toWords_succ, pow_succ', Nat.mod_mul_right_div_self, toWords_mod_pow k,
      Nat.mod_mod_of_dvd _ (Dvd.intro _ rfl)]

theorem take_toWords {j k : ℕ} (hjk : j ≤ k) (x : ℕ) : (toWords b k x).take j = toWords b j x := by
  obtain ⟨i, rfl⟩ := Nat.exists_eq_add_of_le hjk
  rw [toWords_add, List.take_left' (length_toWords j x)]

theorem drop_toWords {j k : ℕ} (hjk : j ≤ k) (x : ℕ) :
    (toWords b k x).drop j = toWords b (k - j) (x / b ^ j) := by
  obtain ⟨i, rfl⟩ := Nat.exists_eq_add_of_le hjk
  rw [toWords_add, List.drop_left' (length_toWords j x), Nat.add_sub_cancel_left]

theorem getD_toWords : ∀ {i k : ℕ}, i < k → ∀ x, (toWords b k x).getD i 0 = x / b ^ i % b
  | 0, k + 1, _, x => by simp [toWords_succ]
  | i + 1, k + 1, hik, x => by
    rw [toWords_succ, List.getD_cons_succ, getD_toWords (Nat.lt_of_succ_lt_succ hik),
      Nat.div_div_eq_div_mul, ← pow_succ']

/-- What stands above position `i` is the word at `i` under what stands above
`i + 1`. -/
theorem div_pow_eq_div_pow_succ_mul_add (b x i : ℕ) : x / b ^ i = x / b ^ (i + 1) * b + x / b ^ i % b := by
  rw [pow_succ, ← Nat.div_div_eq_div_mul, Nat.div_add_mod']

/-- A list of words is the list of words of its value. -/
theorem toWords_ofDigits (hb : 1 < b) : ∀ {words : List ℕ}, (∀ word ∈ words, word < b) →
    toWords b words.length (Nat.ofDigits b words) = words
  | [], _ => rfl
  | word :: rest, hwords => by
    have hword : word < b := hwords word List.mem_cons_self
    have hrest := toWords_ofDigits hb fun other hother => hwords other (List.mem_cons_of_mem _ hother)
    rw [List.length_cons, toWords_succ, Nat.ofDigits_cons, Nat.add_mul_mod_self_left, Nat.mod_eq_of_lt hword,
      Nat.add_mul_div_left _ _ (by omega), Nat.div_eq_of_lt hword, Nat.zero_add, hrest]

theorem toWords_zero_eq_replicate : ∀ k : ℕ, toWords b k 0 = List.replicate k 0
  | 0 => rfl
  | k + 1 => by rw [toWords_succ, Nat.zero_mod, Nat.zero_div, toWords_zero_eq_replicate k]; rfl

/-- Whether a word is not zero, over the words of a number, is whether the
number has a word that is not zero. -/
theorem any_toWords_ne_zero (hb : 0 < b) : ∀ (k x : ℕ),
    (toWords b k x).any (fun word => word ≠ 0) = decide (x % b ^ k ≠ 0)
  | 0, x => by simp [Nat.mod_one]
  | k + 1, x => by
    rw [toWords_succ, List.any_cons, any_toWords_ne_zero hb k, pow_succ', Nat.mod_mul]
    have hlow := Nat.mod_lt x hb
    by_cases hzero : x % b = 0
    · simp [hzero, Nat.pos_iff_ne_zero.mp hb]
    · simp [hzero]

/-- The words of a number below `b ^ j` followed by those of another are the
words of the number that has the second above the first. -/
theorem toWords_add_mul (hb : 0 < b) {j : ℕ} (hx : x < b ^ j) (k y : ℕ) :
    toWords b (j + k) (x + b ^ j * y) = toWords b j x ++ toWords b k y := by
  have hpow : 0 < b ^ j := Nat.pow_pos hb
  rw [toWords_add, ← toWords_mod_pow j, Nat.add_mul_mod_self_left, Nat.mod_eq_of_lt hx,
    Nat.add_mul_div_left _ _ hpow, Nat.div_eq_of_lt hx, Nat.zero_add]

/-- Writing one word of a number. -/
theorem set_toWords (hb : 0 < b) {j k d : ℕ} (hj : j < k) (hd : d < b) (x : ℕ) :
    (toWords b k x).set j d = toWords b k (x % b ^ j + b ^ j * (d + b * (x / b ^ (j + 1)))) := by
  obtain ⟨i, rfl⟩ := Nat.exists_eq_add_of_lt hj
  have hlow : x % b ^ j < b ^ j := Nat.mod_lt _ (Nat.pow_pos hb)
  rw [Nat.add_assoc, toWords_add_mul hb hlow, toWords_mod_pow, toWords_add, toWords_succ, toWords_succ, List.set_append_right _ _ (by simp), length_toWords, Nat.sub_self, List.set_cons_zero,
    Nat.add_mul_mod_self_left, Nat.mod_eq_of_lt hd, Nat.add_mul_div_left _ _ hb, Nat.div_eq_of_lt hd,
    Nat.zero_add, Nat.div_div_eq_div_mul, ← pow_succ]

theorem getD_map_range {k i : ℕ} (hi : i < k) (f : ℕ → ℕ) : ((List.range k).map f).getD i 0 = f i := by
  rw [List.getD_eq_getElem _ 0 (by simpa using hi), List.getElem_map, List.getElem_range]

/-- A list of `k` entries that are the words of `x` is the list of words of `x`. -/
theorem eq_toWords_of_getD {words : List ℕ} {k : ℕ} (hlen : words.length = k)
    (hwords : ∀ i < k, words.getD i 0 = x / b ^ i % b) : words = toWords b k x := by
  apply List.ext_getElem (by rw [hlen, length_toWords])
  intro i hi hi'
  rw [← List.getD_eq_getElem _ 0 hi, ← List.getD_eq_getElem _ 0 hi', getD_toWords (by omega),
    hwords i (by omega)]

/-! ## Words added and subtracted with a carry -/

/-- The words of `xs` less those of `ys`, one word at a time with a borrow,
over as many words as both have; the further words of `xs` stay as they are. -/
def subBorrow (b : ℕ) : List ℕ → List ℕ → Bool → List ℕ × Bool
  | x :: xs, y :: ys, borrow =>
    let diff := y + borrow.toNat
    let rest := subBorrow b xs ys (decide (x < diff))
    ((x + b - diff) % b :: rest.1, rest.2)
  | xs, _, borrow => (xs, borrow)

/-- The words of `xs` plus those of `ys`, one word at a time with a carry. -/
def addCarry (b : ℕ) : List ℕ → List ℕ → Bool → List ℕ × Bool
  | x :: xs, y :: ys, carry =>
    let sum := x + y + carry.toNat
    let rest := addCarry b xs ys (decide (b ≤ sum))
    (sum % b :: rest.1, rest.2)
  | xs, _, carry => (xs, carry)

theorem subBorrow_cons (x y : ℕ) (xs ys : List ℕ) (borrow : Bool) :
    subBorrow b (x :: xs) (y :: ys) borrow =
      ((x + b - (y + borrow.toNat)) % b :: (subBorrow b xs ys (decide (x < y + borrow.toNat))).1,
        (subBorrow b xs ys (decide (x < y + borrow.toNat))).2) := rfl

theorem addCarry_cons (x y : ℕ) (xs ys : List ℕ) (carry : Bool) :
    addCarry b (x :: xs) (y :: ys) carry =
      ((x + y + carry.toNat) % b :: (addCarry b xs ys (decide (b ≤ x + y + carry.toNat))).1,
        (addCarry b xs ys (decide (b ≤ x + y + carry.toNat))).2) := rfl

/-- One word less another and a borrow: the word, and the borrow on to the next. -/
theorem sub_word (hx : x < b) (hy : y < b) (borrow : Bool) :
    (x + b - (y + borrow.toNat)) % b + y + borrow.toNat =
      x + (decide (x < y + borrow.toNat)).toNat * b := by
  have hborrow : borrow.toNat ≤ 1 := Bool.toNat_le borrow
  by_cases hlt : x < y + borrow.toNat
  · rw [Nat.mod_eq_of_lt (by omega), decide_eq_true hlt, Bool.toNat_true]
    omega
  · rw [show x + b - (y + borrow.toNat) = x - (y + borrow.toNat) + b by omega, Nat.add_mod_right,
      Nat.mod_eq_of_lt (by omega), decide_eq_false hlt, Bool.toNat_false]
    omega

/-- One word plus another and a carry: the word, and the carry on to the next. -/
theorem add_word (hx : x < b) (hy : y < b) (carry : Bool) :
    (x + y + carry.toNat) % b + (decide (b ≤ x + y + carry.toNat)).toNat * b = x + y + carry.toNat := by
  have hcarry : carry.toNat ≤ 1 := Bool.toNat_le carry
  by_cases hle : b ≤ x + y + carry.toNat
  · rw [show x + y + carry.toNat = x + y + carry.toNat - b + b by omega, Nat.add_mod_right,
      Nat.mod_eq_of_lt (by omega), ← show x + y + carry.toNat = x + y + carry.toNat - b + b by omega,
      decide_eq_true hle, Bool.toNat_true]
    omega
  · rw [Nat.mod_eq_of_lt (by omega), decide_eq_false hle, Bool.toNat_false]
    omega

theorem subBorrow_value (hb : 0 < b) : ∀ {xs ys : List ℕ} (borrow : Bool), xs.length = ys.length →
    (∀ x ∈ xs, x < b) → (∀ y ∈ ys, y < b) →
      Nat.ofDigits b (subBorrow b xs ys borrow).1 + Nat.ofDigits b ys + borrow.toNat =
        Nat.ofDigits b xs + (subBorrow b xs ys borrow).2.toNat * b ^ xs.length
  | [], [], borrow, _, _, _ => by simp [subBorrow]
  | x :: xs, y :: ys, borrow, hlen, hxs, hys => by
    have hx := hxs x List.mem_cons_self
    have hy := hys y List.mem_cons_self
    have hrest := subBorrow_value hb (decide (x < y + borrow.toNat)) (Nat.succ.inj hlen)
      (fun other hother => hxs other (List.mem_cons_of_mem _ hother))
      (fun other hother => hys other (List.mem_cons_of_mem _ hother))
    have hword := sub_word hx hy borrow
    rw [subBorrow_cons]
    simp only [Nat.ofDigits_cons, List.length_cons]
    calc (x + b - (y + borrow.toNat)) % b + b * Nat.ofDigits b (subBorrow b xs ys _).1 +
          (y + b * Nat.ofDigits b ys) + borrow.toNat
        = ((x + b - (y + borrow.toNat)) % b + y + borrow.toNat) +
            b * (Nat.ofDigits b (subBorrow b xs ys _).1 + Nat.ofDigits b ys) := by ring
      _ = x + b * (Nat.ofDigits b (subBorrow b xs ys _).1 + Nat.ofDigits b ys +
            (decide (x < y + borrow.toNat)).toNat) := by rw [hword]; ring
      _ = x + b * (Nat.ofDigits b xs + (subBorrow b xs ys _).2.toNat * b ^ xs.length) := by rw [hrest]
      _ = x + b * Nat.ofDigits b xs + (subBorrow b xs ys _).2.toNat * b ^ (xs.length + 1) := by ring

theorem addCarry_value (hb : 0 < b) : ∀ {xs ys : List ℕ} (carry : Bool), xs.length = ys.length →
    (∀ x ∈ xs, x < b) → (∀ y ∈ ys, y < b) →
      Nat.ofDigits b (addCarry b xs ys carry).1 + (addCarry b xs ys carry).2.toNat * b ^ xs.length =
        Nat.ofDigits b xs + Nat.ofDigits b ys + carry.toNat
  | [], [], carry, _, _, _ => by simp [addCarry]
  | x :: xs, y :: ys, carry, hlen, hxs, hys => by
    have hx := hxs x List.mem_cons_self
    have hy := hys y List.mem_cons_self
    have hrest := addCarry_value hb (decide (b ≤ x + y + carry.toNat)) (Nat.succ.inj hlen)
      (fun other hother => hxs other (List.mem_cons_of_mem _ hother))
      (fun other hother => hys other (List.mem_cons_of_mem _ hother))
    have hword := add_word hx hy carry
    rw [addCarry_cons]
    simp only [Nat.ofDigits_cons, List.length_cons]
    calc (x + y + carry.toNat) % b + b * Nat.ofDigits b (addCarry b xs ys _).1 +
          (addCarry b xs ys _).2.toNat * b ^ (xs.length + 1)
        = (x + y + carry.toNat) % b +
            b * (Nat.ofDigits b (addCarry b xs ys _).1 + (addCarry b xs ys _).2.toNat * b ^ xs.length) := by
          ring
      _ = (x + y + carry.toNat) % b + b * (Nat.ofDigits b xs + Nat.ofDigits b ys +
            (decide (b ≤ x + y + carry.toNat)).toNat) := by rw [hrest]
      _ = ((x + y + carry.toNat) % b + (decide (b ≤ x + y + carry.toNat)).toNat * b) +
            b * (Nat.ofDigits b xs + Nat.ofDigits b ys) := by ring
      _ = x + b * Nat.ofDigits b xs + (y + b * Nat.ofDigits b ys) + carry.toNat := by rw [hword]; ring

@[simp] theorem length_subBorrow : ∀ (xs ys : List ℕ) (borrow : Bool), (subBorrow b xs ys borrow).1.length = xs.length
  | [], _, _ => by simp [subBorrow]
  | _ :: _, [], _ => rfl
  | _ :: xs, _ :: ys, _ => by rw [subBorrow_cons, List.length_cons, List.length_cons, length_subBorrow xs ys]

@[simp] theorem length_addCarry : ∀ (xs ys : List ℕ) (carry : Bool), (addCarry b xs ys carry).1.length = xs.length
  | [], _, _ => by simp [addCarry]
  | _ :: _, [], _ => rfl
  | _ :: xs, _ :: ys, _ => by rw [addCarry_cons, List.length_cons, List.length_cons, length_addCarry xs ys]

theorem lt_of_mem_subBorrow (hb : 0 < b) : ∀ {xs ys : List ℕ} {borrow : Bool}, (∀ x ∈ xs, x < b) →
    ∀ word ∈ (subBorrow b xs ys borrow).1, word < b
  | [], _, _, _, word, hword => by simp [subBorrow] at hword
  | _ :: _, [], _, hxs, word, hword => hxs word hword
  | x :: xs, y :: ys, _, hxs, word, hword => by
    rw [subBorrow_cons, List.mem_cons] at hword
    rcases hword with rfl | hword
    · exact Nat.mod_lt _ hb
    · exact lt_of_mem_subBorrow hb (fun other hother => hxs other (List.mem_cons_of_mem _ hother)) word hword

theorem lt_of_mem_addCarry (hb : 0 < b) : ∀ {xs ys : List ℕ} {carry : Bool}, (∀ x ∈ xs, x < b) →
    ∀ word ∈ (addCarry b xs ys carry).1, word < b
  | [], _, _, _, word, hword => by simp [addCarry] at hword
  | _ :: _, [], _, hxs, word, hword => hxs word hword
  | x :: xs, y :: ys, _, hxs, word, hword => by
    rw [addCarry_cons, List.mem_cons] at hword
    rcases hword with rfl | hword
    · exact Nat.mod_lt _ hb
    · exact lt_of_mem_addCarry hb (fun other hother => hxs other (List.mem_cons_of_mem _ hother)) word hword

/-- Past the words of `ys`, the subtraction leaves the words of `xs` alone. -/
theorem subBorrow_append (rest : List ℕ) : ∀ {xs ys : List ℕ} (borrow : Bool), xs.length = ys.length →
    subBorrow b (xs ++ rest) ys borrow = ((subBorrow b xs ys borrow).1 ++ rest, (subBorrow b xs ys borrow).2)
  | [], [], borrow, _ => by cases rest <;> rfl
  | x :: xs, y :: ys, borrow, hlen => by
    rw [List.cons_append, subBorrow_cons, subBorrow_cons, subBorrow_append rest _ (Nat.succ.inj hlen),
      List.cons_append]

theorem addCarry_append (rest : List ℕ) : ∀ {xs ys : List ℕ} (carry : Bool), xs.length = ys.length →
    addCarry b (xs ++ rest) ys carry = ((addCarry b xs ys carry).1 ++ rest, (addCarry b xs ys carry).2)
  | [], [], carry, _ => by cases rest <;> rfl
  | x :: xs, y :: ys, carry, hlen => by
    rw [List.cons_append, addCarry_cons, addCarry_cons, addCarry_append rest _ (Nat.succ.inj hlen),
      List.cons_append]

/-- The subtraction of the words of two numbers of `k` words gives the words of
their difference, with the base to the `k` borrowed when the first is the
smaller. -/
theorem subBorrow_toWords (hb : 1 < b) {k x y : ℕ} (hx : x < b ^ k) (hy : y < b ^ k) (borrow : Bool) :
    subBorrow b (toWords b k x) (toWords b k y) borrow =
      (toWords b k (x + (decide (x < y + borrow.toNat)).toNat * b ^ k - (y + borrow.toNat)),
        decide (x < y + borrow.toNat)) := by
  have hpos : 0 < b := by omega
  set result := subBorrow b (toWords b k x) (toWords b k y) borrow with hresult
  have hvalid : ∀ word ∈ result.1, word < b := lt_of_mem_subBorrow hpos (lt_of_mem_toWords hpos k x)
  have hvalue := subBorrow_value hpos borrow (by simp) (lt_of_mem_toWords hpos k x) (lt_of_mem_toWords hpos k y)
  rw [← hresult] at hvalue
  rw [ofDigits_toWords, ofDigits_toWords, Nat.mod_eq_of_lt hx, Nat.mod_eq_of_lt hy, length_toWords] at hvalue
  have hbound : Nat.ofDigits b result.1 < b ^ k := by
    have h := Nat.ofDigits_lt_base_pow_length hb hvalid
    rwa [hresult, length_subBorrow, length_toWords] at h
  have hborrow : result.2 = decide (x < y + borrow.toNat) := by
    cases hout : result.2
    · rw [hout, Bool.toNat_false] at hvalue
      simp only [Bool.false_eq, decide_eq_false_iff_not, not_lt]
      omega
    · rw [hout, Bool.toNat_true] at hvalue
      simp only [Bool.true_eq, decide_eq_true_eq]
      omega
  have hwords : result.1 = toWords b k (Nat.ofDigits b result.1) := by
    have h := toWords_ofDigits hb hvalid
    rw [hresult, length_subBorrow, length_toWords] at h
    exact h.symm
  rw [← hborrow, Prod.ext_iff]
  refine ⟨?_, rfl⟩
  rw [hwords]
  congr 1
  omega

/-- The addition of the words of two numbers of `k` words gives the words of
their sum, less the base to the `k` carried out of the top word. -/
theorem addCarry_toWords (hb : 1 < b) {k x y : ℕ} (hx : x < b ^ k) (hy : y < b ^ k) (carry : Bool) :
    addCarry b (toWords b k x) (toWords b k y) carry =
      (toWords b k (x + y + carry.toNat - (decide (b ^ k ≤ x + y + carry.toNat)).toNat * b ^ k),
        decide (b ^ k ≤ x + y + carry.toNat)) := by
  have hpos : 0 < b := by omega
  set result := addCarry b (toWords b k x) (toWords b k y) carry with hresult
  have hvalid : ∀ word ∈ result.1, word < b := lt_of_mem_addCarry hpos (lt_of_mem_toWords hpos k x)
  have hvalue := addCarry_value hpos carry (by simp) (lt_of_mem_toWords hpos k x) (lt_of_mem_toWords hpos k y)
  rw [← hresult] at hvalue
  rw [ofDigits_toWords, ofDigits_toWords, Nat.mod_eq_of_lt hx, Nat.mod_eq_of_lt hy, length_toWords] at hvalue
  have hbound : Nat.ofDigits b result.1 < b ^ k := by
    have h := Nat.ofDigits_lt_base_pow_length hb hvalid
    rwa [hresult, length_addCarry, length_toWords] at h
  have hcarry : carry.toNat ≤ 1 := Bool.toNat_le carry
  have hout : result.2 = decide (b ^ k ≤ x + y + carry.toNat) := by
    cases hcase : result.2
    · rw [hcase, Bool.toNat_false] at hvalue
      simp only [Bool.false_eq, decide_eq_false_iff_not, not_le]
      omega
    · rw [hcase, Bool.toNat_true] at hvalue
      simp only [Bool.true_eq, decide_eq_true_eq]
      omega
  have hwords : result.1 = toWords b k (Nat.ofDigits b result.1) := by
    have h := toWords_ofDigits hb hvalid
    rw [hresult, length_addCarry, length_toWords] at h
    exact h.symm
  rw [← hout, Prod.ext_iff]
  refine ⟨?_, rfl⟩
  rw [hwords]
  congr 1
  omega

/-! ## Long division -/

section LongDivision

variable {w v q B : ℕ}

/-- Dividing both numbers by the same amount before dividing them can only
raise the quotient: the guess from the top words never falls short. -/
theorem div_le_div_div (w : ℕ) {v c : ℕ} (hc : 0 < c) (hv : c ≤ v) : w / v ≤ w / c / (v / c) := by
  have htop : 0 < v / c := Nat.div_pos hv hc
  rw [Nat.div_div_eq_div_mul]
  apply Nat.div_le_div_left _ (Nat.mul_pos hc htop)
  rw [Nat.mul_comm]
  exact Nat.div_mul_le_self v c

/-- A guess whose product with the top of the divisor passes the top of the
dividend is too large. -/
theorem div_lt_of_div_lt_mul_div (hB : 0 < B) (h : w / B < q * (v / B)) : w / v < q := by
  have hw : w < B * (w / B + 1) := Nat.lt_mul_div_succ w hB
  have hguess : B * (w / B + 1) ≤ B * (q * (v / B)) := Nat.mul_le_mul_left B h
  have hdivisor : B * (q * (v / B)) ≤ v * q := by
    calc B * (q * (v / B)) = q * (v / B * B) := by ring
      _ ≤ q * v := Nat.mul_le_mul_left q (Nat.div_mul_le_self v B)
      _ = v * q := Nat.mul_comm q v
  exact Nat.div_lt_of_lt_mul (by omega)

/-- A guess of at most `b` whose product with the top of the divisor stays
within the top of the dividend is at most one too large, when the divisor
has at least `b * B`. -/
theorem le_div_add_one_of_mul_div_le (hB : 0 < B) (hq : q ≤ b) (hv : b * B ≤ v) (h : q * (v / B) ≤ w / B) :
    q ≤ w / v + 1 := by
  rcases Nat.eq_zero_or_pos q with rfl | hqpos
  · exact Nat.zero_le _
  have hlow : q * (v % B) < v :=
    calc q * (v % B) ≤ b * (v % B) := Nat.mul_le_mul_right _ hq
      _ < b * B := Nat.mul_lt_mul_of_pos_left (Nat.mod_lt v hB) (by omega)
      _ ≤ v := hv
  have hmul : q * v < w + v :=
    calc q * v = q * (v / B) * B + q * (v % B) := by
          conv_lhs => rw [← Nat.div_add_mod' v B]
          ring
      _ ≤ w / B * B + q * (v % B) := Nat.add_le_add_right (Nat.mul_le_mul_right B h) _
      _ ≤ w + q * (v % B) := Nat.add_le_add_right (Nat.div_mul_le_self w B) _
      _ < w + v := Nat.add_lt_add_left hlow w
  have hprev : (q - 1) * v ≤ w := by
    rw [Nat.sub_mul, Nat.one_mul]
    omega
  have := (Nat.le_div_iff_mul_le (by omega)).mpr hprev
  omega

/-- For a divisor whose top word is at least half the base, a dividend whose
top word reaches the divisor's has a quotient of at least `b - 2`. -/
theorem sub_two_le_div (hnorm : b ≤ 2 * (v / (b * B))) (htop : v / (b * B) ≤ w / (b * (b * B))) :
    b - 2 ≤ w / v := by
  obtain hsmall | ⟨c, rfl⟩ : b < 2 ∨ ∃ c, b = c + 2 := by
    rcases Nat.lt_or_ge b 2 with h | h
    · exact .inl h
    · exact .inr ⟨b - 2, by omega⟩
  · rw [Nat.sub_eq_zero_of_le hsmall.le]
    exact Nat.zero_le _
  set top := v / ((c + 2) * B) with htop_def
  have hBpos : 0 < B := by
    rcases Nat.eq_zero_or_pos B with hzero | hpos
    · simp [hzero] at htop_def
      omega
    · exact hpos
  have hv : v < (c + 2) * B * (top + 1) := Nat.lt_mul_div_succ v (by positivity)
  have hw : top * ((c + 2) * ((c + 2) * B)) ≤ w :=
    calc top * ((c + 2) * ((c + 2) * B)) ≤ w / ((c + 2) * ((c + 2) * B)) * ((c + 2) * ((c + 2) * B)) :=
          Nat.mul_le_mul_right _ htop
      _ ≤ w := Nat.div_mul_le_self w _
  have hsplit : c * (top + 1) ≤ (c + 2) * top := by nlinarith
  have hmul : c * v ≤ w :=
    calc c * v ≤ c * ((c + 2) * B * (top + 1)) := Nat.mul_le_mul_left c hv.le
      _ = c * (top + 1) * ((c + 2) * B) := by ring
      _ ≤ (c + 2) * top * ((c + 2) * B) := Nat.mul_le_mul_right _ hsplit
      _ = top * ((c + 2) * ((c + 2) * B)) := by ring
      _ ≤ w := hw
  rw [Nat.add_sub_cancel]
  rcases Nat.eq_zero_or_pos v with hzero | hvpos
  · simp [hzero] at htop_def
    omega
  · exact (Nat.le_div_iff_mul_le hvpos).mpr hmul

/-- Comparing a number with `r * b + u`, `u < b`, by its two words, the high
one first. -/
theorem div_lt_or_eq_mod_le_iff (hb : 0 < b) {r u : ℕ} (hu : u < b) :
    (x / b < r ∨ x / b = r ∧ x % b ≤ u) ↔ x ≤ r * b + u := by
  have hx : x = x / b * b + x % b := (Nat.div_add_mod' x b).symm
  have hmod : x % b < b := Nat.mod_lt x hb
  constructor
  · rintro (hlt | ⟨heq, hle⟩)
    · calc x = x / b * b + x % b := hx
        _ ≤ x / b * b + b := by omega
        _ = (x / b + 1) * b := by ring
        _ ≤ r * b := Nat.mul_le_mul_right b hlt
        _ ≤ r * b + u := Nat.le_add_right _ _
    · rw [hx, heq]
      omega
  · intro hle
    rcases Nat.lt_or_ge (x / b) r with hlt | hge
    · exact .inl hlt
    · have hnot : ¬r < x / b := by
        intro hgt
        have hhigh : (r + 1) * b ≤ x / b * b := Nat.mul_le_mul_right b hgt
        have hexpand : (r + 1) * b = r * b + b := by ring
        have hbelow : x / b * b ≤ x := Nat.div_mul_le_self x b
        omega
      have heq : x / b = r := by omega
      refine .inr ⟨heq, ?_⟩
      rw [hx, heq] at hle
      omega

/-- One step of long division at position `j`. When what is left of the
dividend is below the divisor times `b ^ (j + 1)`, the quotient word at `j`
is below `b`, and taking that word times the divisor off leaves the words
below `j` with the remainder of the window above them, which is below the
divisor times `b ^ j`. -/
theorem divStep {x j : ℕ} (hb : 0 < b) (hx : x < v * b ^ (j + 1)) :
    x / b ^ j / v < b ∧ x % b ^ j + b ^ j * (x / b ^ j % v) < v * b ^ j ∧
      x % b ^ j + b ^ j * (x / b ^ j % v) + v * (x / b ^ j / v * b ^ j) = x := by
  have hpow : 0 < b ^ j := Nat.pow_pos hb
  have hwindow : x / b ^ j < v * b := by
    apply Nat.div_lt_of_lt_mul
    calc x < v * b ^ (j + 1) := hx
      _ = b ^ j * (v * b) := by ring
  have hvpos : 0 < v := by
    rcases Nat.eq_zero_or_pos v with hzero | hpos
    · simp [hzero] at hwindow
    · exact hpos
  refine ⟨Nat.div_lt_of_lt_mul hwindow, ?_, ?_⟩
  · have hmod : x / b ^ j % v + 1 ≤ v := Nat.mod_lt _ hvpos
    calc x % b ^ j + b ^ j * (x / b ^ j % v) < b ^ j + b ^ j * (x / b ^ j % v) :=
          Nat.add_lt_add_right (Nat.mod_lt x hpow) _
      _ = b ^ j * (x / b ^ j % v + 1) := by ring
      _ ≤ b ^ j * v := Nat.mul_le_mul_left _ hmod
      _ = v * b ^ j := Nat.mul_comm _ _
  · calc x % b ^ j + b ^ j * (x / b ^ j % v) + v * (x / b ^ j / v * b ^ j)
        = x % b ^ j + b ^ j * (x / b ^ j % v + v * (x / b ^ j / v)) := by ring
      _ = x := by rw [Nat.mod_add_div, Nat.mod_add_div]

end LongDivision

/-- The loop of long division runs its positions from the top down. An
invariant that the pass at `j` takes from `j + 1` to `j` holds at `0` after
the passes from `m` down to `0`. -/
theorem foldl_range_reverse {σ : Type*} {f : σ → ℕ → σ} (P : ℕ → σ → Prop)
    (hstep : ∀ j s, P (j + 1) s → P j (f s j)) : ∀ (m : ℕ) (s : σ), P (m + 1) s →
      P 0 ((List.range (m + 1)).reverse.foldl f s)
  | 0, s, h => hstep 0 s h
  | m + 1, s, h => by
    rw [List.range_succ, List.reverse_append, List.reverse_singleton, List.singleton_append, List.foldl_cons]
    exact foldl_range_reverse P hstep m _ (hstep (m + 1) s h)

/-! ## Shifts by bits -/

/-- The low word of a number shifted right by fewer bits than a word: the low
word shifted, with the bits that come down from the next word. -/
theorem div_two_pow_mod {s w : ℕ} (hs : s ≤ w) (x : ℕ) :
    x / 2 ^ s % 2 ^ w = x % 2 ^ w / 2 ^ s + x / 2 ^ w % 2 ^ w * 2 ^ (w - s) % 2 ^ w := by
  have hsplit : 2 ^ w = 2 ^ s * 2 ^ (w - s) := by rw [← Nat.pow_add, Nat.add_sub_cancel' hs]
  have hlow : x % 2 ^ w / 2 ^ s < 2 ^ (w - s) := by
    apply Nat.div_lt_of_lt_mul
    rw [← hsplit]
    exact Nat.mod_lt _ (by positivity)
  have hhigh : x / 2 ^ w % 2 ^ w * 2 ^ (w - s) % 2 ^ w = x / 2 ^ w % 2 ^ s * 2 ^ (w - s) := by
    rw [hsplit, Nat.mul_mod_mul_right, Nat.mod_mod_of_dvd _ (Dvd.intro _ rfl), ← hsplit]
  have hshift : x / 2 ^ s = x % 2 ^ w / 2 ^ s + 2 ^ (w - s) * (x / 2 ^ w) := by
    calc x / 2 ^ s = (x % 2 ^ w + 2 ^ s * (2 ^ (w - s) * (x / 2 ^ w))) / 2 ^ s := by
          rw [← Nat.mul_assoc, ← hsplit, Nat.mod_add_div]
      _ = x % 2 ^ w / 2 ^ s + 2 ^ (w - s) * (x / 2 ^ w) := Nat.add_mul_div_left _ _ (by positivity)
  rw [hhigh, hshift]
  -- the bits of the next word above `s` leave the word
  have hnext : 2 ^ (w - s) * (x / 2 ^ w) =
      x / 2 ^ w % 2 ^ s * 2 ^ (w - s) + 2 ^ w * (x / 2 ^ w / 2 ^ s) := by
    conv_lhs => rw [← Nat.mod_add_div (x / 2 ^ w) (2 ^ s)]
    rw [hsplit]
    ring
  have hfit : x % 2 ^ w / 2 ^ s + x / 2 ^ w % 2 ^ s * 2 ^ (w - s) < 2 ^ w := by
    have hmod : x / 2 ^ w % 2 ^ s + 1 ≤ 2 ^ s := Nat.mod_lt _ (by positivity)
    calc x % 2 ^ w / 2 ^ s + x / 2 ^ w % 2 ^ s * 2 ^ (w - s)
        < 2 ^ (w - s) + x / 2 ^ w % 2 ^ s * 2 ^ (w - s) := Nat.add_lt_add_right hlow _
      _ = (x / 2 ^ w % 2 ^ s + 1) * 2 ^ (w - s) := by ring
      _ ≤ 2 ^ s * 2 ^ (w - s) := Nat.mul_le_mul_right _ hmod
      _ = 2 ^ w := hsplit.symm
  rw [hnext, ← Nat.add_assoc, Nat.add_mul_mod_self_left, Nat.mod_eq_of_lt hfit]

/-- Word `i` of a number shifted right by `w * ws + bs` bits, `bs ≤ w`, in base
`2 ^ w`: word `i + ws` shifted right by `bs`, with the low bits of word
`i + ws + 1` above it. -/
theorem div_two_pow_div_pow_mod {w bs : ℕ} (hbs : bs ≤ w) (x ws i : ℕ) :
    x / 2 ^ (w * ws + bs) / (2 ^ w) ^ i % 2 ^ w =
      x / (2 ^ w) ^ (i + ws) % 2 ^ w / 2 ^ bs + x / (2 ^ w) ^ (i + ws + 1) % 2 ^ w * 2 ^ (w - bs) % 2 ^ w := by
  have hreorder : x / 2 ^ (w * ws + bs) / (2 ^ w) ^ i = x / (2 ^ w) ^ (i + ws) / 2 ^ bs := by
    rw [Nat.div_div_eq_div_mul, Nat.div_div_eq_div_mul, ← pow_mul, ← pow_mul, ← pow_add, ← pow_add]
    congr 2
    ring
  rw [hreorder, div_two_pow_mod hbs, Nat.div_div_eq_div_mul, ← pow_succ]

/-- A number below `b ^ k` whose words from `t + 1` up are zero is below
`b ^ (t + 1)`. -/
theorem lt_pow_of_div_pow_mod_eq_zero (hb : 0 < b) {t : ℕ} :
    ∀ {k : ℕ}, x < b ^ k → (∀ i, t < i → i < k → x / b ^ i % b = 0) → x < b ^ (t + 1)
  | 0, hx, _ => lt_of_lt_of_le hx (Nat.one_le_pow _ _ hb)
  | k + 1, hx, hzero => by
    rcases Nat.lt_or_ge t k with hlt | hge
    · -- the word at `k` is the top one, and it is zero
      have htop : x / b ^ k < b := Nat.div_lt_of_lt_mul (by rw [← pow_succ]; exact hx)
      have hword := hzero k hlt (Nat.lt_succ_self k)
      rw [Nat.mod_eq_of_lt htop] at hword
      have hbelow : x < b ^ k := by
        rcases Nat.eq_zero_or_pos (b ^ k) with hpow | hpow
        · exact absurd hpow (Nat.pos_iff_ne_zero.mp (Nat.pow_pos hb))
        · exact (Nat.div_eq_zero_iff_lt hpow).mp hword
      exact lt_pow_of_div_pow_mod_eq_zero hb hbelow fun i hti hik => hzero i hti (Nat.lt_succ_of_lt hik)
    · exact lt_of_lt_of_le hx (Nat.pow_le_pow_right hb (by omega))

/-- A number of at least `k` bits has `k` more bits than its part above them. -/
theorem size_eq_add_size_div {k : ℕ} (hx : 2 ^ k ≤ x) : Nat.size x = k + Nat.size (x / 2 ^ k) := by
  have hpow : 0 < 2 ^ k := Nat.pow_pos (by norm_num)
  have htop : 0 < x / 2 ^ k := Nat.div_pos hx hpow
  apply Nat.le_antisymm
  · apply Nat.size_le.mpr
    calc x < 2 ^ k * (x / 2 ^ k + 1) := Nat.lt_mul_div_succ x hpow
      _ ≤ 2 ^ k * 2 ^ Nat.size (x / 2 ^ k) := Nat.mul_le_mul_left _ (Nat.lt_size_self _)
      _ = 2 ^ (k + Nat.size (x / 2 ^ k)) := (Nat.pow_add _ _ _).symm
  · have hsize : 0 < Nat.size (x / 2 ^ k) := Nat.size_pos.mpr htop
    have hlow : 2 ^ (Nat.size (x / 2 ^ k) - 1) ≤ x / 2 ^ k := Nat.lt_size.mp (by omega)
    have hbits : k + Nat.size (x / 2 ^ k) - 1 < Nat.size x := by
      apply Nat.lt_size.mpr
      calc 2 ^ (k + Nat.size (x / 2 ^ k) - 1) = 2 ^ k * 2 ^ (Nat.size (x / 2 ^ k) - 1) := by
            rw [← Nat.pow_add]
            congr 1
            omega
        _ ≤ 2 ^ k * (x / 2 ^ k) := Nat.mul_le_mul_left _ hlow
        _ ≤ x := Nat.mul_div_le x _
    omega

end Namada.Math
