import NearMemory.Proofs.DrawnOperands
import NearMemory.Proofs.RegisterAddresses
import Mathlib.Data.Nat.Init

/-!
# Constants in signed digits

A constant is a word of digits of two bits: `00` for zero, `01` for one, `11` for minus one. It is
canonical if no two digits in a row are not zero, so at most every second digit is. A multiply takes
a cycle for every digit that is not zero, and the plan pads it for the worst case.

Drawn constants are canonical whatever the random words are, as long as their digits fit a word of
48 bits. The check of a workload sees to that: it doubles the number of digits and stops if that is
an overflow of 32 bits, so that no number of digits passes but those up to 24.

## Main definitions

* `digitAt` — a digit of a constant
* `weight` — the digits that are not zero
* `Canonical` — the constants that a multiply takes

## Main results

* `Canonical.weight_le` — at most every second digit is not zero
* `Padding.latency_le` — the padding covers a multiply
* `canonical_drawConstant` — drawn constants are canonical
* `Workload.drawn_constants_legal` — the constants of a workload that passes its check
-/

namespace NearMemory

/-- The digit of a constant at a place, two bits a digit. -/
def digitAt (word : UInt64) (place : Nat) : Nat := word.toNat / 4 ^ place % 4

/-- The digits of a constant that are not zero. A word has 32 places. -/
def weight (word : UInt64) : Nat := (List.range 32).countP (digitAt word · != 0)

/-- A constant in canonical signed digits. -/
structure Canonical (word : UInt64) : Prop where
  /-- Every digit stands for zero, one or minus one. -/
  codes : ∀ i, digitAt word i = 0 ∨ digitAt word i = 1 ∨ digitAt word i = 3
  /-- Of two digits in a row, one is zero. -/
  apart : ∀ i, digitAt word i = 0 ∨ digitAt word (i + 1) = 0

variable {word word' : UInt64} {place : Nat}

/-! ### Counting digits -/

theorem digitAt_of_lt {i : Nat} (h : word.toNat < 4 ^ place) (hi : place ≤ i) :
    digitAt word i = 0 := by
  have hlt : word.toNat < 4 ^ i :=
    Nat.lt_of_lt_of_le h (Nat.pow_le_pow_right (by decide) hi)
  rw [digitAt, Nat.div_eq_of_lt hlt]

/-- There are no digits above the constant. -/
theorem weight_eq_countP (h : word.toNat < 4 ^ place) (hplace : place ≤ 32) :
    weight word = (List.range place).countP (digitAt word · != 0) := by
  obtain ⟨above, habove⟩ := Nat.exists_eq_add_of_le hplace
  have hzero : ((List.range above).map (place + ·)).countP (digitAt word · != 0) = 0 := by
    simp [List.countP_eq_zero, digitAt_of_lt h]
  rw [weight, habove, List.range_add, List.countP_append, hzero, Nat.add_zero]

theorem Canonical.two_mul_countP_le (h : Canonical word) (places : Nat) :
    2 * (List.range places).countP (digitAt word · != 0) ≤ places + 1 := by
  induction places using Nat.twoStepInduction with
  | zero => simp
  | one =>
    have hle := List.countP_le_length (p := (digitAt word · != 0)) (l := List.range 1)
    rw [List.length_range] at hle
    omega
  | more n ih _ =>
    -- of the two digits that come in, one is zero
    have hpair : [n, n + 1].countP (digitAt word · != 0) ≤ 1 := by
      rw [List.countP_cons, List.countP_singleton]
      have hapart := h.apart n
      grind
    rw [List.range_succ, List.range_succ, List.append_assoc, List.countP_append,
      List.singleton_append]
    omega

/-- **At most every second digit of a canonical constant is not zero.** -/
theorem Canonical.weight_le (h : Canonical word) (hbelow : word.toNat < 4 ^ place)
    (hplace : place ≤ 32) : weight word ≤ ceilDiv place 2 := by
  have hcount := h.two_mul_countP_le place
  rw [weight_eq_countP hbelow hplace, ceilDiv]
  omega

/-- **The padding covers a multiply**: its cycles pass before the instruction after the padding. -/
theorem Padding.latency_le (digits : Nat) {interval : Nat} (h : 1 ≤ interval) :
    (ofDigits digits interval).latency ≤ (1 + (ofDigits digits interval).nops) * interval := by
  have hcover := le_ceilDiv_mul (a := ceilDiv digits 2 - interval) h
  rw [Nat.add_mul, Nat.one_mul]
  dsimp only [ofDigits]
  omega

/-! ### Drawn digits -/

/-- A digit is set above those that are there. -/
theorem toNat_or_digit {code : UInt64} (hbelow : word.toNat < 4 ^ place) (hcode : code.toNat < 4)
    (hplace : place < 32) :
    (word ||| code <<< UInt64.ofNat (2 * place)).toNat = word.toNat + 4 ^ place * code.toNat := by
  have hpow : 4 ^ place = 2 ^ (2 * place) := by rw [Nat.pow_mul]
  rw [hpow] at hbelow ⊢
  have hshift := Address.toNat_shiftLeft_ofNat (show code.toNat < 2 ^ 2 from hcode)
    (show 2 * place + 2 ≤ 64 by omega)
  rw [UInt64.toNat_or, hshift, Nat.or_comm, Nat.mul_comm code.toNat,
    ← Nat.two_pow_add_eq_or_of_lt hbelow, Nat.add_comm]

theorem lt_of_toNat_eq {code : Nat} (hbelow : word.toNat < 4 ^ place) (hcode : code < 4)
    (h : word'.toNat = word.toNat + 4 ^ place * code) : word'.toNat < 4 ^ (place + 1) := by
  have hle : 4 ^ place * code ≤ 4 ^ place * 3 := Nat.mul_le_mul_left _ (by omega)
  rw [h, Nat.pow_succ]
  omega

/-- The other digits stay as they are. -/
theorem digitAt_of_toNat_eq {code : Nat} (hbelow : word.toNat < 4 ^ place) (hcode : code < 4)
    (h : word'.toNat = word.toNat + 4 ^ place * code) (i : Nat) :
    digitAt word' i = if i = place then code else digitAt word i := by
  rcases Nat.lt_trichotomy i place with hlt | rfl | hlt
  · -- below, the new digit is a multiple of the next place
    obtain ⟨k, rfl⟩ := Nat.exists_eq_add_of_lt hlt
    rw [if_neg (Nat.ne_of_lt hlt), digitAt, digitAt, h, Nat.pow_succ, Nat.pow_add, Nat.mul_assoc,
      Nat.mul_assoc, Nat.add_mul_div_left _ _ (Nat.pow_pos (by decide)), Nat.mul_left_comm,
      Nat.add_mul_mod_self_left]
  · rw [if_pos rfl, digitAt, h, Nat.add_mul_div_left _ _ (Nat.pow_pos (by decide)),
      Nat.div_eq_of_lt hbelow, Nat.zero_add, Nat.mod_eq_of_lt hcode]
  · rw [if_neg (Nat.ne_of_gt hlt), digitAt_of_lt (lt_of_toNat_eq hbelow hcode h) hlt,
      digitAt_of_lt hbelow hlt.le]

/-- The constant drawn so far: its digits below a place, and whether the latest is zero. -/
structure DrawnBelow (place : Nat) (afterNonzero : Bool) (word : UInt64) : Prop where
  /-- There is nothing at the place and above. -/
  below : word.toNat < 4 ^ place
  /-- The digits are canonical. -/
  canonical : Canonical word
  /-- The next digit may be any if the latest is zero. -/
  latest : afterNonzero = false → digitAt word (place - 1) = 0

section Draw

variable {γ : Type} [RandomWords γ]

theorem drawDigit_cases (afterNonzero : Bool) (g : γ) :
    (drawDigit afterNonzero g).1 = 0 ∨ afterNonzero = false ∧
      ((drawDigit afterNonzero g).1 = 1 ∨ (drawDigit afterNonzero g).1 = 3) := by
  cases afterNonzero with
  | true => exact .inl rfl
  | false =>
    refine Or.imp_right (And.intro rfl) ?_
    simp only [drawDigit, Bool.false_eq_true, if_false]
    split
    · exact .inr (.inl rfl)
    · exact .inr (.inr rfl)
    · exact .inl rfl

/-- One digit. -/
theorem DrawnBelow.step {afterNonzero : Bool} (h : DrawnBelow place afterNonzero word)
    (hplace : place < 32) (g : γ) :
    DrawnBelow (place + 1) ((drawDigit afterNonzero g).1 != 0)
      (word ||| (drawDigit afterNonzero g).1 <<< UInt64.ofNat (2 * place)) := by
  have hcases := drawDigit_cases afterNonzero g
  generalize (drawDigit afterNonzero g).1 = code at hcases
  have hcode : code.toNat = 0 ∨ code.toNat = 1 ∨ code.toNat = 3 := by
    rcases hcases with rfl | ⟨-, rfl | rfl⟩ <;> decide
  have hlt : code.toNat < 4 := by omega
  have hvalue := toNat_or_digit h.below hlt hplace
  have hdigit := digitAt_of_toNat_eq h.below hlt hvalue
  refine ⟨lt_of_toNat_eq h.below hlt hvalue, ⟨?_, ?_⟩, ?_⟩
  · intro i
    rw [hdigit]
    split
    · exact hcode
    · exact h.canonical.codes i
  · intro i
    rw [hdigit, hdigit]
    by_cases hhere : i = place
    · rw [if_neg (show i + 1 ≠ place by omega)]
      exact .inr (digitAt_of_lt h.below (by omega))
    by_cases hnext : i + 1 = place
    · -- the digit before is zero, or this one has to be
      rw [if_neg hhere, if_pos hnext]
      rcases hcases with rfl | ⟨hafter, -⟩
      · exact .inr rfl
      · have hlatest := h.latest hafter
        rw [← hnext, Nat.add_sub_cancel] at hlatest
        exact .inl hlatest
    · rw [if_neg hhere, if_neg hnext]
      exact h.canonical.apart i
  · intro hzero
    rw [Nat.add_sub_cancel, hdigit, if_pos rfl, bne_eq_false_iff_eq.mp hzero]
    rfl

/-- Digits in turn. -/
theorem DrawnBelow.drawDigits {afterNonzero : Bool} (h : DrawnBelow place afterNonzero word)
    (count : Nat) (hplace : place + count ≤ 32) (g : γ) :
    ∃ latest, DrawnBelow (place + count) latest (drawDigits count place afterNonzero word g).1 := by
  induction count generalizing place afterNonzero word g with
  | zero => exact ⟨afterNonzero, h⟩
  | succ count ih =>
    obtain ⟨latest, hdrawn⟩ := ih (h.step (by omega) g) (by omega) (drawDigit afterNonzero g).2
    exact ⟨latest, Nat.add_right_comm place 1 count ▸ hdrawn⟩

theorem drawnBelow_zero : DrawnBelow 0 false 0 where
  below := by decide
  canonical := by
    have hzero : ∀ i, digitAt 0 i = 0 :=
      fun i => digitAt_of_lt (show (0 : UInt64).toNat < 4 ^ 0 by decide) i.zero_le
    exact ⟨fun i => .inl (hzero i), fun i => .inl (hzero i)⟩
  latest := fun _ => rfl

/-- **Drawn constants are canonical**, whatever the random words are. -/
theorem canonical_drawConstant {digits : Nat} (h : digits ≤ 32) (g : γ) :
    Canonical (drawConstant digits g).1 ∧ (drawConstant digits g).1.toNat < 4 ^ digits := by
  obtain ⟨_, hdrawn⟩ := drawnBelow_zero.drawDigits digits (by omega) g
  rw [Nat.zero_add] at hdrawn
  exact ⟨hdrawn.canonical, hdrawn.below⟩

end Draw

/-- A source of one word over and over. -/
inductive SteadyOnes where
  /-- The source never changes. -/
  | source
  deriving DecidableEq

/-- Scaled to a number below three, the word is one. -/
instance : RandomWords SteadyOnes := ⟨fun g => (0x80000000, g)⟩

open SteadyOnes (source)

namespace Workload

variable {w : Workload}

/-- A constant fits the 48 bits of a word. -/
theorem digitLength_le_of_violation? (h : w.violation? = none) : w.digitLength ≤ 24 := by
  simp only [violation?, ite_eq_iff, reduceCtorEq, and_false, false_or] at h
  obtain ⟨-, -, -, -, hdigits, -⟩ := h
  rw [constantBits, wordBits] at hdigits
  omega

/-- **The constants of a workload that passes its check.** Whatever the random words are, a constant
fits its digits and is one that a multiply takes, and its cycles are covered by the latency of the
plan and by the padding. -/
theorem drawn_constants_legal (hvalid : w.violation? = none) {interval : Nat}
    (hinterval : 1 ≤ interval) :
    2 ^ (2 * w.digitLength) ≤ 2 ^ 48 ∧ ∀ (γ : Type) [RandomWords γ] (source : γ),
      let word := (drawConstant w.digitLength source).1
      let padding := Padding.ofDigits w.digitLength interval
      word.toNat < 2 ^ (2 * w.digitLength) ∧ Canonical word ∧
        weight word ≤ padding.latency ∧ weight word ≤ (1 + padding.nops) * interval := by
  have hdigits := digitLength_le_of_violation? hvalid
  refine ⟨Nat.pow_le_pow_right Nat.two_pos (by omega), fun γ _ source => ?_⟩
  obtain ⟨hcanonical, hbelow⟩ := canonical_drawConstant (show w.digitLength ≤ 32 by omega) source
  have hweight := hcanonical.weight_le hbelow (by omega)
  have hpow : 4 ^ w.digitLength = 2 ^ (2 * w.digitLength) := by rw [Nat.pow_mul]
  exact ⟨hpow ▸ hbelow, hcanonical, hweight,
    Nat.le_trans hweight (Padding.latency_le w.digitLength hinterval)⟩

/-- An odd number of digits, with as many that are not zero as there can be: the latency is reached,
and the padding goes beyond it. -/
theorem drawn_constants_legal_tight :
    let w : Workload := { m := 1, n := 1, q := 1, digitLength := 23 }
    let word := (drawConstant w.digitLength source).1
    let padding := Padding.ofDigits w.digitLength 5
    w.violation? = none ∧ word = 0x111111111111 ∧ weight word = 12 ∧
    padding = { latency := 12, cycles := 7, nops := 2 } ∧
    word.toNat < 2 ^ (2 * w.digitLength) ∧ Canonical word ∧
      weight word ≤ padding.latency ∧ weight word ≤ (1 + padding.nops) * 5 := by
  intro w word padding
  have hvalid : w.violation? = none := by decide
  obtain ⟨-, hdrawn⟩ := drawn_constants_legal hvalid (show 1 ≤ 5 by decide)
  exact ⟨hvalid, by decide +kernel, by decide +kernel, by decide, hdrawn SteadyOnes source⟩

end Workload

end NearMemory
