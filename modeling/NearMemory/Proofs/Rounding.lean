import NearMemory.Schedule
import Mathlib.Algebra.Order.Ring.Nat

/-!
# Rounding up

Sizes are quotients rounded up, and the partial sums left after some layers are a count that is
halved and rounded up once a layer. Rounding up is the lower adjoint of multiplication
(`ceilDiv_le_iff`), and everything else follows from that.

Halving layer by layer rounds at every step, yet the result is the same as rounding once
(`sumsAfter_eq_ceilDiv`). Rounding the parts of a sum apart never loses anything
(`sumsAfter_add_le`): this is why groups that are folded apart leave at least as many sums as the
adder tree expects.

## Main results

* `ceilDiv_le_iff` — the adjunction
* `sumsAfter_eq_ceilDiv` — layers rounded one by one, and all at once
* `sumsAfter_add_le` — a sum folded in two parts
-/

namespace NearMemory

/-! ### Quotients -/

theorem ceilDiv_le_iff {a b k : Nat} (hb : 0 < b) : ceilDiv a b ≤ k ↔ a ≤ k * b := by
  rw [ceilDiv, Nat.div_le_iff_le_mul_add_pred hb, Nat.mul_comm]
  omega

theorem lt_ceilDiv_iff {a b k : Nat} (hb : 0 < b) : k < ceilDiv a b ↔ k * b < a := by
  rw [← Nat.not_le, ceilDiv_le_iff hb, Nat.not_le]

theorem le_ceilDiv_mul {a b : Nat} (hb : 0 < b) : a ≤ ceilDiv a b * b :=
  (ceilDiv_le_iff hb).mp (Nat.le_refl _)

theorem ceilDiv_two (n : Nat) : ceilDiv n 2 = (n + 1) / 2 := by
  simp only [ceilDiv]
  omega

/-- Rounding up twice is rounding up once. -/
theorem ceilDiv_ceilDiv {a b c : Nat} (hb : 0 < b) (hc : 0 < c) :
    ceilDiv (ceilDiv a b) c = ceilDiv a (b * c) := by
  -- both sides are the least number above the same bounds
  have hiff : ∀ k, ceilDiv (ceilDiv a b) c ≤ k ↔ ceilDiv a (b * c) ≤ k := by
    intro k
    rw [ceilDiv_le_iff hc, ceilDiv_le_iff hb, ceilDiv_le_iff (Nat.mul_pos hb hc), Nat.mul_assoc,
      Nat.mul_comm c b]
  exact Nat.le_antisymm ((hiff _).mpr (Nat.le_refl _)) ((hiff _).mp (Nat.le_refl _))

/-! ### Layers -/

@[simp] theorem sumsAfter_zero (n : Nat) : sumsAfter n 0 = n := rfl

theorem sumsAfter_eq_ceilDiv (n layers : Nat) : sumsAfter n layers = ceilDiv n (2 ^ layers) := by
  induction layers generalizing n with
  | zero => simp [ceilDiv]
  | succ layers ih =>
    rw [sumsAfter, ih, ceilDiv_ceilDiv Nat.zero_lt_two (Nat.two_pow_pos layers), Nat.pow_succ,
      Nat.mul_comm 2]

theorem sumsAfter_le_iff {n layers k : Nat} : sumsAfter n layers ≤ k ↔ n ≤ k * 2 ^ layers := by
  rw [sumsAfter_eq_ceilDiv, ceilDiv_le_iff (Nat.two_pow_pos layers)]

theorem sumsAfter_add (n j k : Nat) : sumsAfter n (j + k) = sumsAfter (sumsAfter n j) k := by
  induction j generalizing n with
  | zero => rw [Nat.zero_add, sumsAfter_zero]
  | succ j ih => rw [Nat.succ_add, sumsAfter, ih, sumsAfter]

theorem sumsAfter_succ (n layers : Nat) :
    sumsAfter n (layers + 1) = ceilDiv (sumsAfter n layers) 2 := by
  rw [sumsAfter_add]
  rfl

theorem sumsAfter_mono {a b : Nat} (h : a ≤ b) (layers : Nat) :
    sumsAfter a layers ≤ sumsAfter b layers :=
  sumsAfter_le_iff.mpr (Nat.le_trans h (sumsAfter_le_iff.mp (Nat.le_refl _)))

theorem sumsAfter_pos {n : Nat} (h : 0 < n) (layers : Nat) : 0 < sumsAfter n layers := by
  rw [sumsAfter_eq_ceilDiv, lt_ceilDiv_iff (Nat.two_pow_pos layers), Nat.zero_mul]
  exact h

theorem sumsAfter_le (n layers : Nat) : sumsAfter n layers ≤ n :=
  sumsAfter_le_iff.mpr (Nat.le_mul_of_pos_right n (Nat.two_pow_pos layers))

/-- **Nothing is lost in groups.** Two parts folded apart leave at least what the whole leaves. -/
theorem sumsAfter_add_le (a b layers : Nat) :
    sumsAfter (a + b) layers ≤ sumsAfter a layers + sumsAfter b layers := by
  rw [sumsAfter_le_iff, Nat.add_mul]
  exact Nat.add_le_add (sumsAfter_le_iff.mp (Nat.le_refl _)) (sumsAfter_le_iff.mp (Nat.le_refl _))

theorem sumsAfter_mul_le (count n layers : Nat) :
    sumsAfter (count * n) layers ≤ count * sumsAfter n layers := by
  rw [sumsAfter_le_iff, Nat.mul_assoc]
  exact Nat.mul_le_mul_left count (sumsAfter_le_iff.mp (Nat.le_refl _))

/-- A layer at least halves the sums. -/
theorem sumsAfter_le_ceilDiv_two {n layers : Nat} (h : 1 ≤ layers) :
    sumsAfter n layers ≤ ceilDiv n 2 := by
  obtain ⟨more, rfl⟩ := Nat.exists_eq_add_of_le h
  rw [Nat.add_comm, sumsAfter]
  exact sumsAfter_le _ more

end NearMemory
