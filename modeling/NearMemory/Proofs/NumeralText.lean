import NearMemory.Token

/-!
# Numerals read back

A number that is written in some base reads back in that base. The digits of a number are digits of
every scanner that meets them: none of them is a sign, a blank or a mark.

## Main results

* `Numeral.value?_digits` — the value of the digits of a number
* `Numeral.read?_digits` — a bounded number reads back
* `Numeral.isDigit_of_mem_digits`, `Numeral.isHexDigit_of_mem_digits` — what digits look like
-/

namespace NearMemory

namespace Numeral

variable {base n : Nat}

/-! ### Digits -/

theorem digitValue?_digitChar {d : Nat} (hd : d < base) (hbase : base ≤ 16) :
    digitValue? base (digitChar d) = some d := by
  have hvalue : ∀ d < 16, digitValue? 16 (digitChar d) = some d := by decide
  have hd' := hvalue d (Nat.lt_of_lt_of_le hd hbase)
  simp only [digitValue?, Option.filter_eq_some_iff, decide_eq_true_iff] at hd' ⊢
  exact ⟨hd'.1, hd⟩

theorem digits_of_lt (h : n < base) : digits base n = [digitChar n] := by
  rw [digits, dif_pos (.inl h)]

theorem digits_of_le (hbase : 2 ≤ base) (h : base ≤ n) :
    digits base n = digits base (n / base) ++ [digitChar (n % base)] := by
  rw [digits, dif_neg (by omega)]

/-- Numbers with their digits: one digit, or a digit behind those of a quotient. -/
theorem digits_induction {motive : Nat → Prop} (hbase : 2 ≤ base) (n : Nat)
    (single : ∀ n < base, motive n) (more : ∀ n, base ≤ n → motive (n / base) → motive n) :
    motive n := by
  induction n using Nat.strongRecOn with
  | ind n ih =>
    by_cases h : n < base
    · exact single n h
    · exact more n (Nat.le_of_not_lt h) (ih (n / base) (Nat.div_lt_self (by omega) hbase))

theorem digits_ne_nil (hbase : 2 ≤ base) (n : Nat) : digits base n ≠ [] := by
  by_cases h : n < base
  · simp [digits_of_lt h]
  · simp [digits_of_le hbase (Nat.le_of_not_lt h)]

theorem exists_of_mem_digits {c : Char} (hbase : 2 ≤ base) (h : c ∈ digits base n) :
    ∃ d < base, c = digitChar d := by
  induction n using digits_induction hbase with
  | single n hn =>
    rw [digits_of_lt hn, List.mem_singleton] at h
    exact ⟨n, hn, h⟩
  | more n hn ih =>
    rw [digits_of_le hbase hn, List.mem_append, List.mem_singleton] at h
    rcases h with h | h
    · exact ih h
    · exact ⟨n % base, Nat.mod_lt _ (by omega), h⟩

theorem isHexDigit_of_mem_digits {c : Char} (hbase : 2 ≤ base) (hle : base ≤ 16)
    (h : c ∈ digits base n) : Token.isHexDigit c = true := by
  have hdigit : ∀ d < 16, Token.isHexDigit (digitChar d) = true := by decide
  obtain ⟨d, hd, rfl⟩ := exists_of_mem_digits hbase h
  exact hdigit d (Nat.lt_of_lt_of_le hd hle)

theorem isDigit_of_mem_digits {c : Char} (hbase : 2 ≤ base) (hle : base ≤ 10)
    (h : c ∈ digits base n) : Token.isDigit c = true := by
  have hdigit : ∀ d < 10, Token.isDigit (digitChar d) = true := by decide
  obtain ⟨d, hd, rfl⟩ := exists_of_mem_digits hbase h
  exact hdigit d (Nat.lt_of_lt_of_le hd hle)

/-! ### Values -/

theorem foldlM_digits (hbase : 2 ≤ base) (hle : base ≤ 16) (n : Nat) :
    (digits base n).foldlM (fun acc c => (digitValue? base c).map (acc * base + ·)) 0 = some n := by
  induction n using digits_induction hbase with
  | single n hn =>
    rw [digits_of_lt hn, List.foldlM_cons, digitValue?_digitChar hn hle]
    simp
  | more n hn ih =>
    rw [digits_of_le hbase hn, List.foldlM_append, ih]
    have hlast := digitValue?_digitChar (Nat.mod_lt n (show base > 0 by omega)) hle
    rw [Option.bind_eq_bind, Option.bind_some, List.foldlM_cons, hlast, Option.map_some,
      Nat.div_add_mod']
    rfl

/-- **The digits of a number stand for it.** -/
theorem value?_digits (hbase : 2 ≤ base) (hle : base ≤ 16) (n : Nat) :
    value? base (digits base n) = some n := by
  rw [value?, if_neg (by simpa using digits_ne_nil hbase n)]
  exact foldlM_digits hbase hle n

theorem read?_digits {bound : Nat} (hbase : 2 ≤ base) (hle : base ≤ 16) (h : n < bound) :
    read? base bound (digits base n) = some n := by
  have hsign : ∀ rest, digits base n ≠ '+' :: rest := by
    intro rest heq
    have hplus : Token.isHexDigit '+' = true :=
      isHexDigit_of_mem_digits hbase hle (heq ▸ List.mem_cons_self ..)
    exact absurd hplus (by decide)
  rw [read?, value?_digits hbase hle, Option.filter_some_pos (by simpa using h)]
  exact hsign

/-! ### Notations -/

theorem toList_decimal (n : Nat) : (decimal n).toList = digits 10 n :=
  String.toList_ofList

theorem toList_hex (n : Nat) : (hex n).toList = '0' :: 'x' :: digits 16 n := by
  simp only [hex, String.toList_append, String.toList_ofList]
  rfl

end Numeral

end NearMemory
