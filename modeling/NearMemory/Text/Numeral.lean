/-!
# Numerals

Positional numerals in any base from two to sixteen, and the two notations the assembly language
and the operand streams use: decimal, and hexadecimal with the mark `0x`.

## Main definitions

* `Numeral.digits` — the digits of a number, most significant first, without leading zeros
* `Numeral.value?` — the number a non-empty run of digits stands for
* `Numeral.read?` — a bounded number, with one plus sign allowed in front
* `Numeral.decimal`, `Numeral.hex` — the text of a number
-/

namespace NearMemory

namespace Numeral

/-- The character of the digit `d`, for `d < 16`. Lower-case letters stand for ten and above. -/
def digitChar (d : Nat) : Char :=
  if d < 10 then Char.ofNat (48 + d) else Char.ofNat (87 + d)

/-- The value of a digit in the given base. Letters of both cases stand for ten and above. -/
def digitValue? (base : Nat) (c : Char) : Option Nat :=
  let n := c.toNat
  let value :=
    if 48 ≤ n ∧ n ≤ 57 then some (n - 48)
    else if 97 ≤ n ∧ n ≤ 102 then some (n - 87)
    else if 65 ≤ n ∧ n ≤ 70 then some (n - 55)
    else none
  value.filter (· < base)

/-- The digits of `n`, most significant first. Zero is the single digit zero. -/
def digits (base n : Nat) : List Char :=
  if _h : n < base ∨ base < 2 then [digitChar n]
  else digits base (n / base) ++ [digitChar (n % base)]
termination_by n
decreasing_by exact Nat.div_lt_self (by omega) (by omega)

/-- The number that a non-empty run of digits stands for. -/
def value? (base : Nat) (cs : List Char) : Option Nat :=
  if cs.isEmpty then none
  else cs.foldlM (fun acc c => (digitValue? base c).map (acc * base + ·)) 0

/-- A number below `bound`, written with at least one digit and at most one plus sign in front. -/
def read? (base bound : Nat) (cs : List Char) : Option Nat :=
  let run := match cs with
    | '+' :: rest => rest
    | _ => cs
  (value? base run).filter (· < bound)

/-- The decimal text of a number. -/
def decimal (n : Nat) : String :=
  String.ofList (digits 10 n)

/-- The hexadecimal text of a number, in lower case, after the mark `0x`. -/
def hex (n : Nat) : String :=
  "0x" ++ String.ofList (digits 16 n)

end Numeral

end NearMemory
