import NearMemory.Text.Numeral

/-!
# The hardware loop register

The loop register repeats a range of the instruction buffer. It packs into one 64-bit word: the
first index in six bits, the last index in six bits, and the number of passes in 32 bits.

## Main definitions

* `LoopRegister` — the range and the number of passes
* `LoopRegister.encode`, `LoopRegister.decode` — the packed word; values are cut to their fields
-/

namespace NearMemory

/-- A repeated range of the instruction buffer. -/
structure LoopRegister where
  /-- First entry of the range. -/
  start : Nat := 0
  /-- Last entry of the range. -/
  finish : Nat := 0
  /-- Number of passes over the range, the first one included. -/
  iterations : Nat := 0
  deriving DecidableEq, Repr

namespace LoopRegister

/-- The bits of the pass count. -/
def countBits : Nat := 32

/-- The packed word of a loop register. -/
def encode (r : LoopRegister) : UInt64 :=
  UInt64.ofNat (r.start % 64 * (1 <<< 38) + r.finish % 64 * (1 <<< 32) + r.iterations % (1 <<< 32))

/-- The loop register of a word. The bits above the fields are ignored. -/
def decode (word : UInt64) : LoopRegister where
  start := word.toNat / (1 <<< 38) % 64
  finish := word.toNat / (1 <<< 32) % 64
  iterations := word.toNat % (1 <<< 32)

/-- The assembly line that writes a loop register. -/
def text (r : LoopRegister) : String :=
  "LOOP " ++ Numeral.decimal r.start ++ " " ++ Numeral.decimal r.finish ++ " "
    ++ Numeral.decimal r.iterations

end LoopRegister

end NearMemory
