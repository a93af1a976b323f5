import NearMemory.Subword

/-!
# Workloads

A workload multiplies an `m × n` matrix by an `n × q` matrix. The second operand is given by
constants in canonical signed digits, two bits a digit.

Counts are held in registers of 64 bits, and the bits of a constant in one of 32 bits. A product
that its register cannot hold stops the scheduler then and there.

## Main definitions

* `Workload` — dimensions, subword width and digit length
* `Workload.violation?` — why a workload cannot be scheduled at all, if so
* `ScheduleError` — everything that can stop a schedule
* `counted` — a count, which a register has to hold
-/

namespace NearMemory

/-- A matrix product to be scheduled. -/
structure Workload where
  /-- Rows of the product. -/
  m : Nat
  /-- Length of the dot products. -/
  n : Nat
  /-- Columns of the product. -/
  q : Nat
  /-- Bits of a subword before the first addition. -/
  subwordWidth : Nat := 8
  /-- Digits of a constant. -/
  digitLength : Nat := 8
  /-- Whether the program carries remarks. -/
  verbose : Bool := false
  deriving DecidableEq, Repr

/-- Everything that can stop a schedule. -/
inductive ScheduleError where
  /-- A dimension is zero. -/
  | dimensions (m n q : Nat)
  /-- The subword width is not on the ladder. -/
  | width (bits : Nat)
  /-- A constant has no digits, or more than a word holds. -/
  | digitLength (digits : Nat)
  /-- A dot product of length zero. -/
  | emptyDotProduct
  /-- A packet of the widest sums exceeds half a very wide register. -/
  | registerHalf (packet bits wordsPerHalf : Nat)
  /-- Not even a chunk of one product fits the instruction buffer. -/
  | singleProduct (needed entries : Nat)
  /-- The remainder chunk is not folded as far as the full chunks. -/
  | remainder (products layer reached : Nat)
  /-- Not even two partial sums fit a reduction pass. -/
  | reduction (entries layer : Nat)
  /-- The pass that adds the last partial sums does not fit the instruction buffer. -/
  | tail
  /-- A register cannot hold a count. The scheduler stops without a report. -/
  | overflow
  deriving DecidableEq, Repr

/-- What stopped a schedule, in words. -/
def ScheduleError.message : ScheduleError → String
  | .dimensions m n q => s!"workload dimensions must be positive, got m={m} n={n} q={q}"
  | .width bits => s!"initial subword width {bits} is not a supported width"
  | .digitLength digits => s!"digit length must be in 1..=24, got {digits}"
  | .emptyDotProduct => "dot-product length must be at least 1"
  | .registerHalf packet bits wordsPerHalf =>
    s!"a {packet}-word packet at SW{bits} does not fit a VWR half of {wordsPerHalf} words"
  | .singleProduct needed entries =>
    s!"a single-product chunk needs {needed} instructions but the buffer holds {entries}"
  | .remainder products layer reached =>
    s!"remainder chunk of {products} products stops at layer {layer}, full chunks reach {reached}"
  | .reduction entries layer =>
    s!"instruction buffer of {entries} entries cannot hold one reduction of layer {layer}"
  | .tail => "instruction buffer too small for the tail reduction"
  | .overflow => "arithmetic overflow"

/-- A count, which a register of 64 bits has to hold. -/
def counted (n : Nat) : Except ScheduleError Nat :=
  if n < UInt64.size then .ok n else .error .overflow

namespace Workload

/-- The bits of a constant. -/
def constantBits (w : Workload) : Nat := w.digitLength * 2

/-- Why a workload cannot be scheduled on any hardware, if so. -/
def violation? (w : Workload) : Option ScheduleError :=
  if w.m = 0 ∨ w.n = 0 ∨ w.q = 0 then some (.dimensions w.m w.n w.q)
  else if (Subword.index? w.subwordWidth).isNone then some (.width w.subwordWidth)
  else if w.digitLength = 0 then some (.digitLength w.digitLength)
  else if UInt32.size ≤ w.constantBits then some .overflow
  else if wordBits < w.constantBits then some (.digitLength w.digitLength)
  else none

end Workload

end NearMemory
