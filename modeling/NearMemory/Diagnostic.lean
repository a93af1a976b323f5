import NearMemory.Instruction.Word

/-!
# Diagnostics

Remarks that do not stop a run: values that a packed field cuts, sums that may overflow their
subwords, and schedules that are slower than the memory allows.

## Main definitions

* `Notice` — the causes of a remark
* `Diagnostic` — a notice, with the source line it belongs to if there is one
-/

namespace NearMemory

/-- The causes of a diagnostic. -/
inductive Notice where
  /-- A layer of the adder tree that cannot widen its sums any further. -/
  | mayOverflow (layer width : Nat)
  /-- Padding after a multiply that takes longer than a memory access. -/
  | longPadding (cycles interval : Nat)
  /-- Partial sums left over when every layer of the adder tree is folded. -/
  | linearTail (operands : Nat)
  /-- A field of a staged instruction that packing cuts. -/
  | fieldCut (entry : Nat) (field : NumericField)
  /-- A loop count that packing cuts. -/
  | loopCountCut (count : Nat)
  deriving DecidableEq, Repr

/-- A notice in words. -/
def Notice.message : Notice → String
  | .mayOverflow layer width =>
    s!"adder-tree layer {layer}: subword width already {width} bits, partial sums may overflow"
  | .longPadding cycles interval =>
    s!"multiply padding of {cycles} cycles exceeds the DRAM interval of {interval}"
  | .linearTail operands =>
    s!"adder tree exhausted with {operands} partial sums left, appending a linear tail reduction"
  | .fieldCut entry field => s!"IB{entry}: {field.message}"
  | .loopCountCut count => s!"loop count {count} truncated to 32 bits"

/-- A remark on a run. -/
structure Diagnostic where
  /-- The source line it belongs to. -/
  line? : Option Nat := none
  /-- Its cause. -/
  notice : Notice
  deriving DecidableEq, Repr

/-- A diagnostic in words. -/
def Diagnostic.text (d : Diagnostic) : String :=
  match d.line? with
  | some line => s!"line {line}: {d.notice.message}"
  | none => d.notice.message

end NearMemory
