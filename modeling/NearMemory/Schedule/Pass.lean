import NearMemory.Plan
import NearMemory.Statement

/-!
# Passes

A schedule is a sequence of passes. A pass stages one body in the instruction buffer, sets the loop
register so that the body is repeated, and executes it some times.

## Main definitions

* `Pass.Kind` — what a pass computes
* `Pass` — body, repetitions, and what it does to the partial sums
* `Pass.statements` — the assembly statements of a pass
* `Pass.dataReads`, `Pass.addressReads` — the records it takes from the operand streams
-/

namespace NearMemory

/-- What a pass computes. -/
inductive Pass.Kind where
  /-- The products of the full chunks. -/
  | chunk
  /-- The products of the remainder chunk. -/
  | remainder
  /-- Sums of partial sums, folded in groups. -/
  | reduction (groups size : Nat)
  /-- The sum of the last partial sums, one after the other. -/
  | tail
  deriving DecidableEq, Repr

/-- A body that is staged once and executed some times. -/
structure Pass where
  /-- What it computes. -/
  kind : Pass.Kind
  /-- The instructions, without the exit marker. -/
  body : List Instruction
  /-- Repetitions of the body in one execution. -/
  iterations : Nat
  /-- Executions. -/
  executions : Nat
  /-- Partial sums of a row tile before the pass. -/
  sumsIn : Nat
  /-- Partial sums of a row tile after the pass. -/
  sumsOut : Nat
  /-- First layer of the adder tree that is folded. -/
  layerFrom : Nat
  /-- The layer after the last one that is folded. -/
  layerTo : Nat
  deriving DecidableEq, Repr

namespace Pass

/-- The remark on a pass, for chunks of the given limit. -/
def remark (p : Pass) (limit : ChunkLimit) : String :=
  match p.kind with
  | .chunk => s!"multiply: {p.executions} chunk(s) of {p.sumsIn} products, {limit.text}"
  | .remainder => s!"multiply: remainder of {p.sumsIn} products"
  | .reduction groups size =>
    s!"reduce: {p.sumsIn} partial sums in {groups} group(s) of {size}, "
      ++ s!"layers {p.layerFrom + 1}..{p.layerTo}"
  | .tail => s!"tail: {p.sumsIn} partial sums accumulated pairwise"

/-- What deserves a warning about a pass: sums that the adder tree does not provide for. -/
def warnings (p : Pass) : List Diagnostic :=
  match p.kind with
  | .tail => [{ notice := .linearTail p.sumsIn }]
  | _ => []

/-- The loop over the whole body. -/
def loop (p : Pass) : LoopRegister := ⟨0, p.body.length - 1, p.iterations⟩

/-- The statements of a pass: stage the body and the exit marker, set the loop, execute. -/
def statements (p : Pass) : List Statement :=
  .writeFile .instrBuffer 0 none :: p.body.map .instruction
    ++ .instruction { op := .exit } :: .writeLoop p.loop
    :: List.replicate p.executions .execute

/-- How often the body runs. -/
def runs (p : Pass) : Nat := p.executions * p.iterations

/-- The data records that a pass takes. -/
def dataReads (p : Pass) : Nat := p.runs * p.body.countP (·.readsData)

/-- The address records that a pass takes. -/
def addressReads (p : Pass) : Nat := p.runs * p.body.countP (·.readsAddress)

end Pass

end NearMemory
