import NearMemory.Error
import NearMemory.Folding.Layer

/-!
# Plans

The products of a dot product are multiplied in chunks. A chunk has to fit the very wide registers,
the constant store and the instruction buffer, together with the first layer of additions; the chunk
size is the largest that does, made even so that no sum is carried without need.

## Main definitions

* `ChunkLimit` — the capacity that limits the chunk size
* `Padding` — the wait after a multiply
* `greatest?` — the largest number up to a bound with a property
* `Plan` — chunk size, tiles and adder tree of a workload
* `Plan.make` — the plan of a workload
-/

namespace NearMemory

/-- The capacity that limits the chunk size. -/
inductive ChunkLimit where
  /-- Only the very wide registers, or the workload itself. -/
  | registers
  /-- The constant store. -/
  | constantStore
  /-- The instruction buffer. -/
  | instrBuffer
  deriving DecidableEq, Repr

namespace ChunkLimit

/-- The text of a limit. -/
def text : ChunkLimit → String
  | .registers => "unconstrained"
  | .constantStore => "constant-store constrained"
  | .instrBuffer => "instruction-buffer constrained"

/-- The name of a limit in reports. -/
def name : ChunkLimit → String
  | .registers => "unconstrained"
  | .constantStore => "constant_store_constrained"
  | .instrBuffer => "instr_buffer_constrained"

/-- The order of limits by how tight they are. The two that are tighter than the registers are not
comparable. -/
def compare? (a b : ChunkLimit) : Option Ordering :=
  if a = b then some .eq
  else if a = .registers then some .lt
  else if b = .registers then some .gt
  else none

end ChunkLimit

/-- The wait after a multiply, which takes a cycle for every second digit. -/
structure Padding where
  /-- Cycles of a multiply. -/
  latency : Nat
  /-- Cycles beyond the interval of memory accesses. -/
  cycles : Nat
  /-- Empty instructions that fill them. -/
  nops : Nat
  deriving DecidableEq, Repr

namespace Padding

/-- The padding for constants of the given digits. -/
def ofDigits (digits interval : Nat) : Padding where
  latency := ceilDiv digits 2
  cycles := ceilDiv digits 2 - interval
  nops := ceilDiv (ceilDiv digits 2 - interval) interval

/-- The padding; absent when memory accesses have no interval. -/
def ofDigits? (digits interval : Nat) : Option Padding :=
  if interval = 0 then none else some (ofDigits digits interval)

end Padding

/-- The largest number from one to `bound` with a property. -/
def greatest? (p : Nat → Bool) : Nat → Option Nat
  | 0 => none
  | n + 1 => if p (n + 1) then some (n + 1) else greatest? p n

/-- The plan of a workload. -/
structure Plan where
  /-- What limits the chunk size. -/
  limit : ChunkLimit
  /-- Products of a chunk. -/
  chunk : Nat
  /-- Chunks of full size. -/
  fullChunks : Nat
  /-- Products that are left for a smaller chunk. -/
  remainder : Nat
  /-- Instructions that cover an output row. -/
  tilesPerRow : Nat
  /-- Instructions that cover the output. -/
  tiles : Nat
  /-- Multiplies for one output row. -/
  multipliesPerRow : Nat
  /-- The wait after a multiply. -/
  padding : Padding
  /-- The adder tree. -/
  tree : AdderTree
  /-- Remarks on the plan. -/
  warnings : List Diagnostic
  deriving DecidableEq, Repr

namespace Plan

/-- Entries kept free behind the operations of a body: two permutations, two row writes and the exit
marker. -/
def reservedEntries : Nat := 5

/-- The operations that fold the first layer of a chunk of `c` products; absent when the sums do not
fit. A single product is not folded. -/
def foldCost? (r : Reducer) (c : Nat) : Option Nat :=
  if c < 2 then some 0 else (r.foldAt? 0 (loadedPackets c 1) 0).map (·.size)

/-- The entries that a chunk of `c` products needs at least: constants, row reads, padded
multiplies, the first layer of additions and the entries kept free. -/
def bodyCost? (r : Reducer) (nops c : Nat) : Option Nat :=
  (foldCost? r c).map fun cost =>
    c + (if 1 < c then 2 else 1) + c * (1 + nops) + cost + reservedEntries

/-- Whether a chunk of `c` products fits the instruction buffer. -/
def fits (r : Reducer) (nops entries c : Nat) : Bool :=
  (bodyCost? r nops c).any (· ≤ entries)

/-- The chunk size that the very wide registers allow: the largest whose first layer fits, or
one. -/
def registerChunk (r : Reducer) (hw : Hardware) (n : Nat) : Nat :=
  (greatest? (fun c => c ≤ 1 || (foldCost? r c).isSome) (min hw.registerWords n)).getD 0

/-- The chunk size that the constant store allows as well. -/
def storeChunk (r : Reducer) (hw : Hardware) (n : Nat) : ChunkLimit × Nat :=
  let c := registerChunk r hw n
  if hw.storeEntries < c then (.constantStore, hw.storeEntries) else (.registers, c)

/-- The chunk size that all capacities allow. -/
def bufferChunk (r : Reducer) (hw : Hardware) (n nops : Nat) :
    Except ScheduleError (ChunkLimit × Nat) :=
  let (limit, c) := storeChunk r hw n
  if fits r nops hw.bufferEntries c then .ok (limit, c)
  else
    match greatest? (fits r nops hw.bufferEntries) c with
    | some c => .ok (.instrBuffer, c)
    | none => .error (.singleProduct ((bodyCost? r nops 1).getD 0) hw.bufferEntries)

/-- An odd chunk size is lowered by one, unless it is one or covers the whole dot product. -/
def evened (c n : Nat) : Nat :=
  if 1 < c ∧ c % 2 = 1 ∧ c < n then c - 1 else c

/-- The plan of a workload that is valid for hardware that is valid. -/
def makeChecked (hw : Hardware) (w : Workload) : Except ScheduleError Plan := do
  let tilesPerRow := Subword.tiles w.q w.subwordWidth
  let tiles ← counted (w.m * tilesPerRow)
  let multipliesPerRow ← counted (w.n * tilesPerRow)
  let tree ← AdderTree.build w.n w.subwordWidth w.q
  let width := tree.resultWidth w.subwordWidth
  let packet := Subword.wordsPerPacket w.subwordWidth width
  if hw.wordsPerHalf < packet then
    throw (.registerHalf packet width hw.wordsPerHalf)
  let padding := Padding.ofDigits w.digitLength hw.accessInterval
  let slow : List Diagnostic :=
    if hw.accessInterval < padding.cycles
    then [{ notice := .longPadding padding.cycles hw.accessInterval }] else []
  let (limit, c) ← bufferChunk (Reducer.ofTree tree w.subwordWidth hw) hw w.n padding.nops
  let chunk := evened c w.n
  return {
    limit
    chunk
    fullChunks := w.n / chunk
    remainder := w.n % chunk
    tilesPerRow
    tiles
    multipliesPerRow
    padding
    tree
    warnings := tree.warnings ++ slow }

end Plan

/-- The plan of a workload. The workload is checked first, then the hardware. -/
def Plan.make (hw : Hardware) (w : Workload) : Except Error Plan :=
  match w.violation? with
  | some e => .error (.schedule e)
  | none =>
    match hw.violation? with
    | some e => .error (.hardware e)
    | none => (makeChecked hw w).mapError .schedule

end NearMemory
