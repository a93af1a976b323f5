import NearMemory.OperandStream
import NearMemory.Schedule.Body

/-!
# Schedules

A schedule multiplies the chunks of a plan and then folds the partial sums they leave, pass after
pass, until one sum is left for each row tile. Groups of a reduction are balanced, so that the last
one is not mostly empty. Partial sums that the adder tree does not provide for are added one by one.

A pass is staged as soon as it is known: its repetitions have to be counted, and its addresses
drawn. An overflow there stops the scheduler, whatever would have become of the passes behind it.

## Main definitions

* `Pass.staged` — a pass without overflow
* `Grouping` — how the partial sums of a reduction are grouped
* `reductionPasses` — the passes that fold the partial sums
* `Schedule` — a plan with its passes
* `Schedule.ofPlan`, `Schedule.make` — the schedule of a plan, and of a workload
* `Schedule.assembly` — the assembly text
-/

namespace NearMemory

/-- Whether a pass can be staged: a register of 64 bits holds its repetitions, and there are
addresses if it takes any. -/
def Pass.canStage (hw : Hardware) (p : Pass) : Bool :=
  p.iterations < UInt64.size && (p.addressReads == 0 || hw.addressMap.isAddressable)

/-- A pass that is staged. -/
def Pass.staged (hw : Hardware) (p : Pass) : Except ScheduleError Pass :=
  if p.canStage hw then .ok p else .error .overflow

/-- The partial sums left of `operands` after folding some layers. -/
def sumsAfter (operands : Nat) : Nat → Nat
  | 0 => operands
  | layers + 1 => sumsAfter (ceilDiv operands 2) layers

/-- How the partial sums of a reduction are grouped. -/
structure Grouping where
  /-- Number of groups. -/
  groups : Nat
  /-- Partial sums of a group; the last one may have fewer. -/
  size : Nat
  deriving DecidableEq, Repr

/-- Groups of nearly equal size, none larger than `widest`. Where there are several, their size is
even. -/
def Grouping.balanced (operands widest : Nat) : Grouping :=
  let groups := ceilDiv operands widest
  let size := ceilDiv operands groups
  ⟨groups, if 1 < groups ∧ size % 2 = 1 then size + 1 else size⟩

/-- The partial sums of the last group. -/
def Grouping.last (g : Grouping) (operands : Nat) : Nat := operands - (g.groups - 1) * g.size

/-- The widest group of partial sums that can be folded by one layer: its packets fit half a
register, and its operations fit the budget after two row reads. It is even unless it is everything
there is. -/
def widestGroup? (hw : Hardware) (r : Reducer) (l : TreeLayer) (operands : Nat) : Option Nat :=
  let fits := fun w =>
    decide (2 ≤ w) && (w == operands || w % 2 == 0)
      && (r.foldLayer? l (loadedPackets w (r.packetIn l)) 0).any
        fun folded => 2 + folded.size ≤ bodyBudget hw
  greatest? fits (min operands (2 * (hw.wordsPerHalf / r.packetIn l)))

/-- The pass that folds the partial sums of every row tile in groups, from a layer on. -/
def reductionPass (hw : Hardware) (r : Reducer) (tiles layer operands : Nat) (l : TreeLayer)
    (widest : Nat) : Pass :=
  let g := Grouping.balanced operands widest
  let body := Body.ofReduction hw r layer g.size (r.packetIn l)
  { kind := .reduction g.groups g.size
    body := body.instructions
    iterations := tiles * g.groups
    executions := 1
    sumsIn := operands
    sumsOut := (g.groups - 1) * body.cursor.operands
      + sumsAfter (g.last operands) (body.cursor.layer - layer)
    layerFrom := layer
    layerTo := body.cursor.layer }

/-- The pass that adds the partial sums of every row tile one after the other. -/
def tailPass (hw : Hardware) (r : Reducer) (tiles operands : Nat) : Except ScheduleError Pass :=
  let width := (AdderTree.mk r.layers).resultWidth r.initial
  let packet := Subword.wordsPerPacket r.initial width
  if hw.bufferEntries < 4 * packet + 4 then .error .tail
  else
    { kind := .tail
      body := tailInstructions width packet
      iterations := tiles * (operands - 1)
      executions := 1
      sumsIn := operands
      sumsOut := 1
      layerFrom := r.layers.length
      layerTo := r.layers.length : Pass }.staged hw

/-- The passes that fold the partial sums, at most `limit` of them before the tail. A pass folds at
least one layer, so the number of layers is limit enough. -/
def reductionPasses (hw : Hardware) (r : Reducer) (tiles : Nat) :
    (limit layer operands : Nat) → Except ScheduleError (List Pass)
  | limit, layer, operands =>
    if operands ≤ 1 then .ok []
    else
      match limit, r.layers[layer]? with
      | limit + 1, some l =>
        match widestGroup? hw r l operands with
        | none => .error (.reduction hw.bufferEntries (layer + 1))
        | some widest =>
          ((reductionPass hw r tiles layer operands l widest).staged hw).bind fun pass =>
            (reductionPasses hw r tiles limit pass.layerTo pass.sumsOut).map (pass :: ·)
      | _, _ => (tailPass hw r tiles operands).map ([·])

/-- The pass of the chunks of a plan. -/
def chunkPass (plan : Plan) (kind : Pass.Kind) (count executions : Nat) (body : Body) :
    Pass where
  kind
  body := body.instructions
  iterations := plan.tiles
  executions
  sumsIn := count
  sumsOut := body.cursor.operands
  layerFrom := 0
  layerTo := body.cursor.layer

/-- The pass of the remainder chunk, if there is one. It has to be folded as far as the full
chunks. -/
def remainderPass? (hw : Hardware) (r : Reducer) (plan : Plan) (reached : Nat) :
    Except ScheduleError (Option Pass) :=
  if plan.remainder = 0 then .ok none
  else
    let body := Body.ofChunk hw r plan.padding.nops plan.remainder (some reached)
    if body.cursor.layer = reached then
      ((chunkPass plan .remainder plan.remainder 1 body).staged hw).map some
    else .error (.remainder plan.remainder body.cursor.layer reached)

/-- A plan with its passes. -/
structure Schedule where
  /-- The hardware. -/
  hardware : Hardware
  /-- The workload. -/
  workload : Workload
  /-- The plan. -/
  plan : Plan
  /-- The passes in order. -/
  passes : List Pass
  deriving DecidableEq, Repr

namespace Schedule

/-- The schedule of a plan. The entries kept free come off the instruction buffer first, which may
be too small for them. -/
def ofPlan (hw : Hardware) (w : Workload) (plan : Plan) : Except ScheduleError Schedule :=
  let r := Reducer.ofTree plan.tree w.subwordWidth hw
  if hw.bufferEntries < Plan.reservedEntries then .error .overflow
  else do
    let full ← (chunkPass plan .chunk plan.chunk plan.fullChunks
      (Body.ofChunk hw r plan.padding.nops plan.chunk none)).staged hw
    let sums ← counted (plan.fullChunks * full.sumsOut)
    let remainder ← remainderPass? hw r plan full.layerTo
    let operands ← counted (sums + remainder.elim 0 (·.sumsOut))
    let rest ← reductionPasses hw r plan.tiles plan.tree.depth full.layerTo operands
    return ⟨hw, w, plan, full :: remainder.toList ++ rest⟩

/-- The schedule of a workload. -/
def make (hw : Hardware) (w : Workload) : Except Error Schedule :=
  match hw.violation? with
  | some e => .error (.hardware e)
  | none =>
    match Plan.make hw w with
    | .error e => .error e
    | .ok plan => (ofPlan hw w plan).mapError .schedule

/-- The warnings about a schedule. -/
def warnings (s : Schedule) : List Diagnostic :=
  s.plan.warnings ++ s.passes.flatMap (·.warnings)

/-! ### The program -/

/-- A line of a program. -/
inductive Line where
  /-- A remark, which has no effect. -/
  | remark (text : String)
  /-- A statement. -/
  | statement (statement : Statement)
  deriving DecidableEq, Repr

/-- The text of a line. -/
def Line.text : Line → String
  | .remark text => "; " ++ text
  | .statement s => s.text

/-- A remark, if the program carries remarks. -/
def remark (s : Schedule) (text : String) : List Line :=
  if s.workload.verbose then [.remark text] else []

/-- The statements before the first pass: the digit length, and a mask that enables every lane. -/
def setup (s : Schedule) : List Statement :=
  [.writeFile .digitLength 0 (some (.literal [UInt64.ofNat s.workload.digitLength])),
    .writeFile .mask 0 (some .stream)]

/-- The remark on the whole program. -/
def heading (w : Workload) : String :=
  s!"GEMM m={w.m} n={w.n} q={w.q}, SW{w.subwordWidth}, {w.digitLength} CSD digits"

/-- The lines of the program. -/
def lines (s : Schedule) : List Line :=
  s.remark (heading s.workload) ++ s.setup.map .statement
    ++ s.passes.flatMap fun p => s.remark (p.remark s.plan.limit) ++ p.statements.map .statement

/-- The assembly text of the program. -/
def assembly (s : Schedule) : String := unlines (s.lines.map (·.text))

/-- The data records that the program takes: the mask, and those of the passes. -/
def dataReads (s : Schedule) : Nat := 1 + s.passes.foldr (·.dataReads + ·) 0

/-- The address records that the program takes. -/
def addressReads (s : Schedule) : Nat := s.passes.foldr (·.addressReads + ·) 0

end Schedule

end NearMemory
