import NearMemory.Json.Document
import NearMemory.Schedule

/-!
# Schedule summaries

A schedule can be written down as a report for other programs.

## Main definitions

* `Schedule.summary` — the report of a schedule
-/

namespace NearMemory

/-- The report of a list of reports. -/
def Document.list {α : Type} (f : α → Document) (xs : List α) : Document := .items (xs.map f)

/-- The name of a pass kind in reports. -/
def Pass.Kind.name : Pass.Kind → String
  | .chunk => "chunk"
  | .remainder => "peel"
  | .reduction _ _ => "reduction"
  | .tail => "tail"

/-- The name of a width step in reports: the widths it leads between. -/
def WidthStep.name (r : WidthStep) : String :=
  "W" ++ Numeral.decimal r.source ++ "To" ++ Numeral.decimal r.target

/-- The report of a workload. -/
def Workload.summary (w : Workload) : Document :=
  .fields [
    ("m", .count w.m),
    ("n", .count w.n),
    ("q", .count w.q),
    ("subword_width", .count w.subwordWidth),
    ("digit_len", .count w.digitLength),
    ("verbose", .flag w.verbose)]

/-- The report of a layer. -/
def TreeLayer.summary (l : TreeLayer) : Document :=
  .fields [
    ("index", .count l.index),
    ("inputs", .count l.inputs),
    ("outputs", .count l.outputs),
    ("additions", .count l.additions),
    ("sw_in", .count l.widthIn),
    ("sw_out", .count l.widthOut),
    ("repack", l.step.elim .absent fun r => .text r.name),
    ("add_ops", .count l.addCount),
    ("repack_ops", .count l.packCount),
    ("overflow_risk", .flag l.mayOverflow)]

/-- The report of a pass. -/
def Pass.summary (p : Pass) : Document :=
  .fields [
    ("kind", .text p.kind.name),
    ("body_len", .count p.body.length),
    ("iterations", .count p.iterations),
    ("execs", .count p.executions),
    ("operands_in", .count p.sumsIn),
    ("operands_out", .count p.sumsOut),
    ("layers", .items [.count p.layerFrom, .count p.layerTo])]

/-- The report of a diagnostic. -/
def Diagnostic.summary (d : Diagnostic) : Document :=
  .fields [("line", d.line?.elim .absent .count), ("message", .text d.notice.message)]

/-- The report of the wait after a multiply. -/
def Padding.summary (p : Padding) : Document :=
  .fields [
    ("latency", .count p.latency),
    ("pad_cycles", .count p.cycles),
    ("pad_nops", .count p.nops)]

/-- The report of an adder tree. -/
def AdderTree.summary (t : AdderTree) : Document :=
  .fields [
    ("layers", .list TreeLayer.summary t.layers),
    ("warnings", .list Diagnostic.summary t.warnings)]

/-- The report of a plan. -/
def Plan.summary (p : Plan) : Document :=
  .fields [
    ("mode", .text p.limit.name),
    ("chunk", .count p.chunk),
    ("full_chunks", .count p.fullChunks),
    ("peel", .count p.remainder),
    ("q_tiles", .count p.tilesPerRow),
    ("row_tiles", .count p.tiles),
    ("mul_ops_per_row", .count p.multipliesPerRow),
    ("padding", p.padding.summary),
    ("tree", p.tree.summary),
    ("warnings", .list Diagnostic.summary p.warnings)]

/-- The report of a schedule. -/
def Schedule.summary (s : Schedule) : Document :=
  .fields [
    ("workload", s.workload.summary),
    ("mode", .text s.plan.limit.name),
    ("chunk", .count s.plan.chunk),
    ("full_chunks", .count s.plan.fullChunks),
    ("peel", .count s.plan.remainder),
    ("row_tiles", .count s.plan.tiles),
    ("mul_ops_per_row", .count s.plan.multipliesPerRow),
    ("pad_nops", .count s.plan.padding.nops),
    ("tree", .list TreeLayer.summary s.plan.tree.layers),
    ("passes", .list Pass.summary s.passes),
    ("warnings", .list Diagnostic.summary s.warnings)]

end NearMemory
