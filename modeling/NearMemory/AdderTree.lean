import NearMemory.Diagnostic
import NearMemory.Workload

/-!
# The adder tree

The products of a dot product are summed by a binary tree. Each layer adds neighbouring sums, and a
sum that is left over is carried. Sums grow by one bit a layer, so the subword width climbs the
ladder: always at the first layer, and later when the layers since the last climb have used up what
that climb gained. At the top of the ladder a climb that is due is a risk of overflow.

A layer counts its instructions in registers. A dot product of which a layer has more instructions
than a register can hold has no tree.

## Main definitions

* `TreeLayer` — one layer of the tree
* `TreeLayer.isCounted` — registers hold the counts of a layer
* `AdderTree` — the layers from the products to the dot product
* `AdderTree.build` — the tree of a dot product
* `AdderTree.warnings` — the layers at risk of overflow
-/

namespace NearMemory

/-- A layer of the adder tree. -/
structure TreeLayer where
  /-- Position in the tree, from one on. -/
  index : Nat
  /-- Sums that enter. -/
  inputs : Nat
  /-- Sums that leave. -/
  outputs : Nat
  /-- Additions made. -/
  additions : Nat
  /-- Subword width of the sums that enter. -/
  widthIn : Nat
  /-- Subword width of the sums that leave. -/
  widthOut : Nat
  /-- The width step, if the width changes. -/
  step : Option WidthStep
  /-- Add instructions for one output row. -/
  addCount : Nat
  /-- Pack instructions for one output row. -/
  packCount : Nat
  /-- Whether the sums may overflow. -/
  mayOverflow : Bool
  deriving DecidableEq, Repr

/-- Whether registers of 64 bits hold the counts of a layer. -/
def TreeLayer.isCounted (l : TreeLayer) : Bool :=
  l.addCount < UInt64.size && l.packCount < UInt64.size

/-- The layers of an adder tree, from the products on. -/
structure AdderTree where
  /-- The layers in order. -/
  layers : List TreeLayer
  deriving DecidableEq, Repr

namespace AdderTree

/-- Whether a layer is due to widen its sums: the first one always, a later one when the width
gained by the last climb is used up. -/
def isDue (index width sinceGrowth : Nat) : Bool :=
  index == 1 || width - Subword.previous width ≤ sinceGrowth

/-- One layer of the tree. -/
def layer (q index inputs width sinceGrowth : Nat) : TreeLayer :=
  let due := isDue index width sinceGrowth
  let widthOut := if due && width < Subword.widest then Subword.next width else width
  let step := WidthStep.between? width widthOut
  { index
    inputs
    outputs := ceilDiv inputs 2
    additions := inputs / 2
    widthIn := width
    widthOut
    step
    addCount := inputs / 2 * Subword.tiles q width
    packCount := if step.isSome then ceilDiv inputs 2 * Subword.tiles q widthOut else 0
    mayOverflow := due && !(width < Subword.widest) }

/-- The layers that sum `inputs` sums, from the given position on. -/
def layersFrom (q index inputs width sinceGrowth : Nat) : List TreeLayer :=
  if _h : inputs ≤ 1 then []
  else
    let l := layer q index inputs width sinceGrowth
    l :: layersFrom q (index + 1) (ceilDiv inputs 2) l.widthOut
      (if l.widthOut = width then sinceGrowth + 1 else 1)
termination_by inputs
decreasing_by simp only [ceilDiv]; omega

/-- The tree of dot products of length `n`, whose products have the given subword width, for output
rows of `q` columns. -/
def build (n width q : Nat) : Except ScheduleError AdderTree :=
  if n = 0 then .error .emptyDotProduct
  else if (Subword.index? width).isNone then .error (.width width)
  else if (layersFrom q 1 n width 0).all (·.isCounted) then .ok ⟨layersFrom q 1 n width 0⟩
  else .error .overflow

/-- The number of layers. -/
def depth (t : AdderTree) : Nat := t.layers.length

/-- The subword width of the dot products. -/
def resultWidth (t : AdderTree) (initial : Nat) : Nat :=
  (t.layers.getLast?.map (·.widthOut)).getD initial

/-- One remark for each layer at risk of overflow. -/
def warnings (t : AdderTree) : List Diagnostic :=
  (t.layers.filter (·.mayOverflow)).map fun l => { notice := .mayOverflow l.index l.widthIn }

end AdderTree

end NearMemory
