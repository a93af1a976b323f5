import NearMemory.Folding.Layer

/-!
# Folding layers in turn

Layers are folded one after the other as long as the operations fit a budget. Folding can be resumed
where it stopped.

## Main definitions

* `Cursor` — how far folding has come
* `FoldStop` — why it came no further
* `Folding` — cursor, packets of the partial sums, and the operations so far
* `Reducer.fold` — fold as many layers as possible
-/

namespace NearMemory

/-- How far folding has come. -/
structure Cursor where
  /-- Layers folded. -/
  layer : Nat := 0
  /-- Instructions of the body so far. -/
  issued : Nat := 0
  /-- Partial sums left. -/
  operands : Nat := 0
  /-- The half of the very wide registers that holds them. -/
  half : Nat := 0
  deriving DecidableEq, Repr

/-- Why folding stopped. -/
inductive FoldStop where
  /-- The next layer does not fit the budget. -/
  | budget
  /-- There is nothing left to add. -/
  | nothingToAdd
  /-- The given number of layers is folded. -/
  | limit
  /-- Every layer is folded. -/
  | noLayers
  /-- The results of the next layer do not fit. -/
  | capacity
  /-- A register of 64 bits cannot hold the instructions with those of the next layer. This is no
  reason to go on elsewhere: the run stops without a report. -/
  | overflow
  deriving DecidableEq, Repr

/-- The state of folding. -/
structure Folding where
  /-- How far it has come. -/
  cursor : Cursor
  /-- Where the partial sums are. -/
  packets : List Packet
  /-- The operations issued. -/
  out : List Operation := []
  deriving DecidableEq, Repr

/-- The state after one more layer. -/
def Folding.advance (f : Folding) (folded : FoldedLayer) : Folding where
  cursor :=
    { layer := f.cursor.layer + 1
      issued := f.cursor.issued + folded.size
      operands := folded.reduced + folded.carried
      half := f.cursor.half ^^^ 1 }
  packets := folded.packets
  out := f.out ++ folded.operations

namespace Reducer

/-- Fold the given layers, the next ones of the tree. A lone partial sum is carried through further
layers only up to a given limit. -/
def foldLayers (r : Reducer) (budget : Nat) (limit : Option Nat) :
    List TreeLayer → Folding → Folding × FoldStop
  | [], f => (f, .noLayers)
  | l :: rest, f =>
    if limit.any (· ≤ f.cursor.layer) then (f, .limit)
    else if f.packets.isEmpty || (f.packets.length == 1 && limit.isNone) then (f, .nothingToAdd)
    else
      match r.foldLayer? l f.packets f.cursor.half with
      | none => (f, .capacity)
      | some folded =>
        if budget < f.cursor.issued + folded.size then
          (f, if f.cursor.issued + folded.size < UInt64.size then .budget else .overflow)
        else r.foldLayers budget limit rest (f.advance folded)

/-- Fold as many layers as the budget and the limit allow. -/
def fold (r : Reducer) (budget : Nat) (limit : Option Nat) (f : Folding) : Folding × FoldStop :=
  r.foldLayers budget limit (r.layers.drop f.cursor.layer) f

end Reducer

end NearMemory
