import NearMemory.AdderTree
import NearMemory.Hardware
import NearMemory.Packet

/-!
# Folding one layer

A layer of the adder tree is folded by adding neighbouring packets word by word. Results go to the
half of the very wide registers that does not hold the operands, in turn to the two registers; a
packet without a neighbour is carried over.

## Main definitions

* `Reducer` — the layers, the initial width and the size of a half
* `FreeWords` — the words of a half that are given out
* `FoldedLayer` — the operations of one layer and the packets of its results
* `Reducer.foldLayer?`, `Reducer.foldAt?` — a layer folded, if its results fit
-/

namespace NearMemory

/-- What folding needs to know of the tree and the hardware. -/
structure Reducer where
  /-- The layers of the adder tree. -/
  layers : List TreeLayer
  /-- The subword width of the products. -/
  initial : Nat
  /-- The words of half a very wide register. -/
  wordsPerHalf : Nat
  deriving DecidableEq, Repr

/-- The reducer of a tree. -/
def Reducer.ofTree (tree : AdderTree) (initial : Nat) (hw : Hardware) : Reducer :=
  ⟨tree.layers, initial, hw.wordsPerHalf⟩

/-- The words of a half that are given out, in each of the two very wide registers. -/
structure FreeWords where
  /-- First word of the half. -/
  base : Nat
  /-- Words of the half. -/
  size : Nat
  /-- Words given out in the first register. -/
  used0 : Nat := 0
  /-- Words given out in the second register. -/
  used1 : Nat := 0
  deriving DecidableEq, Repr

/-- A packet in the given register, absent when it does not fit. -/
def FreeWords.take? (f : FreeWords) (packet target : Nat) : Option (Packet × FreeWords) :=
  let used := if target = 0 then f.used0 else f.used1
  if f.size < used + packet then none
  else
    some (⟨target, f.base + used⟩,
      if target = 0 then { f with used0 := used + packet } else { f with used1 := used + packet })

/-- The operations of one layer. -/
structure FoldedLayer where
  /-- The operations of each addition. -/
  pairs : List (List Operation) := []
  /-- The operations that carry the packet without a neighbour. -/
  carry : List Operation := []
  /-- The packets of the results. -/
  packets : List Packet := []
  deriving DecidableEq, Repr

namespace FoldedLayer

/-- The number of additions. -/
def reduced (f : FoldedLayer) : Nat := f.pairs.length

/-- The number of packets carried over. -/
def carried (f : FoldedLayer) : Nat := f.packets.length - f.pairs.length

/-- All operations in order. -/
def operations (f : FoldedLayer) : List Operation := f.pairs.flatten ++ f.carry

/-- The number of operations. -/
def size (f : FoldedLayer) : Nat := f.pairs.foldr (·.length + ·) 0 + f.carry.length

end FoldedLayer

namespace Reducer

/-- The operations that take word `w` of a sum from the result register to its packet. -/
def storeResult (r : Reducer) (l : TreeLayer) (dst : Packet) (w : Nat) : List Operation :=
  match l.step with
  | none => [.storeWord dst.vwr (dst.word + w) .r0]
  | some step =>
    (packsOf w (Subword.perWord l.widthIn) (Subword.perWord l.widthOut)
        (Subword.perWord r.initial)).map
      fun (offset, out) => .packInto step offset dst.vwr (dst.word + out)

/-- The words of a packet that enters a layer. -/
def packetIn (r : Reducer) (l : TreeLayer) : Nat := Subword.wordsPerPacket r.initial l.widthIn

/-- The words of a packet that leaves a layer. -/
def packetOut (r : Reducer) (l : TreeLayer) : Nat := Subword.wordsPerPacket r.initial l.widthOut

/-- The operations that add two packets. -/
def addPackets (r : Reducer) (l : TreeLayer) (a b dst : Packet) : List Operation :=
  (List.range (r.packetIn l)).flatMap fun w =>
    [.loadWord .r1 a.vwr (a.word + w), .loadWord .r2 b.vwr (b.word + w), .addPair l.widthIn]
      ++ r.storeResult l dst w

/-- The operations that carry a packet. -/
def carryPacket (r : Reducer) (l : TreeLayer) (c dst : Packet) : List Operation :=
  (List.range (r.packetIn l)).flatMap fun w =>
    .loadWord .r0 c.vwr (c.word + w) :: r.storeResult l dst w

/-- A layer folded for the packets from number `2 * pair` on. -/
def foldFrom? (r : Reducer) (l : TreeLayer) : Nat → FreeWords → List Packet → Option FoldedLayer
  | pair, free, a :: b :: rest => do
    let (dst, free) ← free.take? (r.packetOut l) (pair % 2)
    let folded ← foldFrom? r l (pair + 1) free rest
    return { folded with
      pairs := r.addPackets l a b dst :: folded.pairs
      packets := dst :: folded.packets }
  | pair, free, [c] => do
    let (dst, _) ← free.take? (r.packetOut l) (pair % 2)
    return { carry := r.carryPacket l c dst, packets := [dst] }
  | _, _, [] => some {}

/-- A layer folded, whose packets are in the given half. It is absent when the results do not fit
the other half. -/
def foldLayer? (r : Reducer) (l : TreeLayer) (packets : List Packet) (half : Nat) :
    Option FoldedLayer :=
  r.foldFrom? l 0 { base := (half ^^^ 1) * r.wordsPerHalf, size := r.wordsPerHalf } packets

/-- The layer at a position folded; absent also when there is no such layer. -/
def foldAt? (r : Reducer) (position : Nat) (packets : List Packet) (half : Nat) :
    Option FoldedLayer := do
  r.foldLayer? (← r.layers[position]?) packets half

end Reducer

end NearMemory
