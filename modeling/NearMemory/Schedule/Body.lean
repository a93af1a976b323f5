import NearMemory.Folding
import NearMemory.Schedule.Pass

/-!
# Bodies

The bodies of the passes. The body of a chunk loads its constants, reads its operands, multiplies
them and folds the products as far as the instruction buffer allows; the body of a reduction reads
partial sums and folds them; the body of the tail adds one partial sum. Each of them ends by writing
the registers that hold results, which are moved to the lower half first.

## Main definitions

* `Body.ofChunk` — the body of a chunk
* `Body.ofReduction` — the body of a reduction
* `tailInstructions` — the body of the tail
-/

namespace NearMemory

/-- The entries of the instruction buffer that the operations of a body may take. -/
def bodyBudget (hw : Hardware) : Nat := hw.bufferEntries - Plan.reservedEntries

/-- An instruction without operands. -/
def Instruction.plain (op : Operation) : Instruction := { op }

/-- Read the next row into a very wide register. -/
def rowRead (v : Nat) : Instruction := { op := .readRow v, address := some .stream }

/-- Write a very wide register to the next row. -/
def rowWrite (v : Nat) : Instruction := { op := .writeRow v, address := some .stream }

/-- Load the next constant into an entry of the constant store. -/
def constantLoad (k : Nat) : Instruction :=
  { op := .loadConstant (UInt32.ofNat k), address := some .stream, data := some .stream }

/-- A multiply of a loaded word by its own constant, with the wait after it. -/
def paddedMultiply (width nops v word : Nat) : List Instruction :=
  .plain (.multiply width v word (2 * word + v)) :: List.replicate nops (.plain .nop)

/-- The very wide registers that hold a packet. -/
def heldRegisters (packets : List Packet) : List Nat :=
  [0, 1].filter fun v => packets.any (·.vwr == v)

/-- The end of a body: results of the upper half are moved to the lower one, and every register that
holds a result is written. -/
def bodyEnd (packets : List Packet) (half : Nat) : List Instruction :=
  (if half = 1 then (heldRegisters packets).map fun v => .plain (.permute v 1) else [])
    ++ (heldRegisters packets).map rowWrite

/-- A body with the state of folding at its end. -/
structure Body where
  /-- The instructions. -/
  instructions : List Instruction
  /-- How far the partial sums are folded. -/
  cursor : Cursor
  deriving DecidableEq, Repr

/-- Fold as far as possible after the given instructions, and end the body. -/
def Body.folded (hw : Hardware) (r : Reducer) (limit : Option Nat) (front : List Instruction)
    (cursor : Cursor) (packets : List Packet) : Body :=
  let f := (r.fold (bodyBudget hw) limit { cursor, packets }).1
  ⟨front ++ f.out.map .plain ++ bodyEnd f.packets f.cursor.half, f.cursor⟩

/-- The first layer of a chunk, which is folded between the multiplies. A single product is folded
only towards a limit. -/
def chunkLayer? (r : Reducer) (count : Nat) (limit : Option Nat) : Option FoldedLayer :=
  if limit.elim (decide (1 < count)) (decide <| 0 < ·) then
    r.foldAt? 0 (loadedPackets count 1) 0
  else none

/-- The constants and operands of a chunk. -/
def chunkLoads (count : Nat) : List Instruction :=
  (List.range count).map constantLoad ++ rowRead 0 :: (if 1 < count then [rowRead 1] else [])

/-- The multiplies of a chunk. A pair of products is complete after the multiply in the second
register, so its sum follows there. -/
def chunkMultiplies (width nops count : Nat) (pairs : List (List Operation)) : List Instruction :=
  (List.range (ceilDiv count 2)).flatMap (paddedMultiply width nops 0)
    ++ (List.range (count / 2)).flatMap fun word =>
      paddedMultiply width nops 1 word ++ (pairs.getD word []).map .plain

/-- The body of a chunk of `count` products, folded up to a limit if there is one. -/
def Body.ofChunk (hw : Hardware) (r : Reducer) (nops count : Nat) (limit : Option Nat) : Body :=
  match chunkLayer? r count limit with
  | none =>
    let front := chunkLoads count ++ chunkMultiplies r.initial nops count []
    Body.folded hw r limit front { issued := front.length, operands := count }
      (loadedPackets count 1)
  | some first =>
    let front := chunkLoads count ++ chunkMultiplies r.initial nops count first.pairs
      ++ first.carry.map .plain
    Body.folded hw r limit front
      { layer := 1
        issued := front.length
        operands := first.reduced + first.carried
        half := 1 }
      first.packets

/-- The body that folds a group of `size` partial sums from a layer on, whose packets have the given
number of words. -/
def Body.ofReduction (hw : Hardware) (r : Reducer) (layer size packet : Nat) : Body :=
  let front := [rowRead 0, rowRead 1]
  Body.folded hw r none front { layer, issued := front.length, operands := size }
    (loadedPackets size packet)

/-- The body that adds two partial sums of the given width and packet size. -/
def tailInstructions (width packet : Nat) : List Instruction :=
  [rowRead 0, rowRead 1]
    ++ (List.range packet).flatMap (fun w =>
      [.plain (.loadWord .r1 0 w), .plain (.loadWord .r2 1 w), .plain (.addPair width),
        .plain (.storeWord 0 w .r0)])
    ++ [rowWrite 0]

end NearMemory
