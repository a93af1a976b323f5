import NearMemory.Subword

/-!
# Packets

A partial sum occupies a packet of consecutive words of a very wide register. When sums move to a
wider subword, the subwords of a packet are spread over more words, and an output word may take
subwords of two input words.

## Main definitions

* `Packet` — where a packet starts
* `loadedPackets` — the packets of sums that were read from memory
* `packsOf` — the packs that one input word of a packet takes part in
* `loadedPackets?`, `packsOf?` — the same for arbitrary sizes, absent where a size is a quotient by
  zero or a place overflows its register
-/

namespace NearMemory

/-- Where a packet starts. -/
structure Packet where
  /-- The very wide register. -/
  vwr : Nat
  /-- The word in it. -/
  word : Nat
  deriving DecidableEq, Repr

/-- The packets of `count` sums, in turn in the two very wide registers. -/
def loadedPackets (count wordsPerPacket : Nat) : List Packet :=
  (List.range count).map fun i => ⟨i % 2, i / 2 * wordsPerPacket⟩

/-- The packets of `count` sums; absent where the place of the last one overflows. -/
def loadedPackets? (count wordsPerPacket : Nat) : Option (List Packet) :=
  if (count - 1) / 2 * wordsPerPacket < UInt64.size then some (loadedPackets count wordsPerPacket)
  else none

/-- The subwords after which input and output words line up again. -/
def packPeriod (perIn perOut : Nat) : Nat := perIn / perIn.gcd perOut * perOut

/-- The packs issued while input word `word` of a packet of `values` subwords is in the result
register: the first subword taken from it, and the output word. Input and output words line up again
after the least common multiple of their sizes, so the packs repeat with that period. The first
subword is held in a 32-bit register. -/
def packsOf (word perIn perOut values : Nat) : List (Nat × Nat) :=
  let period := packPeriod perIn perOut
  let inWords := period / perIn
  let outWords := period / perOut
  let block := word / inWords
  let low := word % inWords * perIn
  (List.range outWords).filterMap fun k =>
    let first := k * perOut
    if low ≤ first ∧ first < low + perIn ∧ block * period + first < values then
      some ((first - low) % UInt32.size, block * outWords + k)
    else none

/-- The place of the last output word that begins in the period of an input word. -/
def lastPlace (word perIn perOut : Nat) : Nat :=
  word / (packPeriod perIn perOut / perIn) * packPeriod perIn perOut +
    (packPeriod perIn perOut - perOut)

/-- The packs of an input word; absent where a word holds no subword, or where the period or a place
in it overflows a register of 64 bits. -/
def packsOf? (word perIn perOut values : Nat) : Option (List (Nat × Nat)) :=
  if perIn = 0 ∨ perOut = 0 then none
  else if packPeriod perIn perOut < UInt64.size ∧ lastPlace word perIn perOut < UInt64.size then
    some (packsOf word perIn perOut values)
  else none

end NearMemory
