/-!
# Subwords

A hardware word holds 48 bits and is divided into subwords of one width. The supported widths form
a ladder; a sum that outgrows its width is repacked into the next one. This module sizes words,
tiles and packets by their subword width.

## Main definitions

* `Subword.ladder` — the supported widths, in increasing order
* `Subword.next`, `Subword.previous` — one step up or down the ladder
* `Subword.perWord`, `Subword.tiles`, `Subword.wordsPerPacket` — sizes at a given width
* `Subword.perWord?`, `Subword.tiles?`, `Subword.wordsPerPacket?` — the same sizes for arbitrary
  widths, absent where the size is a quotient by zero
-/

namespace NearMemory

/-- The bits of a hardware word. -/
def wordBits : Nat := 48

/-- The SIMD cores, each of which works on one word of an instruction. -/
def cores : Nat := 4

/-- The quotient rounded up. -/
def ceilDiv (a b : Nat) : Nat := (a + b - 1) / b

/-- The bits that tell `count` values apart, at least one. -/
def bitsToIndex (count : Nat) : Nat :=
  if count ≤ 1 then 1 else Nat.log2 (count - 1) + 1

namespace Subword

/-- The supported subword widths. Each divides the word. -/
def ladder : List Nat := [3, 4, 6, 8, 12, 16, 24]

/-- The largest supported width. -/
def widest : Nat := 24

/-- The position of a width on the ladder. -/
def index? (width : Nat) : Option Nat :=
  ladder.idxOf? width

/-- The next width of the ladder. The largest width, and a width that is not on the ladder, lead to
the largest. -/
def next (width : Nat) : Nat :=
  match index? width with
  | some i => ladder.getD (i + 1) widest
  | none => widest

/-- The previous width of the ladder. The smallest width, and a width that is not on the ladder,
lead to themselves. -/
def previous (width : Nat) : Nat :=
  match index? width with
  | some (i + 1) => ladder.getD i width
  | _ => width

/-- The subwords that one word holds. -/
def perWord (width : Nat) : Nat := wordBits / width

/-- The instructions that cover an output row of `q` columns, one word for each core. -/
def tiles (q width : Nat) : Nat := ceilDiv q (cores * perWord width)

/-- The words that the subwords of one word of width `initial` fill at another width. -/
def wordsPerPacket (initial width : Nat) : Nat := ceilDiv (perWord initial) (perWord width)

/-- The subwords that one word holds; absent for width zero. -/
def perWord? (width : Nat) : Option Nat :=
  if width = 0 then none else some (perWord width)

/-- The instructions that cover an output row; absent when a word holds no subword. -/
def tiles? (q width : Nat) : Option Nat := do
  let n ← perWord? width
  if n = 0 then none else some (tiles q width)

/-- The words of a packet; absent when a word holds no subword of the target width, or when the
first width is zero. -/
def wordsPerPacket? (initial width : Nat) : Option Nat := do
  let _ ← perWord? initial
  let n ← perWord? width
  if n = 0 then none else some (wordsPerPacket initial width)

end Subword

end NearMemory
