import NearMemory.Random.ChaCha
import NearMemory.Schedule

/-!
# Synthetic operands

The operand streams of a schedule are filled with random operands, in the order in which the
program takes them. Addresses lie in storage, never in a register file. Constants are in canonical
signed digits: two bits a digit, `01` for one and `11` for minus one, and no two digits in a row
that are not zero.

## Main definitions

* `drawAddress`, `drawConstant` — one random operand
* `Operands` — the records drawn so far, and the source of random words
* `Schedule.drawOperands` — the operand streams of a schedule
* `Schedule.operands` — the same from the seed of the hardware
-/

namespace NearMemory

open RandomWords

variable {γ : Type} [RandomWords γ]

/-- A random value for each level, in turn. -/
def drawLevels : List (Address.Level × Nat) → Address.Tuple → γ → Address.Tuple × γ
  | [], t, g => (t, g)
  | (level, width) :: rest, t, g =>
    if 64 ≤ width then
      let (value, g) := next64 g
      drawLevels rest (t.set level value) g
    else
      let (value, g) := below64 (1 <<< width) g
      drawLevels rest (t.set level (UInt64.ofNat value)) g

/-- A random storage address. The register-file flag is clear. -/
def drawAddress (map : Address.Map) (g : γ) : UInt64 × γ :=
  let (t, g) := drawLevels map.levels {} g
  (map.toLinear { t with row := t.row &&& ~~~map.fileFlag }, g)

/-- A random digit: zero without a draw after a digit that is not zero. -/
def drawDigit (afterNonzero : Bool) (g : γ) : UInt64 × γ :=
  if afterNonzero then (0, g)
  else
    let (draw, g) := below32 3 g
    (match draw with | 1 => 1 | 2 => 3 | _ => 0, g)

/-- Random digits above those in `word`, from position `digit` on. -/
def drawDigits : (count digit : Nat) → Bool → UInt64 → γ → UInt64 × γ
  | 0, _, _, word, g => (word, g)
  | count + 1, digit, afterNonzero, word, g =>
    let (code, g) := drawDigit afterNonzero g
    drawDigits count (digit + 1) (code != 0) (word ||| code <<< UInt64.ofNat (2 * digit)) g

/-- A random constant of the given digits. -/
def drawConstant (digits : Nat) (g : γ) : UInt64 × γ := drawDigits digits 0 false 0 g

/-- The records of the operand streams that are drawn so far. -/
structure Operands (γ : Type) where
  /-- Data records. -/
  data : Array (List UInt64) := #[]
  /-- Addresses. -/
  addresses : Array UInt64 := #[]
  /-- The source of random words. -/
  source : γ

namespace Operands

/-- The text of the data stream. -/
def dataText (o : Operands γ) : String := recordsText o.data.toList

/-- The text of the address stream. -/
def addressText (o : Operands γ) : String := addressesText o.addresses.toList

/-- The operand streams with these records. -/
def streams (o : Operands γ) : OperandStreams := .ofText o.dataText o.addressText

/-- Draw the operands of an instruction, the address first. -/
def drawInstruction (map : Address.Map) (digits : Nat) (o : Operands γ) (i : Instruction) :
    Operands γ :=
  let o := if i.readsAddress then
      let (address, source) := drawAddress map o.source
      { o with addresses := o.addresses.push address, source }
    else o
  if i.readsData then
    let (constant, source) := drawConstant digits o.source
    { o with data := o.data.push [constant], source }
  else o

/-- Draw the operands of a pass. -/
def drawPass (map : Address.Map) (digits : Nat) (o : Operands γ) (p : Pass) : Operands γ :=
  Nat.repeat (p.body.foldl (drawInstruction map digits)) p.runs o

end Operands

/-- The record of a mask that enables every lane. -/
def fullMask : List UInt64 := List.replicate cores (UInt64.ofNat ((1 <<< wordBits) - 1))

/-- The operand streams of a schedule, from a source of random words. -/
def Schedule.drawOperands (s : Schedule) (source : γ) : Operands γ :=
  s.passes.foldl (Operands.drawPass s.hardware.addressMap s.workload.digitLength)
    { data := #[fullMask], source }

/-- The operand streams of a schedule, from the seed of its hardware. -/
def Schedule.operands (s : Schedule) : Operands ChaCha :=
  s.drawOperands (.ofSeed s.hardware.seed)

end NearMemory
