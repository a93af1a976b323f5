import NearMemory.Instruction

/-!
# Packed instructions

An operation packs into a 27-bit word: four bits of opcode above a group of 23 bits, in which each
family has its own fields, the last of them at the low end. A field that is too large for its bits
is cut to them, as the hardware register would.

## Main definitions

* `Operation.encode`, `Operation.decode?` — between operations and words
* `Operation.asPacked` — the operation with every numeric field cut to its bits
* `Operation.cutFields` — the fields that packing cuts
-/

namespace NearMemory

namespace Word

/-- Bits of the opcode: enough for fourteen. -/
def opcodeBits : Nat := 4

/-- Bits of a storage class: enough for seven. -/
def storageBits : Nat := 3

/-- Bits of a word index in a very wide register. -/
def indexBits : Nat := 5

/-- Bits of an index into the constant store. -/
def csdBits : Nat := 4

/-- Bits of the immediate of a move: enough for both kinds of index. -/
def immBits : Nat := 5

/-- Bits of a position on the width ladder. -/
def subwordBits : Nat := 3

/-- Bits of a width step. -/
def stepBits : Nat := 3

/-- Bits of a subword position at the smallest width. -/
def offsetBits : Nat := 4

/-- Bits below the opcode: the widest of the three field groups. -/
def groupBits : Nat := 23

/-- Fields side by side, given with their bits from the most significant on. -/
def pack (fields : List (Nat × Nat)) : Nat :=
  fields.foldl (fun acc field => acc * (1 <<< field.2) + field.1 % (1 <<< field.2)) 0

/-- The field of `bits` bits that starts at bit `low`. -/
def field (word low bits : Nat) : Nat := word / (1 <<< low) % (1 <<< bits)

/-- A 32-bit value cut to its lowest bits. -/
def cut (value : UInt32) (bits : Nat) : UInt32 := UInt32.ofNat (value.toNat % (1 <<< bits))

end Word

/-- The numeric fields of packed words. -/
inductive FieldName where
  /-- Immediate of a move. -/
  | immediate
  /-- Constant index or shift amount. -/
  | csd
  /-- Word index of the destination. -/
  | dstIndex
  /-- Word index of the source. -/
  | srcIndex
  /-- Start of a pack. -/
  | packOffset
  deriving DecidableEq, Repr

/-- The name of a field in messages. -/
def FieldName.text : FieldName → String
  | .immediate => "immediate"
  | .csd => "csd"
  | .dstIndex => "dst index"
  | .srcIndex => "src index"
  | .packOffset => "pack offset"

/-- A value for a numeric field of a packed word. -/
structure NumericField where
  /-- The field. -/
  field : FieldName
  /-- The value before packing. -/
  value : UInt32
  /-- The bits of the field. -/
  bits : Nat
  deriving DecidableEq, Repr

/-- What packing does to a value that is too large for its field, in words. -/
def NumericField.message (f : NumericField) : String :=
  let kept := Word.cut f.value f.bits
  s!"{f.field.text} value {f.value} truncated to {f.bits} bits ({kept})"

namespace Operation

open Word

/-- The field group of an operation. A width that is not on the ladder packs as the smallest. -/
def fieldGroup : Operation → Nat
  | .move m =>
    Word.pack [(m.imm.toNat, immBits), (m.dst.code, storageBits), (m.src.code, storageBits)]
  | .arithmetic c =>
    Word.pack [((Subword.index? c.subword).getD 0, subwordBits), (c.csd.toNat, csdBits),
      (c.dstIndex.toNat, indexBits), (c.srcIndex.toNat, indexBits), (c.dst.code, storageBits),
      (c.src.code, storageBits)]
  | .pack p =>
    Word.pack [(p.step.selector, stepBits), (p.offset.toNat, offsetBits),
      (p.dstIndex.toNat, indexBits), (p.dst.code, storageBits)]

/-- The packed word of an operation. -/
def encode (op : Operation) : UInt32 :=
  UInt32.ofNat (op.opcode.number % (1 <<< opcodeBits) * (1 <<< groupBits) + op.fieldGroup)

/-- The operation of a packed word. Bits outside the opcode and its field group are ignored; some
values of the opcode, the storage classes, the width and the width step stand for nothing. -/
def decode? (word : UInt32) : Option Operation := do
  let w := word.toNat
  let opcode ← Opcode.ofNumber? (field w groupBits opcodeBits)
  match opcode.family with
  | .move =>
    let src ← Storage.ofCode? (field w 0 storageBits)
    let dst ← Storage.ofCode? (field w 3 storageBits)
    return .move ⟨opcode, UInt32.ofNat (field w 6 immBits), dst, src⟩
  | .arithmetic =>
    let src ← Storage.ofCode? (field w 0 storageBits)
    let dst ← Storage.ofCode? (field w 3 storageBits)
    let subword ← Subword.ladder[field w 20 subwordBits]?
    return .arithmetic ⟨opcode, subword, UInt32.ofNat (field w 16 csdBits),
      UInt32.ofNat (field w 11 indexBits), UInt32.ofNat (field w 6 indexBits), dst, src⟩
  | .pack =>
    let dst ← Storage.ofCode? (field w 0 storageBits)
    let step ← WidthStep.ofSelector? (field w 12 stepBits)
    return .pack ⟨step, UInt32.ofNat (field w 8 offsetBits), UInt32.ofNat (field w 3 indexBits),
      dst⟩

/-- The operation with every numeric field cut to the bits it has in a packed word. -/
def asPacked : Operation → Operation
  | .move m => .move { m with imm := cut m.imm immBits }
  | .arithmetic c =>
    .arithmetic { c with
      csd := cut c.csd csdBits
      dstIndex := cut c.dstIndex indexBits
      srcIndex := cut c.srcIndex indexBits }
  | .pack p =>
    .pack { p with
      offset := cut p.offset offsetBits
      dstIndex := cut p.dstIndex indexBits }

/-- The numeric fields of an operation, with the bits they have in a packed word. -/
def numericFields : Operation → List NumericField
  | .move m => [⟨.immediate, m.imm, immBits⟩]
  | .arithmetic c =>
    [⟨.csd, c.csd, csdBits⟩, ⟨.dstIndex, c.dstIndex, indexBits⟩, ⟨.srcIndex, c.srcIndex, indexBits⟩]
  | .pack p => [⟨.packOffset, p.offset, offsetBits⟩, ⟨.dstIndex, p.dstIndex, indexBits⟩]

/-- The numeric fields of an operation that packing cuts. -/
def cutFields (op : Operation) : List NumericField :=
  op.numericFields.filter fun f => 1 <<< f.bits ≤ f.value.toNat

theorem cutFields_eq_nil_iff {op : Operation} :
    op.cutFields = [] ↔ ∀ f ∈ op.numericFields, f.value.toNat < 1 <<< f.bits := by
  simp only [cutFields, List.filter_eq_nil_iff, decide_eq_true_iff, Nat.not_le]

end Operation

end NearMemory
