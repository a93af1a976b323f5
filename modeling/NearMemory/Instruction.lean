import NearMemory.Subword
import NearMemory.Text.Numeral

/-!
# Instructions

An instruction is an operation, which the accelerator keeps in its packed form, together with the
address and the data that a memory access takes from the assembly line. Operations come in three
families, which share the bits of a packed word.

## Main definitions

* `Opcode`, `Family`, `Direction` — what an instruction does
* `Storage` — the registers and very wide registers
* `WidthStep` — the width steps of a pack operation
* `Operation` — the tagged union of the three families
* `Instruction` — an operation with its operands
* `Instruction.text` — the assembly text of an instruction
-/

namespace NearMemory

/-- The operations of the instruction set. -/
inductive Opcode where
  /-- No operation. -/
  | nop
  /-- End of the program in the instruction buffer. -/
  | exit
  /-- Read a row into a very wide register. -/
  | rlb
  /-- Write a very wide register to a row. -/
  | wlb
  /-- Move a word between a very wide register and a register. -/
  | vmv
  /-- Move between registers, with a shift. -/
  | rmv
  /-- Write a constant to the constant store. -/
  | glmv
  /-- Permute the words of a very wide register. -/
  | perm
  /-- Multiply subwords by a constant. -/
  | mul
  /-- Add subwords. -/
  | add
  /-- Subtract subwords. -/
  | sub
  /-- Shift subwords left. -/
  | shl
  /-- Shift subwords right. -/
  | shr
  /-- Widen subwords to the next width. -/
  | pack
  deriving DecidableEq, Repr

/-- The groups of operations that share a field layout. -/
inductive Family where
  /-- Moves and control. -/
  | move
  /-- Arithmetic on subwords. -/
  | arithmetic
  /-- Repacking. -/
  | pack
  deriving DecidableEq, Repr

/-- The direction of a memory command. -/
inductive Direction where
  /-- From memory. -/
  | read
  /-- To memory. -/
  | write
  deriving DecidableEq, Repr

/-- The mark of a direction in a trace. -/
def Direction.text : Direction → String
  | .read => "RD"
  | .write => "WR"

namespace Opcode

/-- Every opcode, in the order of their numbers. -/
def all : List Opcode :=
  [.nop, .exit, .rlb, .wlb, .vmv, .rmv, .glmv, .perm, .mul, .add, .sub, .shl, .shr, .pack]

/-- The number of an opcode in a packed word. -/
def number : Opcode → Nat
  | .nop => 0
  | .exit => 1
  | .rlb => 2
  | .wlb => 3
  | .vmv => 4
  | .rmv => 5
  | .glmv => 6
  | .perm => 7
  | .mul => 8
  | .add => 9
  | .sub => 10
  | .shl => 11
  | .shr => 12
  | .pack => 13

/-- The opcode of a number. -/
def ofNumber? (n : Nat) : Option Opcode := all[n]?

/-- The name of an opcode in messages. -/
def name : Opcode → String
  | .nop => "Nop"
  | .exit => "Exit"
  | .rlb => "Rlb"
  | .wlb => "Wlb"
  | .vmv => "Vmv"
  | .rmv => "Rmv"
  | .glmv => "Glmv"
  | .perm => "Perm"
  | .mul => "Mul"
  | .add => "Add"
  | .sub => "Sub"
  | .shl => "Shl"
  | .shr => "Shr"
  | .pack => "Pack"

/-- The family of an opcode. -/
def family : Opcode → Family
  | .mul | .add | .sub | .shl | .shr => .arithmetic
  | .pack => .pack
  | _ => .move

/-- The direction of the memory access of an opcode; absent when it does not touch memory. -/
def access? : Opcode → Option Direction
  | .rlb => some .read
  | .wlb | .glmv => some .write
  | _ => none

/-- The name of an arithmetic opcode in assembly text. -/
def arithmeticName? : Opcode → Option String
  | .mul => some "MUL"
  | .add => some "ADD"
  | .sub => some "SUB"
  | .shl => some "SHL"
  | .shr => some "SHR"
  | _ => none

/-- The arithmetic opcode of a name. -/
def ofArithmeticName? (text : String) : Option Opcode :=
  match text with
  | "MUL" => some .mul
  | "ADD" => some .add
  | "SUB" => some .sub
  | "SHL" => some .shl
  | "SHR" => some .shr
  | _ => none

end Opcode

/-- Where an operand of an operation lives. -/
inductive Storage where
  /-- Result register. -/
  | r0
  /-- First operand register. -/
  | r1
  /-- Second operand register. -/
  | r2
  /-- Spare register. -/
  | r3
  /-- The pair of operand registers. -/
  | r1r2
  /-- A very wide register. The hardware has two of them, numbered 0 and 1. -/
  | vwr (index : Nat)
  deriving DecidableEq, Repr

namespace Storage

/-- The number of a storage class in a packed word. -/
def code : Storage → Nat
  | .r0 => 0
  | .r1 => 1
  | .r2 => 2
  | .r3 => 3
  | .r1r2 => 4
  | .vwr v => 5 + v

/-- The storage class of a number. -/
def ofCode? (code : Nat) : Option Storage :=
  match code with
  | 0 => some .r0
  | 1 => some .r1
  | 2 => some .r2
  | 3 => some .r3
  | 4 => some .r1r2
  | 5 => some (.vwr 0)
  | 6 => some (.vwr 1)
  | _ => none

/-- Whether a storage class is a very wide register. -/
def isVwr : Storage → Bool
  | .vwr _ => true
  | _ => false

/-- The assembly text of a storage class. -/
def text : Storage → String
  | .r0 => "R0"
  | .r1 => "R1"
  | .r2 => "R2"
  | .r3 => "R3"
  | .r1r2 => "R1R2"
  | .vwr v => "VWR_" ++ Numeral.decimal v

/-- The assembly text of a storage operand. Only a very wide register shows its word index. -/
def indexed (s : Storage) (index : UInt32) : String :=
  match s with
  | .vwr _ => s.text ++ "[" ++ Numeral.decimal index.toNat ++ "]"
  | _ => s.text

end Storage

/-- The width steps of a pack operation, each to the next width of the ladder. -/
inductive WidthStep where
  /-- From 3 to 4 bits. -/
  | from3
  /-- From 4 to 6 bits. -/
  | from4
  /-- From 6 to 8 bits. -/
  | from6
  /-- From 8 to 12 bits. -/
  | from8
  /-- From 12 to 16 bits. -/
  | from12
  /-- From 16 to 24 bits. -/
  | from16
  deriving DecidableEq, Repr

namespace WidthStep

/-- Every width step, in increasing order. -/
def all : List WidthStep := [.from3, .from4, .from6, .from8, .from12, .from16]

/-- The width before the step. -/
def source : WidthStep → Nat
  | .from3 => 3
  | .from4 => 4
  | .from6 => 6
  | .from8 => 8
  | .from12 => 12
  | .from16 => 16

/-- The width after the step. -/
def target (r : WidthStep) : Nat := Subword.next r.source

/-- The number of a width step in a packed word. -/
def selector : WidthStep → Nat
  | .from3 => 0
  | .from4 => 1
  | .from6 => 2
  | .from8 => 3
  | .from12 => 4
  | .from16 => 5

/-- The width step of a number. -/
def ofSelector? (n : Nat) : Option WidthStep := all[n]?

/-- The step between two widths. There is one only between neighbours of the ladder, upwards. -/
def between? (source target : Nat) : Option WidthStep :=
  all.find? fun r => r.source == source && r.target == target

/-- The assembly text of a width step. -/
def text (r : WidthStep) : String :=
  "PK" ++ Numeral.decimal r.source ++ "TO" ++ Numeral.decimal r.target

end WidthStep

/-- The fields of a move operation. -/
structure MoveOp where
  /-- The operation. -/
  opcode : Opcode
  /-- Word index, shift amount, constant index or permutation pattern. -/
  imm : UInt32
  /-- Destination. -/
  dst : Storage
  /-- Source. -/
  src : Storage
  deriving DecidableEq, Repr

/-- The fields of an arithmetic operation. -/
structure ArithmeticOp where
  /-- The operation. -/
  opcode : Opcode
  /-- Subword width. -/
  subword : Nat
  /-- Constant index or shift amount. -/
  csd : UInt32
  /-- Word index of the destination. -/
  dstIndex : UInt32
  /-- Word index of the source. -/
  srcIndex : UInt32
  /-- Destination. -/
  dst : Storage
  /-- Source. -/
  src : Storage
  deriving DecidableEq, Repr

/-- The fields of a pack operation. -/
structure PackOp where
  /-- Width step. -/
  step : WidthStep
  /-- First subword taken from the result register. -/
  offset : UInt32
  /-- Word index of the destination. -/
  dstIndex : UInt32
  /-- Destination. -/
  dst : Storage
  deriving DecidableEq, Repr

/-- An operation of the accelerator. -/
inductive Operation where
  /-- A move or control operation. -/
  | move (fields : MoveOp)
  /-- An arithmetic operation. -/
  | arithmetic (fields : ArithmeticOp)
  /-- A pack operation. -/
  | pack (fields : PackOp)
  deriving DecidableEq, Repr

namespace Operation

/-- The opcode of an operation. -/
def opcode : Operation → Opcode
  | .move m => m.opcode
  | .arithmetic c => c.opcode
  | .pack _ => .pack

/-- Do nothing for one slot. -/
def nop : Operation := .move ⟨.nop, 0, .r0, .r0⟩

/-- End the program. -/
def exit : Operation := .move ⟨.exit, 0, .r0, .r0⟩

/-- Read a row into very wide register `v`. -/
def readRow (v : Nat) : Operation := .move ⟨.rlb, 0, .vwr v, .r0⟩

/-- Write very wide register `v` to a row. -/
def writeRow (v : Nat) : Operation := .move ⟨.wlb, 0, .r0, .vwr v⟩

/-- Write entry `k` of the constant store. -/
def loadConstant (k : UInt32) : Operation := .move ⟨.glmv, k, .r0, .r0⟩

/-- Permute very wide register `v`. Pattern 1 swaps its halves. -/
def permute (v : Nat) (pattern : UInt32) : Operation := .move ⟨.perm, pattern, .vwr v, .vwr v⟩

/-- Copy word `word` of very wide register `v` to a register. -/
def loadWord (reg : Storage) (v word : Nat) : Operation :=
  .move ⟨.vmv, UInt32.ofNat word, reg, .vwr v⟩

/-- Copy a register to word `word` of very wide register `v`. -/
def storeWord (v word : Nat) (reg : Storage) : Operation :=
  .move ⟨.vmv, UInt32.ofNat word, .vwr v, reg⟩

/-- Copy a register to another with a shift. -/
def moveRegister (dst src : Storage) (shift : UInt32) : Operation := .move ⟨.rmv, shift, dst, src⟩

/-- Multiply word `word` of very wide register `v`, in place, by entry `k` of the constant store. -/
def multiply (width v word k : Nat) : Operation :=
  .arithmetic ⟨.mul, width, UInt32.ofNat k, UInt32.ofNat word, UInt32.ofNat word, .vwr v, .vwr v⟩

/-- Add the pair of operand registers into the result register. -/
def addPair (width : Nat) : Operation := .arithmetic ⟨.add, width, 0, 0, 0, .r0, .r1r2⟩

/-- Widen the result register from subword `offset` on into word `word` of very wide register
`v`. -/
def packInto (step : WidthStep) (offset v word : Nat) : Operation :=
  .pack ⟨step, UInt32.ofNat offset, UInt32.ofNat word, .vwr v⟩

/-- The assembly text of an operation. -/
def text : Operation → String
  | .move m =>
    match m.opcode with
    | .nop => "NOP"
    | .exit => "NOP EXIT"
    | .rlb => "RLB " ++ m.dst.text
    | .wlb => "WLB " ++ m.src.text
    | .vmv => "VMV " ++ m.dst.indexed m.imm ++ " " ++ m.src.indexed m.imm
    | .rmv => "RMV " ++ m.dst.text ++ " " ++ m.src.text ++ " " ++ Numeral.decimal m.imm.toNat
    | .glmv => "GLMV CSD_" ++ Numeral.decimal m.imm.toNat
    | .perm => "PERM " ++ m.dst.text ++ " " ++ Numeral.decimal m.imm.toNat
    | other => "; invalid move opcode " ++ other.name
  | .arithmetic c =>
    let tail := match c.opcode with
      | .mul => " CSD_" ++ Numeral.decimal c.csd.toNat
      | .shl | .shr => " " ++ Numeral.decimal c.csd.toNat
      | _ => ""
    "VFUX " ++ c.opcode.arithmeticName?.getD "?" ++ " SW" ++ Numeral.decimal c.subword ++ " "
      ++ c.dst.indexed c.dstIndex ++ " " ++ c.src.indexed c.srcIndex ++ tail
  | .pack p =>
    "PACK " ++ p.step.text ++ " " ++ Numeral.decimal p.offset.toNat ++ " "
      ++ p.dst.indexed p.dstIndex

end Operation

/-- The address of a memory access. -/
inductive AddressOperand where
  /-- Written in the assembly line. -/
  | literal (address : UInt64)
  /-- The next word of the address stream. -/
  | stream
  deriving DecidableEq, Repr

/-- The assembly text of an address operand. -/
def AddressOperand.text : AddressOperand → String
  | .literal address => Numeral.hex address.toNat
  | .stream => "AddrFile"

/-- The data of a memory access or register write. -/
inductive DataOperand where
  /-- Written in the assembly line. -/
  | literal (words : List UInt64)
  /-- The next record of the data stream. -/
  | stream
  deriving DecidableEq, Repr

/-- Words in hexadecimal, with a space between them. -/
def hexWords (words : List UInt64) : String :=
  " ".intercalate (words.map fun w => Numeral.hex w.toNat)

/-- The assembly text of a data operand. -/
def DataOperand.text : DataOperand → String
  | .literal words => hexWords words
  | .stream => "DataFile"

/-- An operation with the operands of its memory access. -/
structure Instruction where
  /-- The operation. -/
  op : Operation
  /-- Where the access goes. -/
  address : Option AddressOperand := none
  /-- What the access carries. -/
  data : Option DataOperand := none
  deriving DecidableEq, Repr

namespace Instruction

/-- Whether the instruction takes its address from the address stream. -/
def readsAddress (i : Instruction) : Bool := i.address == some .stream

/-- Whether the instruction takes its data from the data stream. -/
def readsData (i : Instruction) : Bool := i.data == some .stream

/-- The assembly text of an instruction: the operation, then the address, then the data. -/
def text (i : Instruction) : String :=
  i.op.text
    ++ (match i.address with | some a => " " ++ a.text | none => "")
    ++ (match i.data with | some d => " " ++ d.text | none => "")

end Instruction

end NearMemory
