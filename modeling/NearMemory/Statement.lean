import NearMemory.Instruction
import NearMemory.LoopRegister
import NearMemory.RegisterFile

/-!
# Statements

A line of assembly is one statement: a write to a register file, a write of the loop register, the
execution of the instruction buffer, or an instruction to be staged in the buffer.

## Main definitions

* `Statement` — the statements of the assembly language
* `Statement.text` — the line of a statement
* `Mnemonic` — the first words of lines
-/

namespace NearMemory

/-- A statement of the assembly language. -/
inductive Statement where
  /-- Write an entry of a register file. For the instruction buffer there are no values: the
  following instructions are staged from that entry on. -/
  | writeFile (file : RegisterFile) (index : Nat) (values : Option DataOperand)
  /-- Write the loop register. -/
  | writeLoop (loop : LoopRegister)
  /-- Execute the instruction buffer. -/
  | execute
  /-- Stage an instruction. -/
  | instruction (instruction : Instruction)
  deriving DecidableEq, Repr

/-- The line of a statement. -/
def Statement.text : Statement → String
  | .writeFile file index values =>
    "WRF " ++ file.tag ++ Numeral.decimal index
      ++ (match values with | some v => " " ++ v.text | none => "")
  | .writeLoop loop => loop.text
  | .execute => "EXEC"
  | .instruction i => i.text

/-- The first words of lines. -/
inductive Mnemonic where
  /-- Register-file write. -/
  | wrf
  /-- Empty operation, or end of the program. -/
  | nop
  /-- Loop register write. -/
  | loop
  /-- Row read. -/
  | rlb
  /-- Row write. -/
  | wlb
  /-- Word move. -/
  | vmv
  /-- Register move. -/
  | rmv
  /-- Constant load. -/
  | glmv
  /-- Pack. -/
  | pack
  /-- Permutation. -/
  | perm
  /-- Arithmetic. -/
  | vfux
  /-- Execution. -/
  | exec
  deriving DecidableEq, Repr

/-- The mnemonic of a word. -/
def Mnemonic.ofWord? (word : String) : Option Mnemonic :=
  match word with
  | "WRF" => some .wrf
  | "NOP" => some .nop
  | "LOOP" => some .loop
  | "RLB" => some .rlb
  | "WLB" => some .wlb
  | "VMV" => some .vmv
  | "RMV" => some .rmv
  | "GLMV" => some .glmv
  | "PACK" => some .pack
  | "PERM" => some .perm
  | "VFUX" => some .vfux
  | "EXEC" => some .exec
  | _ => none

end NearMemory
