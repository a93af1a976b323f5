import NearMemory.Subword

/-!
# Register files

The register files of the accelerator are written through memory commands. Each file has a tag,
which is its name in assembly text, and a number, which is its row behind the register-file flag of
an address.

## Main definitions

* `RegisterFile` — the six register files
* `RegisterFile.tag`, `RegisterFile.ofTag?` — the name in assembly text
* `RegisterFile.number` — the row of the file
* `RegisterFile.entryWords` — the words that one write takes
-/

namespace NearMemory

/-- The register files of the accelerator. -/
inductive RegisterFile where
  /-- Instruction buffer. -/
  | instrBuffer
  /-- Scalar registers. -/
  | scalar
  /-- Lane masks, one word for each core. -/
  | mask
  /-- Constant store. -/
  | constStore
  /-- Hardware loop register. -/
  | loopRegister
  /-- Digit length of the constants. -/
  | digitLength
  deriving DecidableEq, Repr

namespace RegisterFile

/-- Every register file, in the order of their rows. -/
def all : List RegisterFile :=
  [.instrBuffer, .scalar, .mask, .constStore, .loopRegister, .digitLength]

/-- The name of a register file in assembly text. -/
def tag : RegisterFile → String
  | .instrBuffer => "IB"
  | .scalar => "SRF"
  | .mask => "MRF"
  | .constStore => "CSD"
  | .loopRegister => "LR"
  | .digitLength => "DLEN"

/-- The register file of a name. -/
def ofTag? (name : String) : Option RegisterFile :=
  all.find? (·.tag == name)

/-- The row of a register file, behind the register-file flag. -/
def number : RegisterFile → Nat
  | .instrBuffer => 0
  | .scalar => 1
  | .mask => 2
  | .constStore => 3
  | .loopRegister => 4
  | .digitLength => 5

/-- The words that one write of a register file takes. -/
def entryWords : RegisterFile → Nat
  | .mask => cores
  | _ => 1

end RegisterFile

end NearMemory
