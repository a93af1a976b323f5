import NearMemory.Address

/-!
# Hardware

The configurable limits of an accelerator. A configuration may only tighten the stock limits, since
those size the fields of a packed instruction.

## Main definitions

* `Hardware` — the configuration, with the stock values as defaults
* `Hardware.capacity` — the entries of a register file
* `Hardware.violation?`, `Hardware.check` — the first limit that a configuration violates, if any
* `HardwareError` — the ways in which a configuration can be out of bounds
-/

namespace NearMemory

/-- The direction of a memory command whose instruction does not touch memory. -/
inductive IdleDirection where
  /-- Always a read. -/
  | read
  /-- Always a write. -/
  | write
  /-- The direction of the latest instruction that touched memory. -/
  | inherit
  deriving DecidableEq, Repr

/-- Every policy. -/
def IdleDirection.all : List IdleDirection := [.read, .write, .inherit]

/-- The name of a policy in a configuration. -/
def IdleDirection.name : IdleDirection → String
  | .read => "default_read"
  | .write => "default_write"
  | .inherit => "inherit_previous"

/-- A configuration of the accelerator. -/
structure Hardware where
  /-- Entries of the instruction buffer. -/
  bufferEntries : Nat := 64
  /-- Entries of the constant store. -/
  storeEntries : Nat := 16
  /-- Words of a very wide register; its two halves are used in turn. -/
  registerWords : Nat := 32
  /-- Cycles between two memory accesses. -/
  accessInterval : Nat := 4
  /-- Layout of linear addresses. -/
  addressMap : Address.Map := .stock
  /-- Direction of commands that do not touch memory. -/
  idleDirection : IdleDirection := .read
  /-- Seed of the synthetic operands. -/
  seed : UInt64 := 0
  deriving DecidableEq, Repr

/-- The ways in which a configuration can be out of bounds. -/
inductive HardwareError where
  /-- The instruction buffer is empty or too large. -/
  | bufferEntries (got : Nat)
  /-- The constant store is empty or too large. -/
  | storeEntries (got : Nat)
  /-- The very wide registers are empty, too large or odd. -/
  | registerWords (got : Nat)
  /-- There is no time between memory accesses. -/
  | accessInterval
  /-- The address map is wider than an address. -/
  | addressSpan (bits : Nat)
  /-- The row field cannot hold the flag and the number of a register file. -/
  | rowWidth
  /-- The column field cannot index a register file. -/
  | columnWidth
  /-- A register of 32 bits cannot hold the bits of the address map. The check stops without a
  report. -/
  | overflow
  deriving DecidableEq, Repr

/-- What is wrong with a configuration, in words. -/
def HardwareError.message : HardwareError → String
  | .bufferEntries got => s!"ib_entries must be in 1..=64, got {got}"
  | .storeEntries got => s!"csd_entries must be in 1..=16, got {got}"
  | .registerWords got => s!"vwr_words must be even and in 2..=32, got {got}"
  | .accessInterval => "dram_interval must be positive"
  | .addressSpan bits => s!"address map spans {bits} bits, more than 64"
  | .rowWidth => "row field needs at least 4 bits to address register files"
  | .columnWidth => "column field needs at least 6 bits to index register files"
  | .overflow => "arithmetic overflow"

namespace Hardware

/-- The words of one half of a very wide register. -/
def wordsPerHalf (hw : Hardware) : Nat := hw.registerWords / 2

/-- The entries of a register file. -/
def capacity (hw : Hardware) : RegisterFile → Nat
  | .instrBuffer => hw.bufferEntries
  | .scalar => 4
  | .mask => 4
  | .constStore => hw.storeEntries
  | .loopRegister => 1
  | .digitLength => 1

/-- The first limit that a configuration violates, if any. -/
def violation? (hw : Hardware) : Option HardwareError :=
  if hw.bufferEntries = 0 ∨ 64 < hw.bufferEntries then some (.bufferEntries hw.bufferEntries)
  else if hw.storeEntries = 0 ∨ 16 < hw.storeEntries then some (.storeEntries hw.storeEntries)
  else if hw.registerWords < 2 ∨ 32 < hw.registerWords ∨ hw.registerWords % 2 ≠ 0 then
    some (.registerWords hw.registerWords)
  else if hw.accessInterval = 0 then some .accessInterval
  else if UInt32.size ≤ hw.addressMap.span then some .overflow
  else if 64 < hw.addressMap.span then some (.addressSpan hw.addressMap.span)
  else if hw.addressMap.width .row < bitsToIndex RegisterFile.all.length + 1 then some .rowWidth
  else if hw.addressMap.width .column < bitsToIndex 64 then some .columnWidth
  else none

/-- Succeeds exactly on the configurations within the stock limits. -/
def check (hw : Hardware) : Except HardwareError Unit :=
  match hw.violation? with
  | some error => .error error
  | none => .ok ()

end Hardware

end NearMemory
