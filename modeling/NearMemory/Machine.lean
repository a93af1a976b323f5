import NearMemory.Hardware
import NearMemory.Instruction.Word
import NearMemory.LoopRegister
import NearMemory.MemoryAccess
import NearMemory.OperandStream

/-!
# Executing the instruction buffer

The machine walks the staged instructions from the first entry on and records one memory command
for each visit. A visit that does not touch memory repeats the position of the latest one that did,
so that it opens no other row. At the last entry of the loop range the walk jumps back as long as
passes are left; it stops after an exit marker, at the first entry that is not staged, and at the
end of the buffer.

Addresses are those of a map on which none overflows. That is a matter of the map alone, see
`Address.Map.isAddressable` and `Address.Map.isReadable`.

## Main definitions

* `StagedEntry` — an entry of the instruction buffer
* `OpenRow` — the position and the direction of the latest memory access
* `Machine` — streams, open row and trace
* `Machine.visit` — the command of one instruction
* `Machine.walk`, `Machine.execute` — the whole walk
-/

namespace NearMemory

/-- An entry of the instruction buffer: the packed word, and the instruction it was staged from,
which keeps the operands of a memory access. -/
structure StagedEntry where
  /-- The packed word. -/
  word : UInt32
  /-- The instruction. -/
  instruction : Instruction
  deriving DecidableEq, Repr

/-- The entry of an instruction. -/
def StagedEntry.ofInstruction (i : Instruction) : StagedEntry := ⟨i.op.encode, i⟩

/-- The entries of the instruction buffer, absent where nothing is staged. -/
abbrev InstrBuffer := Array (Option StagedEntry)

/-- The position and the direction of the latest memory access. -/
structure OpenRow where
  /-- Its position. -/
  position : Address.Tuple := {}
  /-- Its direction. -/
  direction : Direction := .read
  deriving DecidableEq, Repr

/-- The state of the machine. -/
structure Machine (σ : Type) where
  /-- The operand streams. -/
  streams : OperandStreams
  /-- The trace so far. -/
  trace : σ
  /-- The latest memory access. -/
  openRow : OpenRow := {}

namespace Machine

variable {σ : Type}

/-- The machine with other data, which the data stream gave. -/
def withData (m : Machine σ) (data : OperandStream) : Machine σ :=
  { m with streams := { m.streams with data } }

/-- The machine with other addresses, which the address stream gave. -/
def withAddresses (m : Machine σ) (addresses : OperandStream) : Machine σ :=
  { m with streams := { m.streams with addresses } }

/-- The machine after one more command. -/
def record [Recorder σ] (m : Machine σ) (c : MemoryAccess) : Machine σ :=
  { m with trace := Recorder.record m.trace c }

/-- The address of a memory access: from its operand, or else that of the open row. -/
def accessAddress (hw : Hardware) (line : Nat) (operand : Option AddressOperand) (m : Machine σ) :
    Machine σ × Except AssemblyError UInt64 :=
  match operand with
  | some (.literal address) => (m, .ok address)
  | some .stream =>
    let (addresses, result) := m.streams.addresses.takeWord line
    (m.withAddresses addresses, result)
  | none => (m, .ok (hw.addressMap.toLinear m.openRow.position))

/-- Where the command of an instruction goes. A memory access becomes the open row. -/
def locate (hw : Hardware) (line : Nat) (opcode : Opcode) (operand : Option AddressOperand)
    (m : Machine σ) : Machine σ × Except AssemblyError (UInt64 × Direction) :=
  match opcode.access? with
  | some direction =>
    match m.accessAddress hw line operand with
    | (m, .error e) => (m, .error e)
    | (m, .ok address) =>
      ({ m with openRow := ⟨hw.addressMap.ofLinear address, direction⟩ },
        .ok (address, direction))
  | none =>
    let direction := match hw.idleDirection with
      | .read => .read
      | .write => .write
      | .inherit => m.openRow.direction
    (m, .ok (hw.addressMap.toLinear m.openRow.position, direction))

/-- The payload of an instruction. -/
def payload (line : Nat) (operand : Option DataOperand) (m : Machine σ) :
    Machine σ × Except AssemblyError (List UInt64) :=
  match operand with
  | some .stream =>
    let (data, result) := m.streams.data.takeRecord line
    (m.withData data, result)
  | some (.literal words) => (m, .ok words)
  | none => (m, .ok [])

/-- The command of one instruction, whose opcode is the one in the packed word. -/
def visit (hw : Hardware) (line : Nat) (opcode : Opcode) (i : Instruction) (m : Machine σ) :
    Machine σ × Except AssemblyError MemoryAccess :=
  match m.locate hw line opcode i.address with
  | (m, .error e) => (m, .error e)
  | (m, .ok (address, direction)) =>
    match m.payload line i.data with
    | (m, .error e) => (m, .error e)
    | (m, .ok words) => (m, .ok ⟨address, direction, words⟩)

/-- The entries that a walk can reach. -/
def reach (hw : Hardware) (buffer : InstrBuffer) : Nat := min hw.bufferEntries buffer.size

/-- The entry at `pc`, if the walk can reach it and it is staged. -/
def fetch? (hw : Hardware) (buffer : InstrBuffer) (pc : Nat) : Option StagedEntry :=
  if pc < reach hw buffer then (buffer[pc]?).join else none

theorem lt_reach_of_fetch? {hw : Hardware} {buffer : InstrBuffer} {pc : Nat} {e : StagedEntry}
    (h : fetch? hw buffer pc = some e) : pc < reach hw buffer := by
  unfold fetch? at h
  split at h
  · assumption
  · simp at h

/-- The walk from `pc` on, with `remaining` jumps back left and `count` commands behind it. It gives
the number of commands in the end. -/
def walk [Recorder σ] (hw : Hardware) (buffer : InstrBuffer) (loop : LoopRegister) (line : Nat)
    (remaining pc count : Nat) (m : Machine σ) : Machine σ × Except AssemblyError Nat :=
  match _h : fetch? hw buffer pc with
  | none => (m, .ok count)
  | some entry =>
    match Operation.decode? entry.word with
    | none => (m, .error (.atLine line (.grammar (.undecodable pc entry.word))))
    | some op =>
      match m.visit hw line op.opcode entry.instruction with
      | (m, .error e) => (m, .error e)
      | (m, .ok command) =>
        let m := m.record command
        if op.opcode = .exit then (m, .ok (count + 1))
        else if _jump : loop.start ≤ loop.finish ∧ pc = loop.finish ∧ 0 < remaining then
          walk hw buffer loop line (remaining - 1) loop.start (count + 1) m
        else
          walk hw buffer loop line remaining (pc + 1) (count + 1) m
termination_by remaining * (reach hw buffer + 1) + (reach hw buffer - pc)
decreasing_by
  · have hpc := lt_reach_of_fetch? _h
    obtain ⟨k, rfl⟩ : ∃ k, remaining = k + 1 := ⟨remaining - 1, by omega⟩
    simp only [Nat.add_sub_cancel, Nat.add_mul, Nat.one_mul]
    omega
  · have hpc := lt_reach_of_fetch? _h
    omega

/-- Execute the buffer for the source line `line`. The first pass over the loop range needs no jump
back. -/
def execute [Recorder σ] (hw : Hardware) (buffer : InstrBuffer) (loop : LoopRegister) (line : Nat)
    (m : Machine σ) : Machine σ × Except AssemblyError Nat :=
  m.walk hw buffer loop line (loop.iterations - 1) 0 0

end Machine

end NearMemory
