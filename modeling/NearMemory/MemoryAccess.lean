import NearMemory.Instruction

/-!
# Traces

Running a program produces memory commands, one after the other. A trace collects them: in memory,
or as the text of a raw trace with one command a line.

## Main definitions

* `MemoryAccess` — an address, a direction and a payload
* `Recorder` — what commands can be recorded in
* `TraceText` — the text of a trace, with the number of its commands
-/

namespace NearMemory

/-- A command to the memory. -/
structure MemoryAccess where
  /-- Linear address. -/
  address : UInt64
  /-- Read or write. -/
  direction : Direction
  /-- Words carried, if any. -/
  payload : List UInt64
  deriving DecidableEq, Repr

/-- The line of a command in a raw trace: address, direction and, unless it is empty, payload, with
tabs between them. -/
def MemoryAccess.text (c : MemoryAccess) : String :=
  Numeral.hex c.address.toNat ++ "\t" ++ c.direction.text
    ++ (if c.payload.isEmpty then "" else "\t" ++ hexWords c.payload)

/-- What commands can be recorded in. -/
class Recorder (σ : Type) where
  /-- The trace after one more command. -/
  record : σ → MemoryAccess → σ

instance : Recorder (Array MemoryAccess) where
  record := Array.push

/-- The text of a trace. -/
structure TraceText where
  /-- The lines written so far. -/
  text : String := ""
  /-- The number of commands written. -/
  records : Nat := 0
  deriving DecidableEq, Repr

instance : Recorder TraceText where
  record t c := ⟨t.text ++ c.text ++ "\n", t.records + 1⟩

end NearMemory
