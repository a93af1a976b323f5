import NearMemory.Diagnostic
import NearMemory.Machine
import NearMemory.Statement.Reader

/-!
# The assembler

The assembler takes a source text line by line. Instructions are staged in the instruction buffer
and written to it through memory commands, as are the other register files and the loop register;
an execution runs the buffer. What a line has recorded stays recorded, also when the line fails.

## Main definitions

* `Assembler` — the state between two lines
* `Assembler.line` — one line
* `Assembler.source` — the lines of a text, up to the first that fails
* `Assembler.Report` — what a run did
-/

namespace NearMemory

/-- What the next instruction line does. -/
inductive StagingMode where
  /-- No entry of the instruction buffer is selected. -/
  | idle
  /-- The next instruction goes to the given entry. -/
  | staging (next : Nat)
  deriving DecidableEq, Repr

/-- What a run did so far. -/
structure Assembler.Counters where
  /-- Instructions staged. -/
  staged : Nat := 0
  /-- Register-file entries written. -/
  fileWrites : Nat := 0
  /-- Writes of the loop register by its own statement. -/
  loopWrites : Nat := 0
  /-- Executions finished. -/
  executions : Nat := 0
  /-- Commands of writes and of finished executions. -/
  recorded : Nat := 0
  deriving DecidableEq, Repr

/-- The state of the assembler between two lines. -/
structure Assembler (σ : Type) where
  /-- The hardware assembled for. -/
  hardware : Hardware
  /-- Where the next instruction goes. -/
  mode : StagingMode := .idle
  /-- The instruction buffer. -/
  buffer : InstrBuffer
  /-- The loop register. -/
  loop : LoopRegister := {}
  /-- Counters. -/
  counters : Assembler.Counters := {}
  /-- Remarks, in order. -/
  diagnostics : Array Diagnostic := #[]
  /-- Streams, open row and trace. -/
  machine : Machine σ

/-- The outcome of a run. -/
structure Assembler.Report where
  /-- Counters of the run. -/
  counters : Assembler.Counters
  /-- Data records taken. -/
  dataTaken : Nat
  /-- Address records taken. -/
  addressesTaken : Nat
  /-- Remarks, in order. -/
  diagnostics : List Diagnostic
  deriving DecidableEq, Repr

namespace Assembler

variable {σ : Type}

/-- The assembler before its first line. -/
def start (hardware : Hardware) (streams : OperandStreams) (trace : σ) : Assembler σ where
  hardware
  buffer := Array.replicate hardware.bufferEntries none
  machine := { streams, trace }

/-- Record a write command and count it. -/
def recordWrite [Recorder σ] (a : Assembler σ) (address : UInt64) (payload : List UInt64) :
    Assembler σ :=
  { a with
    machine := a.machine.record ⟨address, .write, payload⟩
    counters := { a.counters with recorded := a.counters.recorded + 1 } }

/-- A remark on a line. -/
def remark (a : Assembler σ) (line : Nat) (notices : List Notice) : Assembler σ :=
  { a with diagnostics := a.diagnostics ++ (notices.map fun n => ⟨some line, n⟩).toArray }

/-- Select an entry of the instruction buffer. -/
def select (a : Assembler σ) (index : Nat) : Assembler σ × Except LineFault Unit :=
  if index < a.hardware.bufferEntries then ({ a with mode := .staging index }, .ok ())
  else (a, .error (.capacity .instrBuffer index a.hardware.bufferEntries))

/-- Stage an instruction in the selected entry, and select the next one. -/
def stage [Recorder σ] (a : Assembler σ) (line : Nat) (i : Instruction) :
    Assembler σ × Except LineFault Unit :=
  match a.mode with
  | .idle => (a, .error (.grammar (.notStaging i.text)))
  | .staging next =>
    if next < a.hardware.bufferEntries then
      let entry := StagedEntry.ofInstruction i
      let address := a.hardware.addressMap.registerFile .instrBuffer next
      let a := (a.remark line (i.op.cutFields.map (.fieldCut next))).recordWrite address
        [entry.word.toUInt64]
      ({ a with
          buffer := a.buffer.setIfInBounds next (some entry)
          counters := { a.counters with staged := a.counters.staged + 1 }
          mode := .staging (next + 1) },
        .ok ())
    else (a, .error (.capacity .instrBuffer next a.hardware.bufferEntries))

/-- Write words to an entry of a register file. A write of the loop register loads it. -/
def writeWords [Recorder σ] (a : Assembler σ) (file : RegisterFile) (index : Nat)
    (words : List UInt64) : Assembler σ × Except LineFault Unit :=
  if words.length = file.entryWords then
    let loop := if file = .loopRegister then LoopRegister.decode (words.headD 0) else a.loop
    let address := a.hardware.addressMap.registerFile file index
    let a := ({ a with loop } : Assembler σ).recordWrite address words
    ({ a with counters := { a.counters with fileWrites := a.counters.fileWrites + 1 } }, .ok ())
  else (a, .error (.grammar (.literalCount file words.length)))

/-- Write an entry of a register file. -/
def writeFile [Recorder σ] (a : Assembler σ) (line : Nat) (file : RegisterFile) (index : Nat)
    (values : Option DataOperand) : Assembler σ × Except AssemblyError Unit :=
  let onLine : Assembler σ × Except LineFault Unit → Assembler σ × Except AssemblyError Unit :=
    fun (a, result) => (a, result.mapError (.atLine line))
  if index < a.hardware.capacity file then
    match values with
    | some (.literal words) => onLine (a.writeWords file index words)
    | some .stream =>
      let (data, result) := a.machine.streams.data.takeRecord line
      let a := { a with machine := a.machine.withData data }
      match result with
      | .error e => (a, .error e)
      | .ok words => onLine (a.writeWords file index words)
    | none =>
      (a, .error (.atLine line (.grammar (.needsValue (file.tag ++ Numeral.decimal index)))))
  else (a, .error (.atLine line (.capacity (.file file) index (a.hardware.capacity file))))

/-- Write the loop register. Its fields are cut to their bits. -/
def writeLoop [Recorder σ] (a : Assembler σ) (line : Nat) (loop : LoopRegister) :
    Assembler σ × Except LineFault Unit :=
  if a.hardware.bufferEntries ≤ loop.finish then
    (a, .error (.capacity .loopFinish loop.finish a.hardware.bufferEntries))
  else if loop.finish < loop.start then
    (a, .error (.grammar (.loopOrder loop.start loop.finish)))
  else
    let cut := if 1 <<< LoopRegister.countBits ≤ loop.iterations
      then [Notice.loopCountCut loop.iterations] else []
    let a := { a.remark line cut with loop := LoopRegister.decode loop.encode }
    let a := a.recordWrite (a.hardware.addressMap.registerFile .loopRegister 0) [loop.encode]
    ({ a with counters := { a.counters with loopWrites := a.counters.loopWrites + 1 } }, .ok ())

/-- Execute the instruction buffer. An execution that fails is not counted. -/
def execute [Recorder σ] (a : Assembler σ) (line : Nat) :
    Assembler σ × Except AssemblyError Unit :=
  match a.machine.execute a.hardware a.buffer a.loop line with
  | (machine, .error e) => ({ a with machine }, .error e)
  | (machine, .ok count) =>
    ({ a with
        machine
        mode := .idle
        counters := { a.counters with
          executions := a.counters.executions + 1
          recorded := a.counters.recorded + count } },
      .ok ())

/-- One statement. -/
def statement [Recorder σ] (a : Assembler σ) (line : Nat) :
    Statement → Assembler σ × Except AssemblyError Unit
  | .writeFile .instrBuffer index _ =>
    let (a, result) := a.select index
    (a, result.mapError (.atLine line))
  | .writeFile file index values => a.writeFile line file index values
  | .instruction i =>
    let (a, result) := a.stage line i
    (a, result.mapError (.atLine line))
  | .writeLoop loop =>
    let (a, result) := a.writeLoop line loop
    (a, result.mapError (.atLine line))
  | .execute => a.execute line

/-- One line. An empty line does nothing. -/
def line [Recorder σ] (a : Assembler σ) (number : Nat) (text : String) :
    Assembler σ × Except AssemblyError Unit :=
  match Statement.ofLine number text with
  | .error e => (a, .error e)
  | .ok none => (a, .ok ())
  | .ok (some s) => a.statement number s

/-- Lines in turn, from the given number on, up to the first that fails. -/
def linesFrom [Recorder σ] (number : Nat) (a : Assembler σ) :
    List String → Assembler σ × Except AssemblyError Unit
  | [] => (a, .ok ())
  | text :: rest =>
    match a.line number text with
    | (a, .error e) => (a, .error e)
    | (a, .ok ()) => linesFrom (number + 1) a rest

/-- The lines of a source text, up to the first that fails. -/
def source [Recorder σ] (a : Assembler σ) (text : String) :
    Assembler σ × Except AssemblyError Unit :=
  linesFrom 1 a (lines text)

/-- The report of a run. -/
def report (a : Assembler σ) : Assembler.Report where
  counters := a.counters
  dataTaken := a.machine.streams.data.consumed
  addressesTaken := a.machine.streams.addresses.consumed
  diagnostics := a.diagnostics.toList

end Assembler

end NearMemory
