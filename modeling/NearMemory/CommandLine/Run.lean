import NearMemory.Assembly
import NearMemory.CommandLine.Arguments
import NearMemory.CommandLine.Files
import NearMemory.Hardware.Reader
import NearMemory.Schedule.Operands
import NearMemory.Schedule.Summary

/-!
# Running the command line

A run reads the hardware configuration, does what the command says, and ends with an exit code and
two texts. It is written for an arbitrary file system.

## Main definitions

* `Outcome` — exit code, output and error output
* `runSchedule`, `runAssemble` — the two commands
* `runArguments` — a whole run
-/

namespace NearMemory

/-- How a run ends. -/
structure Outcome where
  /-- Exit code: 0 after a success, 1 after an error, 2 for wrong arguments, 101 after an
  overflow. -/
  code : Nat
  /-- Output. -/
  stdout : String := ""
  /-- Error output. -/
  stderr : String := ""
  deriving DecidableEq, Repr

/-! ### Texts -/

/-- The error line under a label. -/
def failureText (label : String) (line? : Option Nat) (message : String) : String :=
  match line? with
  | some line => s!"{label} (line {line}): {message}"
  | none => s!"{label}: {message}"

/-- The title of a pass kind. -/
def Pass.Kind.title : Pass.Kind → String
  | .chunk => "Chunk"
  | .remainder => "Peel"
  | .reduction _ _ => "Reduction"
  | .tail => "Tail"

/-- The line of a pass. -/
def Pass.details (p : Pass) (position : Nat) : String :=
  s!"Pass {position}: {p.kind.title}, {p.body.length} entries x {p.iterations} iteration(s), "
    ++ s!"{p.executions} exec(s), {p.sumsIn} -> {p.sumsOut} partial sums"

/-- A line of one character, under a title. -/
def ruler (c : Char) : String := String.ofList (List.replicate 50 c)

/-- The lines about the passes of a schedule. More than eight are shown only in detail. -/
def Schedule.passLines (s : Schedule) (verbose : Bool) : List String :=
  if verbose || s.passes.length ≤ 8 then
    ["Pass Details", ruler '-'] ++ s.passes.zipIdx.map (fun (p, i) => p.details i) ++ [""]
  else [s!"({s.passes.length} passes, use -v for details)"]

/-- Warnings, one a line. -/
def warningLines (ds : List Diagnostic) : List String := ds.map ("Warning: " ++ ·.text)

/-- The output of a schedule that takes the given numbers of records. -/
def Schedule.results (s : Schedule) (dataCount addressCount : Nat) (out : String)
    (verbose : Bool) : List String :=
  let w := s.workload
  ["Schedule Results", ruler '=', "",
    s!"Workload: {w.m}x{w.n} @ {w.n}x{w.q}",
    s!"Operands: SW{w.subwordWidth}, {w.digitLength} CSD digits, "
      ++ s!"{s.plan.padding.nops} pad NOP(s) per multiply",
    s!"Mapping: {s.plan.limit.text}",
    s!"Chunks: {s.plan.fullChunks} x {s.plan.chunk} products, remainder {s.plan.remainder}",
    s!"Row tiles: {s.plan.tiles}",
    s!"Adder tree: {s.plan.tree.depth} layer(s)",
    s!"Streams: {dataCount} data, {addressCount} address records", ""]
    ++ s.passLines verbose ++ warningLines s.warnings
    ++ ["Written: " ++ out ++ ".\x7basm,data,addr\x7d"]

/-- The output of an assembly run. -/
def Assembler.Report.results (r : Assembler.Report) (source trace : String) : List String :=
  ["Assembly Results", ruler '=', "",
    s!"Input: {source}",
    s!"Instruction buffer writes: {r.counters.staged}",
    s!"Register file writes: {r.counters.fileWrites + r.counters.loopWrites}",
    s!"Executions: {r.counters.executions}",
    s!"Companion records: {r.dataTaken} data, {r.addressesTaken} address",
    s!"Trace records: {r.counters.recorded} -> {trace}"]
    ++ warningLines r.diagnostics

/-- The version text. -/
def versionText : String := "gemm2pim 0.1.0"

/-- The help text. -/
def helpText : String :=
  unlines [
    "Maps GEMM workloads onto a near-memory SIMD accelerator",
    "",
    "Usage: gemm2pim [-c CONFIG] [-v] schedule M N Q [-w WIDTH] [-d DIGITS] [-o OUT] [-s SUMMARY]",
    "       gemm2pim [-c CONFIG] [-v] assemble ASM [--data DATA] [--addr ADDR] [-t TRACE]"]

/-! ### Commands -/

variable {m : Type → Type} [Monad m] [FileSystem m]

/-- The outcome of a run that ends with an error line. -/
def Outcome.failed (message : String) : Outcome := { code := 1, stderr := unlines [message] }

/-- The outcome of a run that ends with an error under a label. An overflow is not reported. -/
def Outcome.ofError (label : String) (e : Error) : Outcome :=
  if e.isOverflow then { code := 101 } else .failed (failureText label e.line? e.message)

/-- A run on files that may end early. -/
abbrev Run (m : Type → Type) := ExceptT Outcome m

/-- A result of the file system, whose error is reported under a label. -/
def orFail {α : Type} (label : String) (result : m (Except FileError α)) : Run m α := do
  match ← result with
  | .ok a => return a
  | .error e => throw (.failed (failureText label none e.message))

/-- A result of the library, whose error is reported under a label. -/
def orFailAt {α : Type} (label : String) (result : Except Error α) : Run m α := do
  match result with
  | .ok a => return a
  | .error e => throw (.ofError label e)

/-- The hardware of a configuration file, or the stock hardware. -/
def loadHardware (config : Option String) : Run m Hardware := do
  let some path := config | return {}
  let label := s!"Error: Failed to load config '{path}'"
  let text ← orFail label (readText path)
  match Hardware.read text with
  | .ok hw => return hw
  | .error (.outOfBounds e) => throw (.ofError label (.hardware e))
  | .error e => throw (.failed (failureText label none e.message))

/-- Schedule a workload, and write the program, its streams and the summary. -/
def runSchedule (hw : Hardware) (w : Workload) (out : String) (summary : Option String) :
    Run m (List String) := do
  let s ← orFailAt "Scheduling error" (Schedule.make hw w)
  let operands := s.operands
  orFail "Error" (FileSystem.write (out ++ ".asm") s.assembly)
  orFail "Error" (FileSystem.write (out ++ ".data") operands.dataText)
  orFail "Error" (FileSystem.write (out ++ ".addr") operands.addressText)
  if let some path := summary then
    orFail "Error" (FileSystem.write path s.summary.render)
  return s.results operands.data.size operands.addresses.size out w.verbose

/-- The stream of a file, or the empty one. -/
def loadStream (kind : OperandKind) (path : Option String) : Run m OperandStream := do
  let some path := path | return .missing kind
  return .ofBytes kind (← orFail "Assembly error" (FileSystem.read path))

/-- Assemble a program into a trace file. The file is created once the streams are known to be
there, and before they are read. It keeps what was recorded before a line that fails. -/
def runAssemble (hw : Hardware) (source : String) (data addresses : Option String)
    (trace : String) : Run m (List String) := do
  let label := "Assembly error"
  let text ← orFail s!"Error: Failed to read file '{source}'" (readText source)
  orFailAt label (hw.check.mapError .hardware)
  let _ ← loadStream .data data
  let _ ← loadStream .address addresses
  orFail label (FileSystem.write trace "")
  let streams := ⟨← loadStream .data data, ← loadStream .address addresses⟩
  let (written, result) := assemble hw streams ({} : TraceText) text
  orFail label (FileSystem.write trace written.text)
  return (← orFailAt label result).results source trace

/-- Run a command. -/
def Invocation.run (i : Invocation) : Run m (List String) := do
  let hw ← loadHardware i.config
  match i.command with
  | .schedule m n q width digits out summary =>
    runSchedule hw ⟨m, n, q, width, digits, i.verbose⟩ out summary
  | .assemble source data addresses trace => runAssemble hw source data addresses trace

/-- A whole run. -/
def runArguments (arguments : List String) : m Outcome := do
  match Invocation.ofArguments arguments with
  | .error .help => return { code := 0, stdout := helpText }
  | .error .version => return { code := 0, stdout := unlines [versionText] }
  | .error (.usage e) => return { code := 2, stderr := unlines ["error: " ++ e.message] }
  | .ok invocation =>
    match ← invocation.run.run with
    | .ok output => return { code := 0, stdout := unlines output }
    | .error outcome => return outcome

end NearMemory
