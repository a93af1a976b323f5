import NearMemory.Assembler
import NearMemory.Error

/-!
# Assembling a program

## Main definitions

* `assemble` — a source text into a trace, on checked hardware
-/

namespace NearMemory

/-- Assemble a source text into a trace. What was recorded before a line that fails stays in the
trace. -/
def assemble {σ : Type} [Recorder σ] (hw : Hardware) (streams : OperandStreams) (trace : σ)
    (source : String) : σ × Except Error Assembler.Report :=
  match hw.violation? with
  | some e => (trace, .error (.hardware e))
  | none =>
    match (Assembler.start hw streams trace).source source with
    | (a, .error e) => (a.machine.trace, .error (.assembly e))
    | (a, .ok ()) => (a.machine.trace, .ok a.report)

end NearMemory
