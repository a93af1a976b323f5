import NearMemory.Fault
import NearMemory.Hardware
import NearMemory.Workload

/-!
# Errors

Everything that can stop a schedule or an assembly run, in one type.

## Main definitions

* `Error` — the errors
* `Error.Category` — a coarse view of them
* `Error.message`, `Error.line?` — the text, and the source line it belongs to
* `Error.isOverflow` — the errors at which a run stops without a report
-/

namespace NearMemory

/-- What stops a schedule or an assembly run. -/
inductive Error where
  /-- A fault of an assembly run. -/
  | assembly (error : AssemblyError)
  /-- A workload that cannot be scheduled. -/
  | schedule (error : ScheduleError)
  /-- Hardware out of bounds. -/
  | hardware (error : HardwareError)
  deriving DecidableEq, Repr

namespace Error

/-- A coarse view of errors. -/
inductive Category where
  /-- The source text is wrong. -/
  | grammar
  /-- The hardware is too small. -/
  | resource
  /-- An operand stream does not give what the program takes. -/
  | streamExhaustion
  /-- Configuration or files are wrong. -/
  | environment
  deriving DecidableEq, Repr

/-- The category of an error. -/
def category : Error → Category
  | .assembly (.atLine _ (.unknownMnemonic _)) => .grammar
  | .assembly (.atLine _ (.grammar _)) => .grammar
  | .assembly (.atLine _ (.unresolved _)) => .grammar
  | .assembly (.atLine _ (.capacity ..)) => .resource
  | .assembly (.atLine _ (.exhausted _)) => .streamExhaustion
  | .assembly (.badRecord ..) => .streamExhaustion
  | .assembly .notText => .environment
  | .schedule _ => .resource
  | .hardware _ => .environment

/-- What went wrong, in words. -/
def message : Error → String
  | .assembly e => e.message
  | .schedule e => "Scheduling error: " ++ e.message
  | .hardware e => "Configuration error: " ++ e.message

/-- The source line that an error belongs to. -/
def line? : Error → Option Nat
  | .assembly e => e.line?
  | _ => none

/-- Whether a register overflowed. A run stops there without a report. -/
def isOverflow : Error → Bool
  | .schedule .overflow => true
  | .hardware .overflow => true
  | _ => false

end Error

end NearMemory
