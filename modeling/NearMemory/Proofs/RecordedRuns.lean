import NearMemory.Assembly
import NearMemory.Proofs.LineSteps
import NearMemory.Proofs.WalkOrder

/-!
# What a run is recorded in

Nothing that the assembler does depends on the commands recorded so far. So a run can be looked at
through a view of its trace: if recording a command and taking the view can be done in either order,
then the run into the viewed trace is the view of the run. Every step commutes with the view,
whether or not it fails, and so does the whole run.

Recording commands one after the other is such a view of the list of commands. A run into any
recorder is therefore the run that collects its commands, recorded afterwards.

## Main definitions

* `Recorder.Respects` — a view of traces that goes along with recording
* `Machine.viewed` — the same machine, with the view of its trace

## Main results

* `Machine.visit_viewed`, `Machine.walk_viewed` — visits and walks
* `Assembler.line_viewed`, `Assembler.linesFrom_viewed` — lines
* `assemble_viewed` — whole runs
* `assemble_recorded` — a run records the commands that it collects
-/

namespace NearMemory

variable {σ τ : Type}

/-- A command can be recorded before the view is taken or after. -/
def Recorder.Respects [Recorder σ] [Recorder τ] (view : σ → τ) : Prop :=
  ∀ trace c, view (Recorder.record trace c) = Recorder.record (view trace) c

/-! ### Visits and walks -/

namespace Machine

variable {view : σ → τ} {hw : Hardware} {line : Nat}

/-- The machine with the view of its trace. -/
def viewed (view : σ → τ) (m : Machine σ) : Machine τ :=
  { m with trace := view m.trace }

theorem accessAddress_viewed (m : Machine σ) (operand : Option AddressOperand) :
    (m.viewed view).accessAddress hw line operand =
      ((m.accessAddress hw line operand).1.viewed view, (m.accessAddress hw line operand).2) := by
  match operand with
  | none | some (.literal _) | some .stream => rfl

theorem locate_viewed (m : Machine σ) (opcode : Opcode) (operand : Option AddressOperand) :
    (m.viewed view).locate hw line opcode operand =
      ((m.locate hw line opcode operand).1.viewed view,
        (m.locate hw line opcode operand).2) := by
  rw [locate, locate]
  split
  next =>
    rw [accessAddress_viewed]
    rcases m.accessAddress hw line operand with ⟨_, _ | _⟩ <;> rfl
  next => rfl

theorem payload_viewed (m : Machine σ) (operand : Option DataOperand) :
    (m.viewed view).payload line operand =
      ((m.payload line operand).1.viewed view, (m.payload line operand).2) := by
  match operand with
  | none | some (.literal _) | some .stream => rfl

theorem visit_viewed (m : Machine σ) (opcode : Opcode) (i : Instruction) :
    (m.viewed view).visit hw line opcode i =
      ((m.visit hw line opcode i).1.viewed view, (m.visit hw line opcode i).2) := by
  rw [visit, visit, locate_viewed]
  rcases m.locate hw line opcode i.address with ⟨m₁, _ | ⟨address, direction⟩⟩
  · rfl
  · dsimp only
    rw [payload_viewed]
    rcases m₁.payload line i.data with ⟨_, _ | _⟩ <;> rfl

variable [Recorder σ] [Recorder τ]

theorem record_viewed (h : Recorder.Respects view) (m : Machine σ) (c : MemoryAccess) :
    (m.record c).viewed view = (m.viewed view).record c := by
  rw [record, record, viewed, viewed, h]

/-- **A walk through a view.** The two walks make the same visits, and fail at the same one. -/
theorem walk_viewed (h : Recorder.Respects view) (hw : Hardware) (buffer : InstrBuffer)
    (loop : LoopRegister) (line remaining pc count : Nat) (m : Machine σ) :
    (m.viewed view).walk hw buffer loop line remaining pc count =
      ((m.walk hw buffer loop line remaining pc count).1.viewed view,
        (m.walk hw buffer loop line remaining pc count).2) := by
  refine walk_side_by_side (R := fun m m' => m' = m.viewed view)
    (Q := fun run run' => run' = (run.1.viewed view, run.2)) rfl ?_ ?_ ?_ remaining pc count rfl
  · rintro m - count rfl
    rfl
  · rintro m - fault rfl
    rfl
  · rintro remaining pc count e m - rfl he -
    have hvisit' : (m.viewed view).visit hw line e.opcode e.instruction = _ :=
      visit_viewed m e.opcode e.instruction
    cases hvisit : m.visit hw line e.opcode e.instruction with
    | mk m₁ result =>
      rw [hvisit] at hvisit'
      cases result with
      | ok command =>
        exact .inl ⟨m₁, m₁.viewed view, command, command, rfl, hvisit',
          (record_viewed h m₁ command).symm⟩
      | error fault =>
        right
        rw [walk_of_visit_error he hvisit, walk_of_visit_error he hvisit']

end Machine

/-! ### Lines -/

namespace Assembler

variable {view : σ → τ}

/-- The assembler with the view of its trace. -/
def viewed (view : σ → τ) (a : Assembler σ) : Assembler τ := a.onMachine (Machine.viewed view)

variable [Recorder σ] [Recorder τ]

theorem execute_viewed (h : Recorder.Respects view) (a : Assembler σ) (number : Nat) :
    (a.viewed view).execute number = ((a.execute number).1.viewed view, (a.execute number).2) :=
  execute_onMachine rfl
    (Machine.walk_viewed h a.hardware a.buffer a.loop number (a.loop.iterations - 1) 0 0 a.machine)

/-- **A line through a view.** -/
theorem line_viewed (h : Recorder.Respects view) (a : Assembler σ) (number : Nat) (text : String) :
    (a.viewed view).line number text =
      ((a.line number text).1.viewed view, (a.line number text).2) := by
  rw [line, line]
  split
  next => rfl
  next => rfl
  next s _ =>
    exact statement_onMachine (Machine.record_viewed h)
      (fun _ _ _ _ _ => writeFile_onMachine (Machine.record_viewed h)
        fun _ _ => ⟨_, _, _, rfl, rfl, rfl⟩)
      (fun _ => execute_viewed h a number)

/-- **Lines in turn through a view.** -/
theorem linesFrom_viewed (h : Recorder.Respects view) (number : Nat) (a : Assembler σ)
    (ls : List String) :
    linesFrom number (a.viewed view) ls =
      ((linesFrom number a ls).1.viewed view, (linesFrom number a ls).2) := by
  induction ls generalizing number a with
  | nil => rfl
  | cons text rest ih =>
    rw [linesFrom, linesFrom, line_viewed h]
    rcases a.line number text with ⟨a₁, _ | _⟩
    · rfl
    · exact ih (number + 1) a₁

end Assembler

/-! ### Whole runs -/

variable [Recorder σ] [Recorder τ]

/-- **A whole run through a view.** -/
theorem assemble_viewed {view : σ → τ} (h : Recorder.Respects view) (hw : Hardware)
    (streams : OperandStreams) (trace : σ) (source : String) :
    assemble hw streams (view trace) source =
      (view (assemble hw streams trace source).1, (assemble hw streams trace source).2) := by
  have hrun := Assembler.linesFrom_viewed h 1 (.start hw streams trace) (lines source)
  rw [assemble, assemble]
  split
  next => rfl
  next =>
    rw [Assembler.source, Assembler.source]
    cases hlines : Assembler.linesFrom 1 (.start hw streams trace) (lines source) with
    | mk a result =>
      replace hrun : Assembler.linesFrom 1 (.start hw streams (view trace)) (lines source) =
          (a.viewed view, result) := by
        rw [hlines] at hrun
        exact hrun
      rw [hrun]
      cases result <;> rfl

/-- Recording a list of commands goes along with collecting them. -/
theorem Recorder.respects_foldl (trace : τ) :
    Recorder.Respects fun commands : Array MemoryAccess =>
      commands.toList.foldl Recorder.record trace := by
  intro commands c
  show (commands.push c).toList.foldl Recorder.record trace = _
  rw [Array.toList_push, List.foldl_append]
  rfl

/-- **A run records the commands that it collects,** whatever they are recorded in and whether or
not it fails: the trace has them one after the other, and the outcome is the same. -/
theorem assemble_recorded (hw : Hardware) (streams : OperandStreams) (trace : τ)
    (source : String) :
    assemble hw streams trace source =
      ((assemble hw streams (#[] : Array MemoryAccess) source).1.toList.foldl Recorder.record trace,
        (assemble hw streams (#[] : Array MemoryAccess) source).2) :=
  assemble_viewed (Recorder.respects_foldl trace) hw streams #[] source

end NearMemory
