import NearMemory.Assembler

/-!
# What a line can do

The assembler keeps going after a line that fails, so its states are those after any lines at all,
fed one after the other. `Assembler.LineStep` says once what a line can do: it fails or says nothing
and changes nothing but the data stream, or it selects an entry, stages an instruction, writes a
register file or the loop register, or executes the buffer. Every invariant of the assembler is then
a case analysis of one step, and an induction over the lines.

## Main definitions

* `Assembler.feed` — the state after some lines, whether or not they fail
* `Assembler.entered`, `Assembler.loaded`, `Assembler.looped` — the states that writes lead to
* `Assembler.onMachine` — the same state around another machine
* `Assembler.LineStep` — everything that a line can do

## Main results

* `Assembler.statement_onMachine` — statements go along with a map between machines
* `Assembler.lineStep` — every line is such a step
* `Assembler.feed_induction` — what a step preserves holds after any lines
-/

namespace NearMemory

namespace Assembler

variable {σ : Type}

/-! ### Writes -/

/-- The state with another data stream. -/
def withData (a : Assembler σ) (data : OperandStream) : Assembler σ :=
  { a with machine := a.machine.withData data }

variable [Recorder σ]

/-- The state after an instruction is staged in entry `next`. -/
def entered (a : Assembler σ) (line next : Nat) (i : Instruction) : Assembler σ :=
  let a := (a.remark line (i.op.cutFields.map (.fieldCut next))).recordWrite
    (a.hardware.addressMap.registerFile .instrBuffer next) [i.op.encode.toUInt64]
  { a with
    buffer := a.buffer.setIfInBounds next (some (.ofInstruction i))
    counters := { a.counters with staged := a.counters.staged + 1 }
    mode := .staging (next + 1) }

/-- The state after words are written to an entry of a register file. -/
def loaded (a : Assembler σ) (file : RegisterFile) (index : Nat) (words : List UInt64) :
    Assembler σ :=
  let loop := if file = .loopRegister then LoopRegister.decode (words.headD 0) else a.loop
  let a := ({ a with loop } : Assembler σ).recordWrite
    (a.hardware.addressMap.registerFile file index) words
  { a with counters := { a.counters with fileWrites := a.counters.fileWrites + 1 } }

/-- The state after a word is written to the loop register, which holds `loop` from then on. -/
def loopLoaded (a : Assembler σ) (line : Nat) (notices : List Notice) (word : UInt64)
    (loop : LoopRegister) : Assembler σ :=
  let a := { a.remark line notices with loop }
  let a := a.recordWrite (a.hardware.addressMap.registerFile .loopRegister 0) [word]
  { a with counters := { a.counters with loopWrites := a.counters.loopWrites + 1 } }

/-- The state after the statement that writes the loop register. -/
def looped (a : Assembler σ) (line : Nat) (loop : LoopRegister) : Assembler σ :=
  a.loopLoaded line
    (if 1 <<< LoopRegister.countBits ≤ loop.iterations
      then [Notice.loopCountCut loop.iterations] else [])
    loop.encode (.decode loop.encode)

/-- What a write of the loop register changes and keeps. The word is a variable here: nothing is to
be computed with it. -/
theorem loopLoaded_fields (a : Assembler σ) (line : Nat) (notices : List Notice) (word : UInt64)
    (loop : LoopRegister) :
    (a.loopLoaded line notices word loop).hardware = a.hardware ∧
      (a.loopLoaded line notices word loop).buffer = a.buffer ∧
      (a.loopLoaded line notices word loop).mode = a.mode ∧
      (a.loopLoaded line notices word loop).loop = loop ∧
      (a.loopLoaded line notices word loop).machine = a.machine.record
        ⟨a.hardware.addressMap.registerFile .loopRegister 0, .write, [word]⟩ :=
  ⟨rfl, rfl, rfl, rfl, rfl⟩

theorem stage_eq (a : Assembler σ) (number : Nat) (i : Instruction) :
    a.stage number i =
      match a.mode with
      | .idle => (a, .error (.grammar (.notStaging i.text)))
      | .staging next =>
        if next < a.hardware.bufferEntries then (a.entered number next i, .ok ())
        else (a, .error (.capacity .instrBuffer next a.hardware.bufferEntries)) := rfl

theorem writeWords_eq (a : Assembler σ) (file : RegisterFile) (index : Nat) (words : List UInt64) :
    a.writeWords file index words =
      if words.length = file.entryWords then (a.loaded file index words, .ok ())
      else (a, .error (.grammar (.literalCount file words.length))) := rfl

theorem writeLoop_eq (a : Assembler σ) (number : Nat) (loop : LoopRegister) :
    a.writeLoop number loop =
      if a.hardware.bufferEntries ≤ loop.finish then
        (a, .error (.capacity .loopFinish loop.finish a.hardware.bufferEntries))
      else if loop.finish < loop.start then
        (a, .error (.grammar (.loopOrder loop.start loop.finish)))
      else (a.looped number loop, .ok ()) := rfl

/-! ### Another machine

Two runs are put side by side by a map between their machines. As long as the map lets commands be
recorded on either side of it, whatever a line does besides taking operands goes along with it.
-/

section OnMachine

variable {τ : Type} [Recorder τ] {f : Machine σ → Machine τ}

/-- The same state around another machine. -/
def onMachine (f : Machine σ → Machine τ) (a : Assembler σ) : Assembler τ :=
  { a with machine := f a.machine }

omit [Recorder σ] [Recorder τ] in
theorem select_onMachine (f : Machine σ → Machine τ) (a : Assembler σ) (index : Nat) :
    (a.onMachine f).select index = ((a.select index).1.onMachine f, (a.select index).2) := by
  by_cases h : index < a.hardware.bufferEntries
  · rw [select, select, if_pos h]
    exact if_pos h
  · rw [select, select, if_neg h]
    exact if_neg h

theorem entered_onMachine (hrecord : ∀ m c, f (m.record c) = (f m).record c) (a : Assembler σ)
    (number next : Nat) (i : Instruction) :
    (a.onMachine f).entered number next i = (a.entered number next i).onMachine f := by
  simp only [entered, recordWrite, remark, onMachine, hrecord]

theorem stage_onMachine (hrecord : ∀ m c, f (m.record c) = (f m).record c) (a : Assembler σ)
    (number : Nat) (i : Instruction) :
    (a.onMachine f).stage number i = ((a.stage number i).1.onMachine f, (a.stage number i).2) := by
  have hmode : (a.onMachine f).mode = a.mode := rfl
  rw [stage_eq, stage_eq, hmode]
  cases a.mode with
  | idle => rfl
  | staging next =>
    dsimp only
    rw [entered_onMachine hrecord]
    by_cases h : next < a.hardware.bufferEntries
    · rw [if_pos h]
      exact if_pos h
    · rw [if_neg h]
      exact if_neg h

theorem loaded_onMachine (hrecord : ∀ m c, f (m.record c) = (f m).record c) (a : Assembler σ)
    (file : RegisterFile) (index : Nat) (words : List UInt64) :
    (a.onMachine f).loaded file index words = (a.loaded file index words).onMachine f := by
  simp only [loaded, recordWrite, onMachine, hrecord]

theorem writeWords_onMachine (hrecord : ∀ m c, f (m.record c) = (f m).record c) (a : Assembler σ)
    (file : RegisterFile) (index : Nat) (words : List UInt64) :
    (a.onMachine f).writeWords file index words =
      ((a.writeWords file index words).1.onMachine f, (a.writeWords file index words).2) := by
  rw [writeWords_eq, writeWords_eq, loaded_onMachine hrecord]
  split <;> rfl

theorem loopLoaded_onMachine (hrecord : ∀ m c, f (m.record c) = (f m).record c) (a : Assembler σ)
    (number : Nat) (notices : List Notice) (word : UInt64) (loop : LoopRegister) :
    (a.onMachine f).loopLoaded number notices word loop =
      (a.loopLoaded number notices word loop).onMachine f := by
  simp only [loopLoaded, recordWrite, remark, onMachine, hrecord]

theorem writeLoop_onMachine (hrecord : ∀ m c, f (m.record c) = (f m).record c) (a : Assembler σ)
    (number : Nat) (loop : LoopRegister) :
    (a.onMachine f).writeLoop number loop =
      ((a.writeLoop number loop).1.onMachine f, (a.writeLoop number loop).2) := by
  have hhardware : (a.onMachine f).hardware = a.hardware := rfl
  rw [writeLoop_eq, writeLoop_eq, hhardware, looped, looped, loopLoaded_onMachine hrecord]
  split
  · rfl
  · split <;> rfl

/-- A write of a register file goes along if the record that it takes does. -/
theorem writeFile_onMachine (hrecord : ∀ m c, f (m.record c) = (f m).record c) {a : Assembler σ}
    {number : Nat} {file : RegisterFile} {index : Nat} {values : Option DataOperand}
    (htake : index < a.hardware.capacity file → values = some .stream → ∃ data data' result,
      a.machine.streams.data.takeRecord number = (data, result) ∧
      (f a.machine).streams.data.takeRecord number = (data', result) ∧
      f (a.machine.withData data) = (f a.machine).withData data') :
    (a.onMachine f).writeFile number file index values =
      ((a.writeFile number file index values).1.onMachine f,
        (a.writeFile number file index values).2) := by
  have hcapacity : (a.onMachine f).hardware.capacity file = a.hardware.capacity file := rfl
  unfold writeFile
  rw [hcapacity]
  by_cases hindex : index < a.hardware.capacity file
  · rw [if_pos hindex, if_pos hindex]
    match values with
    | none => rfl
    | some (.literal words) => simp only [writeWords_onMachine hrecord]
    | some .stream =>
      obtain ⟨data, data', result, hdata, hdata', hkeep⟩ := htake hindex rfl
      replace hdata' : (a.onMachine f).machine.streams.data.takeRecord number = (data', result) :=
        hdata'
      have hwith : ({ a.onMachine f with machine := (a.onMachine f).machine.withData data' } :
          Assembler τ) = (a.withData data).onMachine f := by
        rw [withData, onMachine, onMachine, hkeep]
      simp only [hdata, hdata', hwith]
      cases result with
      | error e => rfl
      | ok words => simp only [writeWords_onMachine hrecord, withData]
  · rw [if_neg hindex, if_neg hindex]

/-- An execution goes along if the machine does. -/
theorem execute_onMachine {a : Assembler σ} {number : Nat} {m : Machine σ}
    {result : Except AssemblyError Nat}
    (h : a.machine.execute a.hardware a.buffer a.loop number = (m, result))
    (h' : (f a.machine).execute a.hardware a.buffer a.loop number = (f m, result)) :
    (a.onMachine f).execute number = ((a.execute number).1.onMachine f, (a.execute number).2) := by
  replace h' : (a.onMachine f).machine.execute (a.onMachine f).hardware (a.onMachine f).buffer
    (a.onMachine f).loop number = (f m, result) := h'
  rw [execute, execute, h, h']
  cases result <;> rfl

/-- A statement goes along if its writes of register files and its executions do. -/
theorem statement_onMachine (hrecord : ∀ m c, f (m.record c) = (f m).record c) {a : Assembler σ}
    {number : Nat} {s : Statement}
    (hwrite : ∀ file index values, s = .writeFile file index values → file ≠ .instrBuffer →
      (a.onMachine f).writeFile number file index values =
        ((a.writeFile number file index values).1.onMachine f,
          (a.writeFile number file index values).2))
    (hexecute : s = .execute →
      (a.onMachine f).execute number = ((a.execute number).1.onMachine f, (a.execute number).2)) :
    (a.onMachine f).statement number s =
      ((a.statement number s).1.onMachine f, (a.statement number s).2) := by
  cases s with
  | writeFile file index values =>
    by_cases hfile : file = .instrBuffer
    · subst hfile
      simp only [statement, select_onMachine]
    · rw [statement, statement]
      · exact hwrite file index values rfl hfile
      · exact hfile
      · exact hfile
  | instruction i => simp only [statement, stage_onMachine hrecord]
  | writeLoop loop => simp only [statement, writeLoop_onMachine hrecord]
  | execute => exact hexecute rfl

end OnMachine

/-! ### Steps -/

/-- Everything that a line can do. -/
inductive LineStep (a : Assembler σ) (number : Nat) (text : String) :
    Assembler σ → Except AssemblyError Unit → Prop
  /-- The line cannot be read. -/
  | unread {e : AssemblyError} (h : Statement.ofLine number text = .error e) :
    LineStep a number text a (.error e)
  /-- The line says nothing. -/
  | empty (h : Statement.ofLine number text = .ok none) : LineStep a number text a (.ok ())
  /-- The statement is refused. -/
  | refused {s : Statement} {e : LineFault} (h : Statement.ofLine number text = .ok (some s))
    (hexecute : s ≠ .execute) : LineStep a number text a (.error (.atLine number e))
  /-- The data stream gives no record. -/
  | starved {file : RegisterFile} {index : Nat} {data : OperandStream} {e : AssemblyError}
    (h : Statement.ofLine number text = .ok (some (.writeFile file index (some .stream))))
    (htake : a.machine.streams.data.takeRecord number = (data, .error e)) :
    LineStep a number text (a.withData data) (.error e)
  /-- The data stream gives a record of the wrong length. -/
  | mismatched {file : RegisterFile} {index : Nat} {data : OperandStream} {words : List UInt64}
    (h : Statement.ofLine number text = .ok (some (.writeFile file index (some .stream))))
    (htake : a.machine.streams.data.takeRecord number = (data, .ok words)) :
    LineStep a number text (a.withData data)
      (.error (.atLine number (.grammar (.literalCount file words.length))))
  /-- An entry of the instruction buffer is selected. -/
  | selected {index : Nat} {values : Option DataOperand}
    (h : Statement.ofLine number text = .ok (some (.writeFile .instrBuffer index values)))
    (hindex : index < a.hardware.bufferEntries) :
    LineStep a number text { a with mode := .staging index } (.ok ())
  /-- An instruction is staged. -/
  | staged {i : Instruction} {next : Nat}
    (h : Statement.ofLine number text = .ok (some (.instruction i)))
    (hmode : a.mode = .staging next) (hnext : next < a.hardware.bufferEntries) :
    LineStep a number text (a.entered number next i) (.ok ())
  /-- Words of the line are written to a register file. -/
  | written {file : RegisterFile} {index : Nat} {words : List UInt64}
    (h : Statement.ofLine number text = .ok (some (.writeFile file index (some (.literal words)))))
    (hfile : file ≠ .instrBuffer) (hindex : index < a.hardware.capacity file)
    (hwords : words.length = file.entryWords) :
    LineStep a number text (a.loaded file index words) (.ok ())
  /-- A record of the data stream is written to a register file. -/
  | supplied {file : RegisterFile} {index : Nat} {data : OperandStream} {words : List UInt64}
    (h : Statement.ofLine number text = .ok (some (.writeFile file index (some .stream))))
    (htake : a.machine.streams.data.takeRecord number = (data, .ok words))
    (hfile : file ≠ .instrBuffer) (hindex : index < a.hardware.capacity file)
    (hwords : words.length = file.entryWords) :
    LineStep a number text ((a.withData data).loaded file index words) (.ok ())
  /-- The loop register is written. -/
  | looped {loop : LoopRegister} (h : Statement.ofLine number text = .ok (some (.writeLoop loop)))
    (hfinish : loop.finish < a.hardware.bufferEntries) (horder : loop.start ≤ loop.finish) :
    LineStep a number text (a.looped number loop) (.ok ())
  /-- The buffer is executed. -/
  | executed (h : Statement.ofLine number text = .ok (some .execute)) :
    LineStep a number text (a.execute number).1 (a.execute number).2

variable {a : Assembler σ} {number : Nat} {text : String}

theorem lineStep_select {index : Nat} {values : Option DataOperand}
    (h : Statement.ofLine number text = .ok (some (.writeFile .instrBuffer index values))) :
    LineStep a number text (a.select index).1 ((a.select index).2.mapError (.atLine number)) := by
  rw [select]
  split
  next hindex => exact .selected h hindex
  next => exact .refused h (by rintro ⟨⟩)

theorem lineStep_stage {i : Instruction}
    (h : Statement.ofLine number text = .ok (some (.instruction i))) :
    LineStep a number text (a.stage number i).1
      ((a.stage number i).2.mapError (.atLine number)) := by
  rw [stage]
  split
  next => exact .refused h (by rintro ⟨⟩)
  next next hmode =>
    split
    next hnext => exact .staged h hmode hnext
    next => exact .refused h (by rintro ⟨⟩)

theorem lineStep_writeFile {file : RegisterFile} {index : Nat} {values : Option DataOperand}
    (h : Statement.ofLine number text = .ok (some (.writeFile file index values)))
    (hfile : file ≠ .instrBuffer) :
    LineStep a number text (a.writeFile number file index values).1
      (a.writeFile number file index values).2 := by
  unfold writeFile
  split
  next hindex =>
    split
    next words =>
      rw [writeWords]
      split
      next hwords => exact .written h hfile hindex hwords
      next => exact .refused h (by rintro ⟨⟩)
    next =>
      cases htake : a.machine.streams.data.takeRecord number with
      | mk data result =>
        cases result with
        | error e => exact .starved h htake
        | ok words =>
          dsimp only
          rw [writeWords]
          split
          next hwords => exact .supplied h htake hfile hindex hwords
          next => exact .mismatched h htake
    next => exact .refused h (by rintro ⟨⟩)
  next => exact .refused h (by rintro ⟨⟩)

theorem lineStep_writeLoop {loop : LoopRegister}
    (h : Statement.ofLine number text = .ok (some (.writeLoop loop))) :
    LineStep a number text (a.writeLoop number loop).1
      ((a.writeLoop number loop).2.mapError (.atLine number)) := by
  rw [writeLoop]
  split
  next => exact .refused h (by rintro ⟨⟩)
  next hfinish =>
    split
    next => exact .refused h (by rintro ⟨⟩)
    next horder => exact .looped h (Nat.lt_of_not_le hfinish) (Nat.le_of_not_lt horder)

/-- **Every line is a step.** -/
theorem lineStep (a : Assembler σ) (number : Nat) (text : String) :
    LineStep a number text (a.line number text).1 (a.line number text).2 := by
  rw [line]
  split
  next e h => exact .unread h
  next h => exact .empty h
  next s h =>
    cases s with
    | writeFile file index values =>
      by_cases hfile : file = .instrBuffer
      · subst hfile
        exact lineStep_select h
      · rw [statement]
        · exact lineStep_writeFile h hfile
        · exact hfile
    | instruction i => exact lineStep_stage h
    | writeLoop loop => exact lineStep_writeLoop h
    | execute => exact .executed h

/-- An execution keeps the buffer and the loop register, and selects no entry. -/
theorem execute_keeps (a : Assembler σ) (number : Nat) :
    (a.execute number).1.hardware = a.hardware ∧ (a.execute number).1.buffer = a.buffer ∧
      (a.execute number).1.loop = a.loop ∧
      ((a.execute number).1.mode = a.mode ∨ (a.execute number).1.mode = .idle) := by
  rw [execute]
  split
  · exact ⟨rfl, rfl, rfl, .inl rfl⟩
  · exact ⟨rfl, rfl, rfl, .inr rfl⟩

theorem line_of_execute (h : Statement.ofLine number text = .ok (some .execute)) :
    a.line number text = a.execute number := by
  rw [line, h]
  rfl

/-- An execution leaves the machine as it was walked. -/
theorem machine_execute (a : Assembler σ) (number : Nat) :
    (a.execute number).1.machine =
        (a.machine.execute a.hardware a.buffer a.loop number).1 ∧
      (a.execute number).2 =
        (a.machine.execute a.hardware a.buffer a.loop number).2.map fun _ => () := by
  rw [execute]
  split
  next machine e h => exact ⟨by rw [h], by rw [h]; rfl⟩
  next machine count h => exact ⟨by rw [h], by rw [h]; rfl⟩

/-- Only staging changes the buffer, by the instruction that the line says. -/
theorem LineStep.buffer_cases {a' : Assembler σ} {result : Except AssemblyError Unit}
    (h : LineStep a number text a' result) :
    a'.buffer = a.buffer ∨ ∃ i next, Statement.ofLine number text = .ok (some (.instruction i)) ∧
      a'.buffer = a.buffer.setIfInBounds next (some (.ofInstruction i)) := by
  cases h with
  | unread | empty | refused | starved | mismatched | selected | written | supplied =>
    exact .inl rfl
  | @staged i next h => exact .inr ⟨i, next, h, rfl⟩
  | looped => exact .inl (loopLoaded_fields ..).2.1
  | executed => exact .inl (execute_keeps a number).2.1

theorem LineStep.hardware_eq {a' : Assembler σ} {result : Except AssemblyError Unit}
    (h : LineStep a number text a' result) : a'.hardware = a.hardware := by
  cases h with
  | looped => exact (loopLoaded_fields ..).1
  | executed => exact (execute_keeps a number).1
  | _ => rfl

/-! ### Lines in turn -/

/-- The state after some lines, each with its number. A line that fails does not stop them. -/
def feed (a : Assembler σ) : List (Nat × String) → Assembler σ
  | [] => a
  | (number, text) :: rest => feed (a.line number text).1 rest

/-- **What every step preserves holds after the lines.** -/
theorem feed_induction {P : Assembler σ → Prop} {ls : List (Nat × String)} (h : P a)
    (hstep : ∀ l ∈ ls, ∀ {a a' : Assembler σ} {result : Except AssemblyError Unit},
      P a → LineStep a l.1 l.2 a' result → P a') : P (a.feed ls) := by
  induction ls generalizing a with
  | nil => exact h
  | cons l rest ih =>
    refine ih (hstep l (List.mem_cons_self ..) h (lineStep a l.1 l.2)) ?_
    intro l' hl'
    exact hstep l' (List.mem_cons_of_mem l hl')

theorem feed_append (a : Assembler σ) (ls₁ ls₂ : List (Nat × String)) :
    a.feed (ls₁ ++ ls₂) = (a.feed ls₁).feed ls₂ := by
  induction ls₁ generalizing a with
  | nil => rfl
  | cons l rest ih => exact ih (a.line l.1 l.2).1

theorem hardware_feed (a : Assembler σ) (ls : List (Nat × String)) :
    (a.feed ls).hardware = a.hardware :=
  feed_induction (P := fun a' => a'.hardware = a.hardware) rfl
    fun _ _ _ _ _ heq hstep => hstep.hardware_eq.trans heq

/-- The buffer has an entry for each that the hardware has. -/
theorem size_buffer_feed (hw : Hardware) (streams : OperandStreams) (trace : σ)
    (ls : List (Nat × String)) :
    ((start hw streams trace).feed ls).buffer.size =
      ((start hw streams trace).feed ls).hardware.bufferEntries := by
  rw [hardware_feed]
  refine feed_induction (P := fun a => a.buffer.size = hw.bufferEntries) Array.size_replicate ?_
  intro l hl a a' result hsize hstep
  rcases hstep.buffer_cases with heq | ⟨i, next, -, heq⟩
  · rw [heq, hsize]
  · rw [heq, Array.size_setIfInBounds, hsize]

end Assembler

end NearMemory
