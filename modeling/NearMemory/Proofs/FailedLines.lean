import NearMemory.Proofs.StagedPrograms

/-!
# Lines that fail

A run goes on after a line that fails, so what such a line leaves behind matters. A statement is
checked before it changes anything: the index of an entry and the number of its words before the
write, the range of a loop before the register is loaded. Only two statements take operands before
they can fail. A register write from the data stream has taken its record by the time the words are
counted, and an execution has walked up to the visit that fails.

Faults are reported with the number of the line they come from. The exception are records that
cannot be read at all, which belong to a line of their stream.

## Main results

* `Machine.fault_of_visit`, `Machine.fault_of_walk` — what stops a visit, and a walk
* `Assembler.LineStep.fault` — the fault of a line names the line
* `Assembler.line_failed_intact` — a line that fails leaves the assembler as it was
-/

namespace NearMemory

/-! ### Faults of lines -/

namespace AssemblyError

/-- A fault with the number of a source line, or one of a record that cannot be read. -/
def LocatedAt (line : Nat) (e : AssemblyError) : Prop :=
  e.line? = some line ∨ (∃ kind streamLine token, e = .badRecord kind streamLine token) ∨
    e = .notText

theorem locatedAt_atLine (line : Nat) (fault : LineFault) : LocatedAt line (.atLine line fault) :=
  .inl rfl

theorem OfStream.locatedAt {line : Nat} {e : AssemblyError} (h : e.OfStream line) :
    e.LocatedAt line := by
  cases h with
  | exhausted | recordWidth => exact locatedAt_atLine line _
  | badRecord kind streamLine token => exact .inr (.inl ⟨kind, streamLine, token, rfl⟩)
  | notText => exact .inr (.inr rfl)

theorem LocatedAt.line?_eq {line : Nat} {e : AssemblyError} (h : e.LocatedAt line)
    (hrecord : ∀ kind streamLine token, e ≠ .badRecord kind streamLine token)
    (htext : e ≠ .notText) : e.line? = some line := by
  rcases h with h | ⟨kind, streamLine, token, rfl⟩ | rfl
  · exact h
  · exact absurd rfl (hrecord kind streamLine token)
  · exact absurd rfl htext

end AssemblyError

theorem Statement.locatedAt_of_ofLine {number : Nat} {text : String} {e : AssemblyError}
    (h : ofLine number text = .error e) : e.LocatedAt number := by
  rw [ofLine] at h
  split at h
  · obtain rfl := Except.error.inj h
    exact AssemblyError.locatedAt_atLine number _
  · split at h
    · obtain rfl := Except.error.inj h
      exact AssemblyError.locatedAt_atLine number _
    · contradiction

namespace Machine

variable {σ : Type} {hw : Hardware} {line : Nat} {m m' : Machine σ} {fault : AssemblyError}

theorem fault_of_accessAddress {operand : Option AddressOperand}
    (h : m.accessAddress hw line operand = (m', .error fault)) : fault.OfStream line := by
  match operand with
  | none => cases h
  | some (.literal address) => cases h
  | some .stream => exact OperandStream.ofStream_of_takeWord (Prod.ext rfl (Prod.mk.inj h).2)

theorem fault_of_locate {opcode : Opcode} {operand : Option AddressOperand}
    (h : m.locate hw line opcode operand = (m', .error fault)) : fault.OfStream line := by
  rw [locate] at h
  split at h
  · split at h
    next haccess =>
      obtain rfl := Except.error.inj (Prod.mk.inj h).2
      exact fault_of_accessAddress haccess
    next => cases h
  · cases h

/-- **A visit is stopped by a stream only.** -/
theorem fault_of_visit {opcode : Opcode} {i : Instruction}
    (h : m.visit hw line opcode i = (m', .error fault)) : fault.OfStream line := by
  rw [visit] at h
  split at h
  next hlocate =>
    obtain rfl := Except.error.inj (Prod.mk.inj h).2
    exact fault_of_locate hlocate
  next m₁ _ _ _ =>
    obtain ⟨m₂, result, hpayload, -, -, hfault, -⟩ := payload_cases line i.data m₁
    rw [hpayload] at h
    cases result with
    | error e =>
      obtain rfl := Except.error.inj (Prod.mk.inj h).2
      exact hfault e rfl
    | ok words => cases h

/-- **A walk is stopped by a stream, or by a word that packs no operation.** -/
theorem fault_of_walk [Recorder σ] {buffer : InstrBuffer} {loop : LoopRegister}
    {remaining pc count : Nat}
    (h : (m.walk hw buffer loop line remaining pc count).2 = .error fault) :
    fault.OfStream line ∨
      ∃ entry word, fault = .atLine line (.grammar (.undecodable entry word)) := by
  fun_induction walk hw buffer loop line remaining pc count m with
  | case1 => contradiction
  | case2 pc _ _ entry =>
    obtain rfl := Except.error.inj h
    exact .inr ⟨_, _, rfl⟩
  | case3 _ _ _ _ _ _ _ _ _ _ hvisit =>
    obtain rfl := Except.error.inj h
    exact .inl (fault_of_visit hvisit)
  | case4 => contradiction
  | case5 _ _ _ _ _ _ _ _ _ _ _ _ _ _ ih => exact ih h
  | case6 _ _ _ _ _ _ _ _ _ _ _ _ _ _ ih => exact ih h

end Machine

/-! ### States after a failure -/

namespace Assembler

variable {σ : Type} [Recorder σ] {a a' : Assembler σ} {number : Nat} {text : String}
  {e : AssemblyError}

theorem fault_of_execute (h : (a.execute number).2 = .error e) : e.LocatedAt number := by
  rw [(machine_execute a number).2] at h
  cases hwalk : (a.machine.execute a.hardware a.buffer a.loop number).2 with
  | ok count =>
    rw [hwalk] at h
    contradiction
  | error fault =>
    rw [hwalk] at h
    obtain rfl := Except.error.inj h
    rcases Machine.fault_of_walk hwalk with hstream | ⟨entry, word, rfl⟩
    · exact hstream.locatedAt
    · exact AssemblyError.locatedAt_atLine number _

/-- **The fault of a line names the line,** unless a record of a stream cannot be read. -/
theorem LineStep.fault (h : LineStep a number text a' (.error e)) : e.LocatedAt number := by
  generalize hresult : (Except.error e : Except AssemblyError Unit) = result at h
  cases h with
  | unread h =>
    obtain rfl := Except.error.inj hresult
    exact Statement.locatedAt_of_ofLine h
  | refused | mismatched =>
    obtain rfl := Except.error.inj hresult
    exact AssemblyError.locatedAt_atLine number _
  | starved _ htake =>
    obtain rfl := Except.error.inj hresult
    exact (OperandStream.ofStream_of_takeRecord htake).locatedAt
  | empty | selected | staged | written | supplied | looped => contradiction
  | executed => exact fault_of_execute hresult.symm

/-- An execution that fails changes the machine only: it is not counted, and an entry that is
selected stays selected. -/
theorem execute_failed (h : (a.execute number).2 = .error e) :
    (a.execute number).1 = { a with machine := (a.execute number).1.machine } := by
  rw [execute] at h ⊢
  split at h
  next => rfl
  next => contradiction

/-- The line writes a register file with a record of the data stream. -/
def TakesRecord (number : Nat) (text : String) : Prop :=
  ∃ file index, Statement.ofLine number text = .ok (some (.writeFile file index (some .stream)))

/-- **A step that fails without an execution.** The state is the one before, but for a record that a
register write has taken from the data stream. -/
theorem LineStep.failed (h : LineStep a number text a' (.error e))
    (hexecute : Statement.ofLine number text ≠ .ok (some .execute)) :
    a' = a ∨ TakesRecord number text ∧
      a' = a.withData (a.machine.streams.data.takeRecord number).1 := by
  generalize hresult : (Except.error e : Except AssemblyError Unit) = result at h
  cases h with
  | unread | refused => exact .inl rfl
  | @starved file index _ _ h htake | @mismatched file index _ _ h htake =>
    refine .inr ⟨⟨file, index, h⟩, ?_⟩
    rw [htake]
  | empty | selected | staged | written | supplied | looped => contradiction
  | executed h => exact absurd h hexecute

/-- **A line that fails leaves the assembler intact.** Whatever lines were fed before, failed ones
among them: where a line fails, the buffer, the loop register, the selected entry, the counters and
the remarks are as before, also if the line executes the buffer. If it does not, the trace, the open
row and the address stream are as before, too, and so is the data stream, unless the line writes a
register file from it; then one record at most is taken. The fault has the number of the line,
unless a record of a stream cannot be read. -/
theorem line_failed_intact (hw : Hardware) (streams : OperandStreams) (trace : σ)
    (ls : List (Nat × String)) (number : Nat) (text : String) {e : AssemblyError}
    (h : (((start hw streams trace).feed ls).line number text).2 = .error e) :
    let a := (start hw streams trace).feed ls
    let a' := (a.line number text).1
    a' = { a with machine := a'.machine } ∧
    (Statement.ofLine number text ≠ .ok (some .execute) →
      a'.machine.trace = a.machine.trace ∧ a'.machine.openRow = a.machine.openRow ∧
      a'.machine.streams.addresses = a.machine.streams.addresses ∧
      (¬TakesRecord number text → a'.machine.streams.data = a.machine.streams.data) ∧
      (TakesRecord number text → a'.machine.streams.data = a.machine.streams.data ∨
        a'.machine.streams.data = (a.machine.streams.data.takeRecord number).1)) ∧
    ((∀ kind line token, e ≠ .badRecord kind line token) → e ≠ .notText →
      e.line? = some number) := by
  intro a a'
  have hstep : LineStep a number text a' (.error e) := h ▸ lineStep a number text
  refine ⟨?_, ?_, hstep.fault.line?_eq⟩
  · by_cases hexecute : Statement.ofLine number text = .ok (some .execute)
    · have hline : a.line number text = a.execute number := line_of_execute hexecute
      have herror : (a.execute number).2 = .error e := hline ▸ h
      show (a.line number text).1 = { a with machine := (a.line number text).1.machine }
      rw [hline]
      exact execute_failed herror
    · rcases hstep.failed hexecute with hsame | ⟨-, hdata⟩
      · rw [hsame]
      · rw [hdata]
        rfl
  · intro hexecute
    rcases hstep.failed hexecute with hsame | ⟨htakes, hdata⟩
    · rw [hsame]
      exact ⟨rfl, rfl, rfl, fun _ => rfl, fun _ => .inl rfl⟩
    · rw [hdata]
      exact ⟨rfl, rfl, rfl, fun hnot => absurd htakes hnot, fun _ => .inr rfl⟩

/-- A record of two words for the loop register, which takes one: the record is gone, and all else
is as before. An execution without addresses fails at its first visit and selects nothing else. -/
theorem line_failed_intact_record_taken :
    ∃ ls : List (Nat × String), ls.map (·.2) = ["WRF IB0", "VMV R9 R0", "RLB VWR_0 AddrFile"] ∧
      let a : Assembler (Array MemoryAccess) := (start {} (.ofText "0x1 0x2\n" "") #[]).feed ls
      (∃ e, (a.line 4 "WRF LR0 DataFile").2 = .error e ∧ e.line? = some 4 ∧
        (a.line 4 "WRF LR0 DataFile").1.loop = {} ∧
        (a.line 4 "WRF LR0 DataFile").1.machine.trace = a.machine.trace ∧
        (a.line 4 "WRF LR0 DataFile").1.machine.streams.data.consumed = 1 ∧
        a.machine.streams.data.consumed = 0) ∧
      ∃ e, (a.line 5 "EXEC").2 = .error e ∧ e.line? = some 5 ∧
        (a.line 5 "EXEC").1.mode = .staging 1 ∧
        (a.line 5 "EXEC").1.counters = a.counters := by
  let ls : List (Nat × String) := [(1, "WRF IB0"), (2, "VMV R9 R0"), (3, "RLB VWR_0 AddrFile")]
  let a : Assembler (Array MemoryAccess) := (start {} (.ofText "0x1 0x2\n" "") #[]).feed ls
  have hwrite : (a.line 4 "WRF LR0 DataFile").2 =
      .error (.atLine 4 (.grammar (.literalCount .loopRegister 2))) := by decide +kernel
  have hexecute : (a.line 5 "EXEC").2 = .error (.atLine 5 (.exhausted .address)) := by
    decide +kernel
  have hmode : a.mode = .staging 1 := by decide +kernel
  have hloop : a.loop = {} := by decide +kernel
  obtain ⟨hkept, hquiet, hnumber⟩ :=
    line_failed_intact {} (.ofText "0x1 0x2\n" "") #[] ls 4 "WRF LR0 DataFile" hwrite
  obtain ⟨htrace, -⟩ := hquiet (by decide +kernel)
  obtain ⟨hkept', -, hnumber'⟩ :=
    line_failed_intact {} (.ofText "0x1 0x2\n" "") #[] ls 5 "EXEC" hexecute
  refine ⟨ls, rfl, ⟨_, hwrite, hnumber (by rintro _ _ _ ⟨⟩) (by rintro ⟨⟩), ?_, htrace,
    by decide +kernel, by decide +kernel⟩, _, hexecute,
    hnumber' (by rintro _ _ _ ⟨⟩) (by rintro ⟨⟩), ?_, ?_⟩
  · exact (congrArg Assembler.loop hkept).trans hloop
  · exact (congrArg Assembler.mode hkept').trans hmode
  · rw [hkept']

end Assembler

end NearMemory
