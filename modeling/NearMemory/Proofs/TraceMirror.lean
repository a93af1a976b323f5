import NearMemory.Proofs.AssemblerRun
import NearMemory.Proofs.LineSteps
import NearMemory.Proofs.RegisterAddresses

/-!
# The trace mirrors the register files

Entries of register files are written through memory commands, so a memory that takes the commands
of a trace holds what the assembler holds. Leaving executions aside, the latest command to the
address of a buffer entry carries the packed word of that entry, and the latest one to the address
of the loop register carries the word it was loaded from. Where there is no such command, the entry
is not staged and the loop register is as it was at the start.

This needs register files with addresses of their own: a write of another file must not pass for one
of the buffer.

## Main definitions

* `MemoryAccess.latest?` — the latest of some commands to an address
* `Assembler.writesFrom` — the commands of some lines, without those of executions
* `Assembler.Mirrors` — the commands agree with the buffer and the loop register

## Main results

* `Assembler.Mirrors.step` — a line keeps the agreement
* `Assembler.feed_mirrored` — the agreement holds after any lines
-/

namespace NearMemory

namespace MemoryAccess

/-- The latest of some commands to an address. -/
def latest? (records : List MemoryAccess) (address : UInt64) : Option MemoryAccess :=
  records.reverse.find? (·.address == address)

theorem latest?_concat_self (records : List MemoryAccess) (c : MemoryAccess) :
    latest? (records ++ [c]) c.address = some c := by
  simp [latest?]

theorem latest?_concat_of_ne (records : List MemoryAccess) {c : MemoryAccess} {address : UInt64}
    (h : c.address ≠ address) : latest? (records ++ [c]) address = latest? records address := by
  simp [latest?, h]

theorem latest?_eq_none_iff {records : List MemoryAccess} {address : UInt64} :
    latest? records address = none ↔ ∀ c ∈ records, c.address ≠ address := by
  simp [latest?]

end MemoryAccess

open MemoryAccess (latest?)

namespace Assembler

variable {hw : Hardware} {a a' : Assembler (Array MemoryAccess)} {records : List MemoryAccess}
  {number : Nat} {text : String}

/-! ### Commands of lines -/

/-- The commands of a line, unless it executes the buffer. -/
def writesBy (a : Assembler (Array MemoryAccess)) (number : Nat) (text : String) :
    List MemoryAccess :=
  match Statement.ofLine number text with
  | .ok (some .execute) => []
  | _ => a.recordedSince (a.line number text).1

/-- The commands of some lines, without those of executions. -/
def writesFrom (a : Assembler (Array MemoryAccess)) : List (Nat × String) → List MemoryAccess
  | [] => []
  | (number, text) :: rest => a.writesBy number text ++ writesFrom (a.line number text).1 rest

theorem writesBy_of_ne_execute (h : Statement.ofLine number text ≠ .ok (some .execute)) :
    a.writesBy number text = a.recordedSince (a.line number text).1 := by
  rw [writesBy]
  split
  next hexecute => exact absurd hexecute h
  next => rfl

theorem recordedSince_of_trace_eq (h : a'.machine.trace = a.machine.trace) :
    a.recordedSince a' = [] := by
  rw [recordedSince, h, ← Array.length_toList, List.drop_length]

theorem recordedSince_of_trace_push {c : MemoryAccess}
    (h : a'.machine.trace = a.machine.trace.push c) : a.recordedSince a' = [c] := by
  rw [recordedSince, h, Array.toList_push, ← Array.length_toList, List.drop_left]

/-! ### The agreement -/

/-- The commands agree with the buffer and the loop register, and no entry outside the buffer is
selected. -/
structure Mirrors (hw : Hardware) (records : List MemoryAccess)
    (a : Assembler (Array MemoryAccess)) : Prop where
  hardware_eq : a.hardware = hw
  size_buffer : a.buffer.size = hw.bufferEntries
  next_le : ∀ next, a.mode = .staging next → next ≤ hw.bufferEntries
  entry : ∀ i < hw.bufferEntries,
    latest? records (hw.addressMap.registerFile .instrBuffer i) =
      (a.buffer[i]?.join).map fun e =>
        ⟨hw.addressMap.registerFile .instrBuffer i, .write, [e.word.toUInt64]⟩
  loop_initial : latest? records (hw.addressMap.registerFile .loopRegister 0) = none → a.loop = {}
  loop_latest : ∀ c, latest? records (hw.addressMap.registerFile .loopRegister 0) = some c →
    ∃ word, c.payload = [word] ∧ a.loop = .decode word

theorem mirrors_start (hw : Hardware) (streams : OperandStreams) :
    Mirrors hw [] (start hw streams #[]) where
  hardware_eq := rfl
  size_buffer := Array.size_replicate
  next_le := by rintro next ⟨⟩
  entry := by
    intro i hi
    simp [start, latest?, hi]
  loop_initial _ := rfl
  loop_latest := by simp [latest?]

namespace Mirrors

/-- A line that writes nothing. -/
theorem of_buffer_eq (h : Mirrors hw records a) (hhw : a'.hardware = a.hardware)
    (hbuffer : a'.buffer = a.buffer) (hloop : a'.loop = a.loop)
    (hnext : ∀ next, a'.mode = .staging next → next ≤ hw.bufferEntries) :
    Mirrors hw records a' where
  hardware_eq := by rw [hhw, h.hardware_eq]
  size_buffer := by rw [hbuffer, h.size_buffer]
  next_le := hnext
  entry := by rw [hbuffer]; exact h.entry
  loop_initial := by rw [hloop]; exact h.loop_initial
  loop_latest := by rw [hloop]; exact h.loop_latest

theorem unwritten (h : Mirrors hw records a) (htrace : a'.machine.trace = a.machine.trace)
    (hhw : a'.hardware = a.hardware) (hbuffer : a'.buffer = a.buffer) (hloop : a'.loop = a.loop)
    (hnext : ∀ next, a'.mode = .staging next → next ≤ hw.bufferEntries) :
    Mirrors hw (records ++ a.recordedSince a') a' := by
  rw [recordedSince_of_trace_eq htrace, List.append_nil]
  exact h.of_buffer_eq hhw hbuffer hloop hnext

section

variable (hvalid : hw.violation? = none)

include hvalid

/-- Staging writes the entry that it changes. -/
theorem entered {next : Nat} (h : Mirrors hw records a) (hnext : next < hw.bufferEntries)
    (i : Instruction) :
    Mirrors hw (records ++ [⟨hw.addressMap.registerFile .instrBuffer next, .write,
      [i.op.encode.toUInt64]⟩]) (a.entered number next i) := by
  have hloop : hw.addressMap.registerFile .instrBuffer next ≠
      hw.addressMap.registerFile .loopRegister 0 := by
    rw [ne_eq, Hardware.registerFile_eq_iff hvalid hnext (show 0 < 1 from Nat.one_pos)]
    rintro ⟨⟨⟩, -⟩
  refine ⟨h.hardware_eq, ?_, ?_, ?_, ?_, ?_⟩
  · exact Array.size_setIfInBounds.trans h.size_buffer
  · rintro _ ⟨⟩
    exact hnext
  · intro j hj
    show _ = ((a.buffer.setIfInBounds next (some (.ofInstruction i)))[j]?).join.map _
    by_cases hij : next = j
    · subst hij
      rw [Array.getElem?_setIfInBounds_self_of_lt (h.size_buffer ▸ hnext)]
      exact MemoryAccess.latest?_concat_self ..
    · rw [Array.getElem?_setIfInBounds_ne hij, ← h.entry j hj]
      apply MemoryAccess.latest?_concat_of_ne
      rw [ne_eq, Hardware.registerFile_eq_iff hvalid hnext hj]
      exact fun heq => hij heq.2
  · rw [MemoryAccess.latest?_concat_of_ne _ hloop]
    exact h.loop_initial
  · rw [MemoryAccess.latest?_concat_of_ne _ hloop]
    exact h.loop_latest

/-- A write of another register file is no command to the buffer. -/
theorem latest?_entry {file : RegisterFile} {index j : Nat} (hfile : file ≠ .instrBuffer)
    (hindex : index < hw.capacity file) (hj : j < hw.bufferEntries) (payload : List UInt64) :
    latest? (records ++ [⟨hw.addressMap.registerFile file index, .write, payload⟩])
        (hw.addressMap.registerFile .instrBuffer j) =
      latest? records (hw.addressMap.registerFile .instrBuffer j) := by
  apply MemoryAccess.latest?_concat_of_ne
  rw [ne_eq, Hardware.registerFile_eq_iff hvalid hindex hj]
  exact fun heq => hfile heq.1

/-- The loop register is written with the word that it is loaded from. -/
theorem loopWritten {word : UInt64} (h : Mirrors hw records a) (hhw : a'.hardware = a.hardware)
    (hbuffer : a'.buffer = a.buffer) (hmode : a'.mode = a.mode) (hloop : a'.loop = .decode word) :
    Mirrors hw (records ++ [⟨hw.addressMap.registerFile .loopRegister 0, .write, [word]⟩]) a' := by
  refine ⟨by rw [hhw, h.hardware_eq], by rw [hbuffer, h.size_buffer],
    by rw [hmode]; exact h.next_le, ?_, ?_, ?_⟩
  · intro j hj
    rw [latest?_entry hvalid (by rintro ⟨⟩) Nat.one_pos hj, hbuffer]
    exact h.entry j hj
  · rw [MemoryAccess.latest?_concat_self]
    rintro ⟨⟩
  · rw [MemoryAccess.latest?_concat_self]
    rintro c ⟨⟩
    exact ⟨word, rfl, hloop⟩

theorem loopLoaded (h : Mirrors hw records a) (notices : List Notice) (word : UInt64) :
    Mirrors hw (records ++ [⟨hw.addressMap.registerFile .loopRegister 0, .write, [word]⟩])
      (a.loopLoaded number notices word (.decode word)) := by
  obtain ⟨hhw, hbuffer, hmode, hloop, -⟩ :=
    loopLoaded_fields a number notices word (.decode word)
  exact h.loopWritten hvalid hhw hbuffer hmode hloop

/-- A write of a register file other than the buffer. -/
theorem loaded {file : RegisterFile} {index : Nat} {words : List UInt64} (h : Mirrors hw records a)
    (hfile : file ≠ .instrBuffer) (hindex : index < hw.capacity file)
    (hwords : words.length = file.entryWords) :
    Mirrors hw (records ++ [⟨hw.addressMap.registerFile file index, .write, words⟩])
      (a.loaded file index words) := by
  by_cases hloop : file = .loopRegister
  · subst hloop
    obtain ⟨word, rfl⟩ := List.length_eq_one_iff.mp hwords
    obtain rfl : index = 0 := Nat.lt_one_iff.mp hindex
    exact h.loopWritten hvalid rfl rfl rfl rfl
  · have hkept : (a.loaded file index words).loop = a.loop := if_neg hloop
    have hne : hw.addressMap.registerFile file index ≠
        hw.addressMap.registerFile .loopRegister 0 := by
      rw [ne_eq, Hardware.registerFile_eq_iff hvalid hindex (show 0 < 1 from Nat.one_pos)]
      exact fun heq => hloop heq.1
    refine ⟨h.hardware_eq, h.size_buffer, h.next_le, ?_, ?_, ?_⟩
    · intro j hj
      rw [latest?_entry hvalid hfile hindex hj]
      exact h.entry j hj
    · rw [hkept, MemoryAccess.latest?_concat_of_ne _ hne]
      exact h.loop_initial
    · rw [hkept, MemoryAccess.latest?_concat_of_ne _ hne]
      exact h.loop_latest

/-- A step other than an execution keeps the agreement. -/
theorem step {result : Except AssemblyError Unit} (h : Mirrors hw records a)
    (hstep : LineStep a number text a' result)
    (hexecute : Statement.ofLine number text ≠ .ok (some .execute)) :
    Mirrors hw (records ++ a.recordedSince a') a' := by
  obtain rfl := h.hardware_eq
  cases hstep with
  | unread | empty | refused | starved | mismatched =>
    exact h.unwritten rfl rfl rfl rfl h.next_le
  | selected _ hindex =>
    refine h.unwritten rfl rfl rfl rfl ?_
    rintro _ ⟨⟩
    exact Nat.le_of_lt hindex
  | staged _ _ hnext =>
    rw [recordedSince_of_trace_push rfl]
    exact h.entered hvalid hnext _
  | written _ hfile hindex hwords =>
    rw [recordedSince_of_trace_push rfl]
    exact h.loaded hvalid hfile hindex hwords
  | @supplied file index data words _ _ hfile hindex hwords =>
    have htaken : Mirrors a.hardware records (a.withData data) :=
      h.of_buffer_eq rfl rfl rfl h.next_le
    rw [recordedSince_of_trace_push rfl]
    exact htaken.loaded hvalid hfile hindex hwords
  | @looped loop =>
    rw [recordedSince_of_trace_push rfl]
    exact h.loopLoaded hvalid _ loop.encode
  | executed hline => exact absurd hline hexecute

/-- **A line keeps the agreement.** -/
theorem line (h : Mirrors hw records a) (number : Nat) (text : String) :
    Mirrors hw (records ++ a.writesBy number text) (a.line number text).1 := by
  by_cases hexecute : Statement.ofLine number text = .ok (some .execute)
  · obtain ⟨hhw, hbuffer, hloop, hmode⟩ := execute_keeps a number
    rw [writesBy, hexecute, List.append_nil, line_of_execute hexecute]
    refine h.of_buffer_eq hhw hbuffer hloop ?_
    intro next hnext
    rcases hmode with hmode | hmode
    · exact h.next_le next (hmode ▸ hnext)
    · rw [hmode] at hnext
      contradiction
  · rw [writesBy_of_ne_execute hexecute]
    exact h.step hvalid (lineStep a number text) hexecute

end

end Mirrors

/-- An entry is staged exactly if there is a command to its address. -/
theorem Mirrors.staged_iff (h : Mirrors hw records a) {i : Nat} (hi : i < hw.bufferEntries) :
    (∃ e, a.buffer[i]? = some (some e)) ↔
      ∃ c ∈ records, c.address = hw.addressMap.registerFile .instrBuffer i := by
  have hnone : a.buffer[i]?.join = none ↔
      ∀ c ∈ records, c.address ≠ hw.addressMap.registerFile .instrBuffer i := by
    rw [← MemoryAccess.latest?_eq_none_iff, h.entry i hi, Option.map_eq_none_iff]
  simp only [← Option.join_eq_some_iff, ← Option.isSome_iff_exists, Option.isSome_iff_ne_none,
    ne_eq, hnone, not_forall, not_not, exists_prop]

theorem Mirrors.latest?_of_staged (h : Mirrors hw records a) {i : Nat} {e : StagedEntry}
    (hi : i < hw.bufferEntries) (he : a.buffer[i]? = some (some e)) :
    latest? records (hw.addressMap.registerFile .instrBuffer i) =
      some ⟨hw.addressMap.registerFile .instrBuffer i, .write, [e.word.toUInt64]⟩ := by
  rw [h.entry i hi, he]
  rfl

theorem mirrors_feed (hvalid : hw.violation? = none) (h : Mirrors hw records a)
    (ls : List (Nat × String)) : Mirrors hw (records ++ a.writesFrom ls) (a.feed ls) := by
  induction ls generalizing a records with
  | nil =>
    rw [writesFrom, List.append_nil]
    exact h
  | cons l rest ih =>
    rw [writesFrom, ← List.append_assoc]
    exact ih (h.line hvalid l.1 l.2)

/-- **The trace mirrors the register files.** After any lines, failed ones among them, a memory that
took the commands of all lines but executions holds the instruction buffer and the loop register. -/
theorem feed_mirrored (hvalid : hw.violation? = none) (streams : OperandStreams)
    (ls : List (Nat × String)) :
    let a : Assembler (Array MemoryAccess) := (start hw streams #[]).feed ls
    let records := (start hw streams #[]).writesFrom ls
    (∀ i < hw.bufferEntries,
      ((∃ e, a.buffer[i]? = some (some e)) ↔
        ∃ c ∈ records, c.address = hw.addressMap.registerFile .instrBuffer i) ∧
      ∀ e, a.buffer[i]? = some (some e) →
        latest? records (hw.addressMap.registerFile .instrBuffer i) =
          some ⟨hw.addressMap.registerFile .instrBuffer i, .write, [e.word.toUInt64]⟩) ∧
    (latest? records (hw.addressMap.registerFile .loopRegister 0) = none → a.loop = {}) ∧
    (∀ c, latest? records (hw.addressMap.registerFile .loopRegister 0) = some c →
      ∃ word, c.payload = [word] ∧ a.loop = .decode word) ∧
    (∀ next, a.mode = .staging next → next ≤ hw.bufferEntries) ∧
    a.buffer.size = hw.bufferEntries := by
  intro a records
  have h : Mirrors hw records a := mirrors_feed hvalid (mirrors_start hw streams) ls
  refine ⟨?_, h.loop_initial, h.loop_latest, h.next_le, h.size_buffer⟩
  intro i hi
  exact ⟨h.staged_iff hi, fun e he => h.latest?_of_staged hi he⟩

/-- Entry 0 is staged twice and the loop register written twice, with an execution and two failed
lines in between. The latest writes are those of the state. -/
theorem feed_mirrored_restaged :
    ∃ ls : List (Nat × String), ls.map (·.2) = ["WRF IB0", "NOP", "VMV R9 R0", "LOOP 0 0 2", "EXEC",
        "LOOP 3 1 4", "WRF LR0 DataFile", "WRF IB0", "NOP EXIT"] ∧
      let a : Assembler (Array MemoryAccess) := (start {} (.ofText "0x1\n" "") #[]).feed ls
      let records := (start {} (.ofText "0x1\n" "") #[]).writesFrom ls
      a.machine.trace.size = 6 ∧ records.length = 4 ∧
      (∃ e, a.buffer[0]? = some (some e) ∧ e.instruction.op.opcode = .exit ∧
        latest? records (Address.Map.stock.registerFile .instrBuffer 0) =
          some ⟨Address.Map.stock.registerFile .instrBuffer 0, .write, [e.word.toUInt64]⟩) ∧
      ∃ c word, latest? records (Address.Map.stock.registerFile .loopRegister 0) = some c ∧
        c.payload = [word] ∧ a.loop = .decode word ∧ a.loop.iterations = 1 := by
  let ls : List (Nat × String) := [(1, "WRF IB0"), (2, "NOP"), (3, "VMV R9 R0"), (4, "LOOP 0 0 2"),
    (5, "EXEC"), (6, "LOOP 3 1 4"), (7, "WRF LR0 DataFile"), (8, "WRF IB0"), (9, "NOP EXIT")]
  obtain ⟨hentries, -, hloop, -⟩ := feed_mirrored
    (show Hardware.violation? {} = none by decide +kernel)
    (.ofText "0x1\n" "") ls
  have hstaged : (feed (start {} (.ofText "0x1\n" "") (#[] : Array MemoryAccess)) ls).buffer[0]? =
      some (some (.ofInstruction { op := .exit })) := by decide +kernel
  have hlatest : latest? ((start {} (.ofText "0x1\n" "") #[]).writesFrom ls)
      (Address.Map.stock.registerFile .loopRegister 0) =
        some ⟨Address.Map.stock.registerFile .loopRegister 0, .write, [1]⟩ := by decide +kernel
  obtain ⟨word, hword, hdecode⟩ := hloop _ hlatest
  refine ⟨ls, rfl, by decide +kernel, by decide +kernel,
    ⟨_, hstaged, rfl, (hentries 0 (by decide)).2 _ hstaged⟩,
    _, word, hlatest, hword, hdecode, by decide +kernel⟩

end Assembler

end NearMemory
