import NearMemory.Proofs.AcceptedLines
import NearMemory.Proofs.LineSteps
import NearMemory.Proofs.PassRun
import NearMemory.Proofs.StreamText

/-!
# Staged programs execute

An instruction that a line can say packs into a word that stands for it, so the buffer never holds a
word that packs nothing. An execution can fail for want of operands only.

The walk takes the opcode from the packed word and the operands from the instruction it was staged
from. The two belong together: whatever touches memory has an address of its own, and only the load
of a constant has data. So a command of an execution can be told from the visit it belongs to and
the address stream at that time.

## Main definitions

* `AssemblyError.OfStream` — the faults of taking an operand
* `Emits`, `EmitsInTurn` — the commands of visits, while the address stream moves on
* `InstrBuffer.SaidBy` — every entry holds an instruction that a line says

## Main results

* `Instruction.Written.operands` — operands go with the opcode
* `Machine.visit_emits`, `Machine.visitAll_emits` — what visits record, and how they fail
* `Assembler.saidBy_feed` — entries hold what lines say
* `Assembler.feed_executes` — staged programs execute
-/

namespace NearMemory

/-! ### Faults of streams -/

/-- The faults of taking an operand from a stream for a source line. -/
inductive AssemblyError.OfStream (line : Nat) : AssemblyError → Prop
  /-- There is no further record. -/
  | exhausted (kind : OperandKind) : OfStream line (.atLine line (.exhausted kind))
  /-- The record is not a single word. -/
  | recordWidth (kind : OperandKind) (record count : Nat) :
    OfStream line (.atLine line (.grammar (.recordWidth kind record count)))
  /-- The record has a word that is no number. -/
  | badRecord (kind : OperandKind) (streamLine : Nat) (token : String) :
    OfStream line (.badRecord kind streamLine token)
  /-- The stream is not encoded as text. -/
  | notText : OfStream line .notText

theorem AssemblyError.OfStream.ne_undecodable {line : Nat} {fault : AssemblyError}
    (h : fault.OfStream line) (number entry : Nat) (word : UInt32) :
    fault ≠ .atLine number (.grammar (.undecodable entry word)) := by
  cases h <;> rintro ⟨⟩

namespace OperandStream

variable {c next : OperandStream} {line : Nat} {fault : AssemblyError}

theorem ofStream_of_takeFrom {kind : OperandKind} {consumed streamLine : Nat}
    {ls : List StreamLine} (h : takeFrom kind consumed line streamLine ls = (next, .error fault)) :
    fault.OfStream line := by
  induction ls generalizing streamLine with
  | nil =>
    cases h
    exact .exhausted kind
  | cons l rest ih =>
    cases l with
    | notText =>
      cases h
      exact .notText
    | text cs =>
      rw [takeFrom] at h
      split at h
      · exact ih h
      · exact ih h
      · split at h
        · simp at h
        · cases h
          exact .badRecord ..

theorem ofStream_of_takeRecord (h : c.takeRecord line = (next, .error fault)) :
    fault.OfStream line :=
  ofStream_of_takeFrom h

theorem ofStream_of_takeWord (h : c.takeWord line = (next, .error fault)) :
    fault.OfStream line := by
  rw [takeWord] at h
  split at h
  next hrecord =>
    cases h
    exact ofStream_of_takeRecord hrecord
  next => simp at h
  next =>
    cases h
    exact .recordWidth ..

end OperandStream

/-! ### Operands of written instructions -/

/-- **Operands go with the opcode.** What touches memory has an address, and only the load of a
constant has data. -/
theorem Instruction.Written.operands {i : Instruction} (h : i.Written) :
    (i.op.opcode.access?.isSome → i.address.isSome) ∧ (i.op.opcode ≠ .glmv → i.data = none) := by
  cases h with
  | readRow | writeRow => exact ⟨fun _ => rfl, fun _ => rfl⟩
  | loadConstant => exact ⟨fun _ => rfl, fun hne => absurd rfl hne⟩
  | @arithmetic c hc =>
    refine ⟨?_, fun _ => rfl⟩
    intro haccess
    have hfamily := hc.opcode_family
    change c.opcode.access?.isSome at haccess
    generalize c.opcode = opcode at haccess hfamily
    cases opcode <;> contradiction
  | _ =>
    refine ⟨?_, fun _ => rfl⟩
    rintro ⟨⟩

/-- An entry as a walk sees it, of an instruction that a line can say. -/
structure DecodedEntry.Written (e : DecodedEntry) : Prop where
  opcode_eq : e.opcode = e.instruction.op.opcode
  instruction : e.instruction.Written

/-! ### Commands of visits -/

/-- The command of a visit, while the address stream goes from one state to the next. -/
inductive Emits (line : Nat) :
    OperandStream → DecodedEntry → MemoryAccess → OperandStream → Prop
  /-- A memory access goes to the address that it states. -/
  | literal {s : OperandStream} {e : DecodedEntry} {address : UInt64} {direction : Direction}
    {payload : List UInt64} (haccess : e.opcode.access? = some direction)
    (haddress : e.instruction.address = some (.literal address))
    (hpayload : e.opcode ≠ .glmv → payload = []) : Emits line s e ⟨address, direction, payload⟩ s
  /-- A memory access goes to the next address of the stream. -/
  | stream {s s' : OperandStream} {e : DecodedEntry} {address : UInt64} {direction : Direction}
    {payload : List UInt64} (haccess : e.opcode.access? = some direction)
    (haddress : e.instruction.address = some .stream)
    (htake : s.takeWord line = (s', .ok address))
    (hpayload : e.opcode ≠ .glmv → payload = []) : Emits line s e ⟨address, direction, payload⟩ s'
  /-- An operation that does not touch memory carries nothing. -/
  | idle {s : OperandStream} {e : DecodedEntry} {c : MemoryAccess}
    (haccess : e.opcode.access? = none) (hpayload : c.payload = []) : Emits line s e c s

/-- The commands of visits in turn. -/
inductive EmitsInTurn (line : Nat) :
    OperandStream → List (DecodedEntry × MemoryAccess) → OperandStream → Prop
  /-- No visits. -/
  | nil (s : OperandStream) : EmitsInTurn line s [] s
  /-- One visit, and the others after it. -/
  | cons {s s₁ s₂ : OperandStream} {e : DecodedEntry} {c : MemoryAccess}
    {rest : List (DecodedEntry × MemoryAccess)} (h : Emits line s e c s₁)
    (hrest : EmitsInTurn line s₁ rest s₂) : EmitsInTurn line s ((e, c) :: rest) s₂

namespace Machine

variable {σ : Type} {hw : Hardware} {line : Nat} {e : DecodedEntry}

/-- Data are taken without a trace, and there are none without an operand. -/
theorem payload_cases (line : Nat) (operand : Option DataOperand) (m : Machine σ) :
    ∃ m' result, m.payload line operand = (m', result) ∧ m'.trace = m.trace ∧
      m'.streams.addresses = m.streams.addresses ∧
      (∀ fault, result = .error fault → fault.OfStream line) ∧
      (operand = none → result = .ok []) := by
  match operand with
  | none => exact ⟨m, .ok [], rfl, rfl, rfl, by rintro _ ⟨⟩, fun _ => rfl⟩
  | some (.literal words) => exact ⟨m, .ok words, rfl, rfl, rfl, by rintro _ ⟨⟩, by rintro ⟨⟩⟩
  | some .stream =>
    cases htake : m.streams.data.takeRecord line with
    | mk data result =>
      refine ⟨m.withData data, result, by rw [payload, htake], rfl, rfl, ?_, by rintro ⟨⟩⟩
      rintro fault rfl
      exact OperandStream.ofStream_of_takeRecord htake

/-- Where the command goes is decided by the entry and the address stream. -/
theorem locate_emits (he : e.Written) (hw : Hardware) (line : Nat) (m : Machine σ) :
    ∃ m' result, m.locate hw line e.opcode e.instruction.address = (m', result) ∧
      m'.trace = m.trace ∧ (∀ fault, result = .error fault → fault.OfStream line) ∧
      ∀ address direction payload, result = .ok (address, direction) →
        (e.opcode ≠ .glmv → payload = []) →
        Emits line m.streams.addresses e ⟨address, direction, payload⟩ m'.streams.addresses := by
  cases haccess : e.opcode.access? with
  | none =>
    have hne : e.opcode ≠ .glmv := by
      intro heq
      rw [heq] at haccess
      contradiction
    rw [locate, haccess]
    refine ⟨m, _, rfl, rfl, by rintro _ ⟨⟩, ?_⟩
    intro address direction payload _ hpayload
    exact .idle haccess (hpayload hne)
  | some direction =>
    obtain ⟨operand, haddress⟩ : ∃ operand, e.instruction.address = some operand := by
      refine Option.isSome_iff_exists.mp (he.instruction.operands.1 ?_)
      rw [← he.opcode_eq, haccess]
      rfl
    rw [locate, haccess, haddress]
    cases operand with
    | literal address =>
      refine ⟨_, _, rfl, rfl, by rintro _ ⟨⟩, ?_⟩
      rintro _ _ payload ⟨⟩ hpayload
      exact .literal haccess haddress hpayload
    | stream =>
      cases htake : m.streams.addresses.takeWord line with
      | mk addresses result =>
        dsimp only [accessAddress]
        rw [htake]
        cases result with
        | error fault =>
          refine ⟨_, _, rfl, rfl, ?_, by rintro _ _ _ ⟨⟩⟩
          rintro _ ⟨⟩
          exact OperandStream.ofStream_of_takeWord htake
        | ok address =>
          refine ⟨_, _, rfl, rfl, by rintro _ ⟨⟩, ?_⟩
          rintro _ _ payload ⟨⟩ hpayload
          exact .stream haccess haddress htake hpayload

/-- **One visit.** It fails for want of an operand, or it gives the command of the entry. -/
theorem visit_emits (he : e.Written) (hw : Hardware) (line : Nat) (m : Machine σ) :
    ∃ m' result, m.visit hw line e.opcode e.instruction = (m', result) ∧ m'.trace = m.trace ∧
      (∀ fault, result = .error fault → fault.OfStream line) ∧
      ∀ c, result = .ok c → Emits line m.streams.addresses e c m'.streams.addresses := by
  obtain ⟨m₁, located, hlocate, htrace₁, hfault₁, hemits⟩ := locate_emits he hw line m
  rw [visit, hlocate]
  cases located with
  | error fault =>
    refine ⟨m₁, .error fault, rfl, htrace₁, ?_, by rintro _ ⟨⟩⟩
    rintro _ ⟨⟩
    exact hfault₁ fault rfl
  | ok place =>
    obtain ⟨address, direction⟩ := place
    obtain ⟨m₂, words, hpayload, htrace₂, haddresses, hfault₂, hnone⟩ :=
      payload_cases line e.instruction.data m₁
    dsimp only
    rw [hpayload]
    cases words with
    | error fault =>
      refine ⟨m₂, .error fault, rfl, htrace₂.trans htrace₁, ?_, by rintro _ ⟨⟩⟩
      rintro _ ⟨⟩
      exact hfault₂ fault rfl
    | ok words =>
      refine ⟨m₂, .ok ⟨address, direction, words⟩, rfl, htrace₂.trans htrace₁, by rintro _ ⟨⟩, ?_⟩
      rintro _ ⟨⟩
      rw [haddresses]
      refine hemits address direction words rfl ?_
      intro hne
      have hdata := he.instruction.operands.2 (he.opcode_eq ▸ hne)
      exact Except.ok.inj (hnone hdata)

/-- **Visits in turn.** Those that are made have commands of their own, the address stream moves on
from one to the next, and only an operand that cannot be taken ends them early. -/
theorem visitAll_emits [Recorder σ] {entries : List DecodedEntry} (h : ∀ e ∈ entries, e.Written)
    (hw : Hardware) (line count : Nat) (m : Machine σ) :
    ∃ executed rest next m' result, m.visitAll hw line entries count = (m', result) ∧
      entries = executed.map (·.1) ++ rest ∧
      m'.trace = (executed.map (·.2)).foldl Recorder.record m.trace ∧
      EmitsInTurn line m.streams.addresses executed next ∧
      (∀ fault, result = .error fault → fault.OfStream line) ∧
      ∀ n, result = .ok n → rest = [] ∧ m'.streams.addresses = next := by
  induction entries generalizing m count with
  | nil =>
    refine ⟨[], [], _, m, .ok count, rfl, rfl, rfl, .nil _, by rintro _ ⟨⟩, ?_⟩
    exact fun _ _ => ⟨rfl, rfl⟩
  | cons e entries ih =>
    obtain ⟨m₁, visited, hvisit, htrace, hfault, hemits⟩ :=
      visit_emits (h e (List.mem_cons_self ..)) hw line m
    rw [visitAll, hvisit]
    cases visited with
    | error fault =>
      refine ⟨[], e :: entries, _, m₁, .error fault, rfl, rfl, htrace, .nil _, ?_, by rintro _ ⟨⟩⟩
      rintro _ ⟨⟩
      exact hfault fault rfl
    | ok c =>
      obtain ⟨executed, rest, next, m', result, hall, rfl, htrace', hturn, hresult⟩ :=
        ih (fun e' he' => h e' (List.mem_cons_of_mem e he')) (count + 1) (m₁.record c)
      refine ⟨(e, c) :: executed, rest, next, m', result, hall, rfl, ?_, ?_, hresult⟩
      · rw [htrace', record, htrace]
        rfl
      · exact .cons (hemits c rfl) hturn

end Machine

/-! ### Entries that lines say -/

/-- Every entry holds an instruction that one of the lines says. -/
def InstrBuffer.SaidBy (buffer : InstrBuffer) (ls : List (Nat × String)) : Prop :=
  ∀ slot ∈ buffer, ∀ entry ∈ slot, ∃ i, entry = .ofInstruction i ∧
    ∃ l ∈ ls, Statement.ofLine l.1 l.2 = .ok (some (.instruction i))

theorem Instruction.written_of_ofLine {number : Nat} {text : String} {i : Instruction}
    (h : Statement.ofLine number text = .ok (some (.instruction i))) : i.Written := by
  cases Statement.written_of_ofLine h with
  | instruction hi => exact hi

namespace InstrBuffer.SaidBy

variable {buffer : InstrBuffer} {ls : List (Nat × String)}

theorem setIfInBounds (h : buffer.SaidBy ls) {l : Nat × String} (hl : l ∈ ls) {i : Instruction}
    (hi : Statement.ofLine l.1 l.2 = .ok (some (.instruction i))) (next : Nat) :
    InstrBuffer.SaidBy (buffer.setIfInBounds next (some (.ofInstruction i))) ls := by
  intro slot hslot entry hentry
  rcases Array.mem_or_eq_of_mem_setIfInBounds hslot with hmem | rfl
  · exact h slot hmem entry hentry
  · obtain rfl := Option.some.inj hentry
    exact ⟨i, rfl, l, hl, hi⟩

/-- The word of an entry stands for the instruction that was said. -/
theorem decode? (h : buffer.SaidBy ls) {slot : Option StagedEntry} (hslot : slot ∈ buffer)
    {entry : StagedEntry} (hentry : entry ∈ slot) :
    entry.instruction.Written ∧
      Operation.decode? entry.word = some entry.instruction.op.asPacked := by
  obtain ⟨i, rfl, l, -, hl⟩ := h slot hslot entry hentry
  have hwritten := Instruction.written_of_ofLine hl
  exact ⟨hwritten, Operation.decode?_encode hwritten.legal⟩

theorem decodes (h : buffer.SaidBy ls) : buffer.Decodes := by
  intro slot hslot entry hentry
  rw [(h.decode? hslot hentry).2]
  rfl

theorem written_entryAt? (h : buffer.SaidBy ls) {hw : Hardware} {pc : Nat} {e : DecodedEntry}
    (he : Machine.entryAt? hw buffer pc = some e) : e.Written := by
  obtain ⟨entry, op, hfetch, hop, rfl⟩ := Machine.exists_of_entryAt? he
  obtain ⟨hwritten, hdecode⟩ := h.decode? (Machine.mem_of_fetch? hfetch) rfl
  obtain rfl := Option.some.inj (hop.symm.trans hdecode)
  exact ⟨Operation.opcode_asPacked _, hwritten⟩

end InstrBuffer.SaidBy

namespace Assembler

variable {σ : Type} {ls : List (Nat × String)}

/-- **Entries hold what lines say.** -/
theorem saidBy_feed [Recorder σ] (hw : Hardware) (streams : OperandStreams) (trace : σ)
    (ls : List (Nat × String)) : ((start hw streams trace).feed ls).buffer.SaidBy ls := by
  refine feed_induction (P := fun a => a.buffer.SaidBy ls) ?_ ?_
  · intro slot hslot entry hentry
    obtain rfl := (Array.mem_replicate.mp hslot).2
    contradiction
  · intro l hl a a' result hsaid hstep
    rcases hstep.buffer_cases with heq | ⟨i, next, hi, heq⟩
    · exact heq ▸ hsaid
    · exact heq ▸ hsaid.setIfInBounds hl hi next

theorem written_of_mem_visits {a : Assembler σ} (h : a.buffer.SaidBy ls) :
    ∀ e ∈ a.visits, e.Written := by
  intro e he
  obtain ⟨pc, -, hpc⟩ := List.mem_filterMap.mp he
  exact h.written_entryAt? hpc

/-- An execution of the buffer is visits along its program counters. -/
theorem execute_emits {a : Assembler (Array MemoryAccess)} (h : a.buffer.SaidBy ls) (number : Nat) :
    ∃ executed rest next, a.visits = executed.map (·.1) ++ rest ∧
      (a.execute number).1.machine.trace.toList =
        a.machine.trace.toList ++ executed.map (·.2) ∧
      EmitsInTurn number a.machine.streams.addresses executed next ∧
      (∀ fault, (a.execute number).2 = .error fault → fault.OfStream number) ∧
      ((a.execute number).2 = .ok () →
        rest = [] ∧ (a.execute number).1.machine.streams.addresses = next) := by
  obtain ⟨executed, rest, next, m', result, hall, hvisits, htrace, hturn, hfault, hok⟩ :=
    Machine.visitAll_emits (written_of_mem_visits h) a.hardware number 0 a.machine
  have hexecute : a.machine.execute a.hardware a.buffer a.loop number = (m', result) :=
    (Machine.execute_eq_visitAll h.decodes number a.machine).trans hall
  obtain ⟨hmachine, hresult⟩ := machine_execute a number
  rw [hexecute] at hmachine hresult
  rw [hmachine, hresult]
  refine ⟨executed, rest, next, hvisits, ?_, hturn, ?_, ?_⟩
  · rw [htrace, toList_foldl_push]
  · intro fault heq
    cases result with
    | error fault' => exact hfault fault (congrArg _ (Except.error.inj heq))
    | ok n => contradiction
  · intro heq
    cases result with
    | error fault => contradiction
    | ok n => exact hok n rfl

/-- With enough operands in the streams, an execution succeeds. -/
theorem execute_of_fed {a : Assembler (Array MemoryAccess)} (h : a.buffer.Decodes)
    {addresses : List UInt64} {data : List (List UInt64)} (hfed : a.machine.Fed addresses data)
    (haddresses : addresses.length = a.visits.countP (·.takesAddress))
    (hdata : data.length = a.visits.countP (·.takesData)) (number : Nat) :
    (a.execute number).2 = .ok () := by
  rw [← List.append_nil addresses, ← List.append_nil data] at hfed
  obtain ⟨m', -, hall, -⟩ :=
    Machine.visitAll_of_fed hfed haddresses hdata a.hardware number 0
  rw [(machine_execute a number).2, Machine.execute_eq_visitAll h]
  exact congrArg (fun run => run.2.map fun _ => ()) hall

/-- **Staged programs execute.** After any lines, failed ones among them, every entry holds an
instruction that one of the lines says, and its word stands for it. So an execution fails for want
of operands only, and never where the streams have them. Its commands are those of its visits, in
turn: a memory access goes where its own operand says, in the direction of its opcode, and nothing
but the load of a constant carries data. -/
theorem feed_executes (hw : Hardware) (streams : OperandStreams) (ls : List (Nat × String)) :
    let a : Assembler (Array MemoryAccess) := (start hw streams #[]).feed ls
    (∀ slot ∈ a.buffer, ∀ entry ∈ slot,
      (∃ l ∈ ls, Statement.ofLine l.1 l.2 = .ok (some (.instruction entry.instruction))) ∧
      Operation.decode? entry.word = some entry.instruction.op.asPacked ∧
      entry.instruction.op.asPacked.opcode = entry.instruction.op.opcode) ∧
    (∀ e ∈ a.visits, e.opcode = e.instruction.op.opcode) ∧
    ∀ number text, Statement.ofLine number text = .ok (some .execute) →
      let run := a.line number text
      (∀ fault, run.2 = .error fault → fault.OfStream number ∧
        ∀ line entry word, fault ≠ .atLine line (.grammar (.undecodable entry word))) ∧
      (∀ addresses data, a.machine.Fed addresses data →
        addresses.length = a.visits.countP (·.takesAddress) →
        data.length = a.visits.countP (·.takesData) → run.2 = .ok ()) ∧
      ∃ executed rest next, a.visits = executed.map (·.1) ++ rest ∧
        run.1.machine.trace.toList = a.machine.trace.toList ++ executed.map (·.2) ∧
        EmitsInTurn number a.machine.streams.addresses executed next ∧
        (run.2 = .ok () → rest = [] ∧ run.1.machine.streams.addresses = next) := by
  intro a
  have hsaid : a.buffer.SaidBy ls := saidBy_feed hw streams #[] ls
  refine ⟨?_, ?_, ?_⟩
  · intro slot hslot entry hentry
    have hdecode := (hsaid.decode? hslot hentry).2
    obtain ⟨i, rfl, hline⟩ := hsaid slot hslot entry hentry
    exact ⟨hline, hdecode, Operation.opcode_asPacked _⟩
  · intro e he
    exact (written_of_mem_visits hsaid e he).opcode_eq
  · intro number text hexecute run
    have hrun : run = a.execute number := line_of_execute hexecute
    obtain ⟨executed, rest, next, hvisits, htrace, hturn, hfault, hok⟩ := execute_emits hsaid number
    rw [← hrun] at htrace hfault hok
    refine ⟨?_, ?_, executed, rest, next, hvisits, htrace, hturn, hok⟩
    · intro fault heq
      exact ⟨hfault fault heq, (hfault fault heq).ne_undecodable⟩
    · intro addresses data hfed haddresses hdata
      rw [hrun]
      exact execute_of_fed hsaid.decodes hfed haddresses hdata number

/-- A row read, a word index that is cut, a constant at an address of its own and a row write, in
two passes. With three addresses the last of eight visits is left; with four all are made. -/
theorem feed_executes_two_passes :
    ∃ ls : List (Nat × String), ls.map (·.2) = ["WRF IB0", "RLB VWR_0 AddrFile", "VMV R9 R0",
        "VMV R1 VWR_1[99]", "GLMV CSD_20 0x40 0x7", "WLB VWR_1 AddrFile", "LOOP 0 3 2"] ∧
      (let a : Assembler (Array MemoryAccess) :=
        (start {} (.ofText "" "0x100\n0x200\n0x300\n") #[]).feed ls
      (∃ entry, some entry ∈ a.buffer ∧ entry.instruction.op.asPacked ≠ entry.instruction.op ∧
        Operation.decode? entry.word = some entry.instruction.op.asPacked) ∧
      (∃ fault, (a.line 8 "EXEC").2 = .error fault ∧ fault.OfStream 8) ∧
      ∃ executed rest next, a.visits = executed.map (·.1) ++ rest ∧ rest.length = 1 ∧
        executed.map (·.2.address) = [0x100, 0x100, 0x40, 0x200, 0x300, 0x300, 0x40] ∧
        EmitsInTurn 8 a.machine.streams.addresses executed next) ∧
      (((start {} (.ofText "" (addressesText [1, 2, 3, 4]))
        (#[] : Array MemoryAccess)).feed ls).line 8 "EXEC").2 = .ok () := by
  let ls : List (Nat × String) := [(1, "WRF IB0"), (2, "RLB VWR_0 AddrFile"), (3, "VMV R9 R0"),
    (4, "VMV R1 VWR_1[99]"), (5, "GLMV CSD_20 0x40 0x7"), (6, "WLB VWR_1 AddrFile"),
    (7, "LOOP 0 3 2")]
  have hline : Statement.ofLine 8 "EXEC" = .ok (some .execute) := by decide +kernel
  refine ⟨ls, rfl, ?_, ?_⟩
  · intro a
    obtain ⟨hentries, -, hexecutes⟩ := feed_executes {} (.ofText "" "0x100\n0x200\n0x300\n") ls
    obtain ⟨hfault, -, executed, rest, next, hvisits, htrace, hturn, -⟩ := hexecutes 8 "EXEC" hline
    have hstaged : some (.ofInstruction { op := .move ⟨.vmv, 99, .r1, .vwr 1⟩ }) ∈ a.buffer := by
      decide +kernel
    have hexhausted : (a.line 8 "EXEC").2 = .error (.atLine 8 (.exhausted .address)) := by
      decide +kernel
    have hcommands : ((a.line 8 "EXEC").1.machine.trace.toList.map (·.address)) =
        a.machine.trace.toList.map (·.address) ++
          [0x100, 0x100, 0x40, 0x200, 0x300, 0x300, 0x40] := by decide +kernel
    have haddresses : executed.map (·.2.address) =
        [0x100, 0x100, 0x40, 0x200, 0x300, 0x300, 0x40] := by
      rw [htrace, List.map_append, List.map_map] at hcommands
      exact List.append_cancel_left hcommands
    have hlength : a.visits.length = 8 := by decide +kernel
    refine ⟨⟨_, hstaged, by decide, (hentries _ hstaged _ rfl).2.1⟩,
      ⟨_, hexhausted, (hfault _ hexhausted).1⟩,
      executed, rest, next, hvisits, ?_, haddresses, hturn⟩
    have hexecuted : executed.length = 7 := by simpa using congrArg List.length haddresses
    have htotal := congrArg List.length hvisits
    rw [hlength, List.length_append, List.length_map, hexecuted] at htotal
    omega
  · obtain ⟨-, -, hexecutes⟩ := feed_executes {} (.ofText "" (addressesText [1, 2, 3, 4])) ls
    obtain ⟨-, hfed, -⟩ := hexecutes 8 "EXEC" hline
    have hkept : (feed (start {} (.ofText "" (addressesText [1, 2, 3, 4]))
        (#[] : Array MemoryAccess)) ls).machine.streams.addresses =
          .ofText .address (addressesText [1, 2, 3, 4]) := by decide +kernel
    refine hfed [1, 2, 3, 4] [] ⟨?_, trivial⟩ (by decide +kernel) (by decide +kernel)
    rw [hkept]
    exact OperandStream.supplies_addressesText [1, 2, 3, 4] .address

end Assembler

end NearMemory
