import NearMemory.Proofs.AssemblerRun
import NearMemory.Proofs.HardwareLimits
import NearMemory.Proofs.PackedWord

/-!
# The run of a pass

The lines of a pass stage its body and an exit marker, set the loop register, and execute the buffer
some times. Every execution visits the body once for each pass of the loop and then the exit marker,
so with the operands of all these visits in the streams the lines succeed, and they take exactly
these operands.

Entries that an earlier, longer body has left behind the exit marker stay in the buffer. No walk
gets there; all that has to be known of them is that they decode.

## Main definitions

* `InstrBuffer.Holds` — the first entries of the buffer
* `Assembler.Ready` — the assembler between two passes

## Main results

* `Assembler.visits_eq` — what an execution of a looped body visits
* `Assembler.ran_pass` — the lines of a pass
-/

namespace NearMemory

/-! ### Instructions of bodies -/

/-- What a walk sees of a staged instruction. -/
def DecodedEntry.ofInstruction (i : Instruction) : DecodedEntry := ⟨i.op.opcode, i⟩

/-- The instruction takes an address if and only if it touches memory, and data if and only if it
loads a constant. -/
structure Instruction.TakesByOpcode (i : Instruction) : Prop where
  readsAddress_eq : i.readsAddress = i.op.opcode.access?.isSome
  readsData_eq : i.readsData = (i.op.opcode == .glmv)

theorem takesByOpcode_exit : Instruction.TakesByOpcode { op := .exit } := ⟨rfl, rfl⟩

namespace BodyInstruction

variable {hw : Hardware} {i : Instruction}

theorem written (h : BodyInstruction hw i) : i.Written := by
  cases h with
  | constantLoad hk => exact .loadConstant _ _ DataOperand.written_stream
  | rowRead hv => exact .readRow hv _
  | rowWrite hv => exact .writeRow hv _
  | multiply hwidth hv hword hk =>
    exact .arithmetic ⟨rfl, hwidth, hv, hv, nofun, nofun, nofun⟩
  | wait => exact .nop
  | swapHalves hv => exact .permute hv _
  | fold hop =>
    cases hop with
    | loadWord hreg hv hword =>
      have hplain : ∀ reg ∈ [Storage.r0, .r1, .r2], reg.isVwr = false ∧ reg ≠ .r1r2 := by decide
      exact .loadWord (hplain _ hreg).1 (hplain _ hreg).2 hv _
    | storeWord hv hword => exact .storeWord rfl (by decide) hv _
    | addPair hwidth => exact .arithmetic ⟨rfl, hwidth, trivial, trivial, fun _ => rfl,
        fun _ => rfl, fun _ => rfl⟩
    | packInto hoffset hv hword => exact .pack _ _ _ hv

theorem takesByOpcode (h : BodyInstruction hw i) : i.TakesByOpcode := by
  cases h with
  | fold hop => cases hop <;> exact ⟨rfl, rfl⟩
  | _ => exact ⟨rfl, rfl⟩

theorem opcode_ne_exit (h : BodyInstruction hw i) : i.op.opcode ≠ .exit := by
  cases h with
  | fold hop => cases hop <;> exact nofun
  | _ => exact nofun

end BodyInstruction

/-! ### The buffer -/

namespace InstrBuffer

/-- The first entries of the buffer are staged from these instructions. -/
def Holds (buffer : InstrBuffer) (is : List Instruction) : Prop :=
  ∀ (k : Nat) (i : Instruction), is[k]? = some i →
    buffer[k]? = some (some (StagedEntry.ofInstruction i))

theorem Holds.nil (buffer : InstrBuffer) : buffer.Holds [] := by
  intro k i h
  simp at h

/-- Staging the next instruction. -/
theorem Holds.push {buffer : InstrBuffer} {is : List Instruction} (h : buffer.Holds is)
    (hlt : is.length < buffer.size) (i : Instruction) :
    Holds (buffer.setIfInBounds is.length (some (.ofInstruction i))) (is ++ [i]) := by
  intro k j hj
  rw [Array.getElem?_setIfInBounds]
  rcases Nat.lt_trichotomy k is.length with hk | rfl | hk
  · rw [if_neg (Nat.ne_of_gt hk)]
    rw [List.getElem?_append_left hk] at hj
    exact h k j hj
  · rw [if_pos rfl, if_pos hlt]
    rw [List.getElem?_concat_length] at hj
    rw [Option.some.inj hj]
  · rw [List.getElem?_eq_none (by rw [List.length_append, List.length_singleton]; omega)] at hj
    exact absurd hj (Option.some_ne_none j).symm

theorem Decodes.setIfInBounds {buffer : InstrBuffer} (h : buffer.Decodes) {i : Instruction}
    (hi : i.op.Legal) (k : Nat) :
    Decodes (buffer.setIfInBounds k (some (.ofInstruction i))) := by
  intro slot hslot entry hentry
  rcases Array.mem_or_eq_of_mem_setIfInBounds hslot with hmem | rfl
  · exact h slot hmem entry hentry
  · obtain rfl := Option.some.inj hentry
    rw [StagedEntry.ofInstruction, Operation.decode?_encode hi]
    rfl

theorem decodes_replicate (n : Nat) : Decodes (Array.replicate n none) := by
  intro slot hslot entry hentry
  obtain rfl := (Array.mem_replicate.mp hslot).2
  simp at hentry

end InstrBuffer

/-! ### What an execution visits -/

namespace Machine

variable {hw : Hardware} {buffer : InstrBuffer} {is body : List Instruction} {exit : Instruction}

theorem entryAt?_of_holds (hholds : buffer.Holds is) (hsize : buffer.size = hw.bufferEntries)
    (hlegal : ∀ i ∈ is, i.op.Legal) {k : Nat} {i : Instruction} (hk : is[k]? = some i) :
    entryAt? hw buffer k = some (.ofInstruction i) := by
  have hget := hholds k i hk
  have hlt : k < reach hw buffer := by
    obtain ⟨hlt, -⟩ := Array.getElem?_eq_some_iff.mp hget
    rw [reach, ← hsize, Nat.min_self]
    exact hlt
  have hfetch : fetch? hw buffer k = some (.ofInstruction i) := by
    rw [fetch?, if_pos hlt, hget, Option.join_some]
  have hdecode := Operation.decode?_encode (hlegal i (List.mem_of_getElem? hk))
  rw [entryAt?_of_decode? hfetch hdecode, Operation.opcode_asPacked]
  rfl

/-- A body and an exit marker are the straight line. -/
theorem straightLength_of_entryAt? {length : Nat} {e : DecodedEntry}
    (hbody : ∀ k < length, ∃ e, entryAt? hw buffer k = some e ∧ e.opcode ≠ .exit)
    (hexit : entryAt? hw buffer length = some e) (he : e.opcode = .exit) :
    straightLength hw buffer = length + 1 := by
  have hsome : ∀ k ≤ length, entryAt? hw buffer k ≠ none := by
    intro k hk hnone
    rcases Nat.lt_or_eq_of_le hk with hk | rfl
    · obtain ⟨e', he', -⟩ := hbody k hk
      rw [hnone] at he'
      exact absurd he' (Option.some_ne_none e').symm
    · rw [hnone] at hexit
      exact absurd hexit (Option.some_ne_none e).symm
  rcases Nat.lt_trichotomy (straightLength hw buffer) (length + 1) with hlt | heq | hgt
  · -- A shorter line would stop behind an instruction of the body, at a gap.
    rcases Nat.eq_zero_or_pos (straightLength hw buffer) with hzero | hpos
    · exact absurd (entryAt?_zero hzero) (hsome 0 (Nat.zero_le _))
    · obtain ⟨e', he', hne⟩ := hbody (straightLength hw buffer - 1) (by omega)
      exact absurd (entryAt?_straightLength (by omega) he' hne) (hsome _ (by omega))
  · exact heq
  · exact absurd he (ne_exit_of_lt hgt hexit)

end Machine

theorem filterMap_range_getElem? {α β : Type} {f : Nat → Option β} {g : α → β} {xs : List α}
    (h : ∀ k x, xs[k]? = some x → f k = some (g x)) :
    (List.range xs.length).filterMap f = xs.map g := by
  have hsome : ∀ k ∈ List.range xs.length, ∃ x, xs[k]? = some x ∧ f k = some (g x) := by
    intro k hk
    have hget := List.getElem?_eq_getElem (List.mem_range.mp hk)
    exact ⟨_, hget, h k _ hget⟩
  have hmap : (List.range xs.length).map f = (xs.map g).map some := by
    refine List.ext_getElem (by simp) fun k hk _ => ?_
    have hlt : k < xs.length := by simpa using hk
    simp [h k _ (List.getElem?_eq_getElem hlt)]
  rw [Machine.map_eq_map_some_filterMap fun k hk => by
    obtain ⟨x, -, hx⟩ := hsome k hk
    rw [hx, Option.isSome_some]] at hmap
  exact (List.map_inj_right fun _ _ => Option.some.inj).mp hmap

namespace Assembler

/-- **The visits of a looped body:** the body once for each pass, then the exit marker. -/
theorem visits_eq {σ : Type} {a : Assembler σ} {body : List Instruction} {exit : Instruction}
    {iterations : Nat} (hdec : a.buffer.Decodes)
    (hsize : a.buffer.size = a.hardware.bufferEntries)
    (hholds : a.buffer.Holds (body ++ [exit])) (hlegal : ∀ i ∈ body ++ [exit], i.op.Legal)
    (hbody : ∀ i ∈ body, i.op.opcode ≠ .exit) (hexit : exit.op.opcode = .exit)
    (hpos : 0 < body.length) (hloop : a.loop = ⟨0, body.length - 1, iterations⟩)
    (hiterations : 0 < iterations) :
    a.visits = (List.replicate iterations (body.map .ofInstruction)).flatten
      ++ [.ofInstruction exit] := by
  have hentry : ∀ (k : Nat) (i : Instruction), (body ++ [exit])[k]? = some i →
      Machine.entryAt? a.hardware a.buffer k = some (.ofInstruction i) := fun k i hk =>
    Machine.entryAt?_of_holds hholds hsize hlegal hk
  have hbodyEntry : ∀ (k : Nat) (i : Instruction), body[k]? = some i →
      Machine.entryAt? a.hardware a.buffer k = some (.ofInstruction i) := by
    intro k i hk
    obtain ⟨hlt, -⟩ := List.getElem?_eq_some_iff.mp hk
    exact hentry k i (by rw [List.getElem?_append_left hlt, hk])
  have hexitEntry := hentry body.length exit (List.getElem?_concat_length ..)
  have hstraight : Machine.straightLength a.hardware a.buffer = body.length + 1 := by
    refine Machine.straightLength_of_entryAt? (fun k hk => ?_) hexitEntry hexit
    exact ⟨_, hbodyEntry k _ (List.getElem?_eq_getElem hk), hbody _ (List.getElem_mem hk)⟩
  have hlast : body.length - 1 < body.length := by omega
  have hloops : Machine.LoopsBack a.hardware a.buffer a.loop := by
    rw [hloop]
    refine ⟨Nat.zero_le _, ?_, ?_, hiterations⟩
    · rw [hstraight]
      exact Nat.lt_succ_of_lt hlast
    · rw [hbodyEntry _ _ (List.getElem?_eq_getElem hlast), Option.map_some]
      exact fun h => hbody _ (List.getElem_mem hlast) (Option.some.inj h)
  have horder : Machine.programCounters a.hardware a.buffer a.loop =
      (List.replicate iterations (List.range body.length)).flatten ++ [body.length] := by
    obtain ⟨n, rfl⟩ : ∃ n, iterations = n + 1 := ⟨iterations - 1, by omega⟩
    rw [Machine.programCounters_eq_visitOrder hdec, Machine.visitOrder, if_pos hloops, hstraight,
      hloop]
    simp only [Nat.sub_add_cancel hpos, Nat.add_sub_cancel, Nat.sub_zero, ← List.range_eq_range',
      Nat.add_sub_cancel_left, List.range'_one, List.replicate_succ, List.flatten_cons]
  rw [visits, horder, List.filterMap_append, List.filterMap_flatten, List.map_replicate,
    filterMap_range_getElem? hbodyEntry, List.filterMap_cons_some hexitEntry, List.filterMap_nil]

/-! ### Lines of a pass -/

variable {hw : Hardware} {a : Assembler (Array MemoryAccess)} {addresses : List UInt64}
  {data : List (List UInt64)}

/-- The assembler between two passes, with operands left in the streams. -/
structure Ready (hw : Hardware) (addresses : List UInt64) (data : List (List UInt64))
    (a : Assembler (Array MemoryAccess)) : Prop where
  hardware_eq : a.hardware = hw
  size_buffer : a.buffer.size = hw.bufferEntries
  decodes : a.buffer.Decodes
  diagnostics_eq : a.diagnostics = #[]
  fed : a.machine.Fed addresses data

/-- A line that neither takes operands nor leaves a remark, and stages nothing that does not
decode. -/
theorem Ready.of_streams_eq {a' : Assembler (Array MemoryAccess)} (h : a.Ready hw addresses data)
    (hhw : a'.hardware = a.hardware) (hdiagnostics : a'.diagnostics = a.diagnostics)
    (hstreams : a'.machine.streams = a.machine.streams) (hsize : a'.buffer.size = a.buffer.size)
    (hdec : a'.buffer.Decodes) : a'.Ready hw addresses data := by
  refine ⟨?_, ?_, hdec, ?_, ?_, ?_⟩
  · rw [hhw, h.hardware_eq]
  · rw [hsize, h.size_buffer]
  · rw [hdiagnostics, h.diagnostics_eq]
  · rw [hstreams]
    exact h.fed.addresses
  · rw [hstreams]
    exact h.fed.data

theorem remark_nil {σ : Type} (a : Assembler σ) (line : Nat) : a.remark line [] = a := by
  simp [remark]

/-- The line that selects the first entry of the buffer. -/
theorem ran_select (h : a.Ready hw addresses data) (hpos : 0 < hw.bufferEntries) (number : Nat) :
    ∃ a', Ran number [(Statement.writeFile .instrBuffer 0 none).text] a a' [] 0 0 0 ∧
      a'.Ready hw addresses data ∧ a'.mode = .staging 0 := by
  have hread := Statement.readsBack_select (show 0 < UInt64.size by decide)
  have hselect : a.statement number (.writeFile .instrBuffer 0 none) =
      ({ a with mode := .staging 0 }, .ok ()) := by
    rw [← h.hardware_eq] at hpos
    rw [statement, select, if_pos hpos]
    rfl
  exact ⟨_, ran_statement hread nofun hselect rfl rfl rfl,
    ⟨h.hardware_eq, h.size_buffer, h.decodes, h.diagnostics_eq, h.fed⟩, rfl⟩

/-- The line of the next instruction. -/
theorem ran_stage {is : List Instruction} {i : Instruction} (h : a.Ready hw addresses data)
    (hmode : a.mode = .staging is.length) (hholds : a.buffer.Holds is)
    (hlt : is.length < hw.bufferEntries) (hi : i.Written) (hcut : i.op.cutFields = [])
    (number : Nat) :
    ∃ a', Ran number [(Statement.instruction i).text] a a' [] 1 0 0 ∧
      a'.Ready hw addresses data ∧ a'.mode = .staging (is.length + 1) ∧
      a'.buffer.Holds (is ++ [i]) := by
  have hread := (Statement.Written.instruction hi).readsBack
  obtain ⟨a', hstage⟩ : ∃ a', a.statement number (.instruction i) = (a', .ok ()) ∧
      a'.hardware = a.hardware ∧ a'.diagnostics = a.diagnostics ∧
      a'.buffer = a.buffer.setIfInBounds is.length (some (.ofInstruction i)) ∧
      a'.mode = .staging (is.length + 1) ∧ a'.machine.streams = a.machine.streams ∧
      a'.machine.trace.size = a.machine.trace.size + 1 := by
    rw [← h.hardware_eq] at hlt
    rw [statement, stage, hmode]
    simp only [if_pos hlt, hcut, List.map_nil, remark_nil]
    exact ⟨_, rfl, rfl, rfl, rfl, rfl, rfl, Array.size_push ..⟩
  obtain ⟨hstatement, hhw, hdiagnostics, hbuffer, hmode', hstreams, htrace⟩ := hstage
  refine ⟨a', ran_statement hread nofun hstatement htrace ?_ ?_,
    h.of_streams_eq hhw hdiagnostics hstreams ?_ ?_, hmode', ?_⟩
  · rw [hstreams, Nat.add_zero]
  · rw [hstreams, Nat.add_zero]
  · rw [hbuffer, Array.size_setIfInBounds]
  · rw [hbuffer]
    exact h.decodes.setIfInBounds hi.legal _
  · rw [hbuffer]
    exact hholds.push (by rw [h.size_buffer]; exact hlt) i

/-- The lines of instructions, one after the other. -/
theorem ran_stageAll (is : List Instruction) {rest : List Instruction}
    (h : a.Ready hw addresses data)
    (hmode : a.mode = .staging is.length) (hholds : a.buffer.Holds is)
    (hle : is.length + rest.length ≤ hw.bufferEntries)
    (hrest : ∀ i ∈ rest, i.Written ∧ i.op.cutFields = []) (number : Nat) :
    ∃ a', Ran number (rest.map fun i => (Statement.instruction i).text) a a' [] rest.length 0 0 ∧
      a'.Ready hw addresses data ∧ a'.buffer.Holds (is ++ rest) := by
  induction rest generalizing is a number with
  | nil => exact ⟨a, .nil number a, h, by rwa [List.append_nil]⟩
  | cons i rest ih =>
    rw [List.length_cons] at hle
    obtain ⟨hwritten, hcut⟩ := hrest i (List.mem_cons_self ..)
    obtain ⟨a₁, hran₁, hready₁, hmode₁, hholds₁⟩ :=
      ran_stage h hmode hholds (by omega) hwritten hcut number
    obtain ⟨a₂, hran₂, hready₂, hholds₂⟩ := ih (is ++ [i]) hready₁
      (by rw [hmode₁, List.length_append, List.length_singleton]) hholds₁
      (by rw [List.length_append, List.length_singleton]; omega)
      (fun j hj => hrest j (List.mem_cons_of_mem i hj)) (number + 1)
    refine ⟨a₂, ?_, hready₂, ?_⟩
    · have hran := hran₁.append hran₂
      rwa [Nat.add_comm 1] at hran
    · rwa [List.append_assoc, List.singleton_append] at hholds₂

/-- The line of a loop whose fields fit. -/
theorem ran_loop (loop : LoopRegister) (h : a.Ready hw addresses data)
    (hentries : hw.bufferEntries ≤ 64) (horder : loop.start ≤ loop.finish)
    (hfinish : loop.finish < hw.bufferEntries)
    (hiterations : loop.iterations < 1 <<< LoopRegister.countBits) (number : Nat) :
    ∃ a', Ran number [(Statement.writeLoop loop).text] a a' [] 1 0 0 ∧
      a'.Ready hw addresses data ∧ a'.buffer = a.buffer ∧ a'.loop = loop := by
  have hfits : loop.start < 64 ∧ loop.finish < 64 := by omega
  have hread := Statement.readsBack_writeLoop (Nat.lt_trans hfits.1 (by decide))
    (Nat.lt_trans hfits.2 (by decide)) (Nat.lt_trans hiterations (by decide))
  obtain ⟨a', hloop⟩ : ∃ a', a.statement number (.writeLoop loop) = (a', .ok ()) ∧
      a'.hardware = a.hardware ∧ a'.diagnostics = a.diagnostics ∧ a'.buffer = a.buffer ∧
      a'.loop = loop ∧ a'.machine.streams = a.machine.streams ∧
      a'.machine.trace.size = a.machine.trace.size + 1 := by
    rw [← h.hardware_eq] at hfinish
    rw [statement, writeLoop, if_neg (Nat.not_le.mpr hfinish), if_neg (Nat.not_lt.mpr horder)]
    simp only [if_neg (Nat.not_le.mpr hiterations), remark_nil,
      LoopRegister.decode_encode hfits.1 hfits.2 hiterations]
    exact ⟨_, rfl, rfl, rfl, rfl, rfl, rfl, Array.size_push ..⟩
  obtain ⟨hstatement, hhw, hdiagnostics, hbuffer, hloop', hstreams, htrace⟩ := hloop
  refine ⟨a', ran_statement hread nofun hstatement htrace ?_ ?_,
    h.of_streams_eq hhw hdiagnostics hstreams ?_ ?_, hbuffer, hloop'⟩
  · rw [hstreams, Nat.add_zero]
  · rw [hstreams, Nat.add_zero]
  · rw [hbuffer]
  · rw [hbuffer]
    exact h.decodes

/-! ### Executions of a pass -/

theorem toList_foldl_push (trace : Array MemoryAccess) (commands : List MemoryAccess) :
    (commands.foldl Recorder.record trace).toList = trace.toList ++ commands := by
  induction commands generalizing trace with
  | nil => rw [List.foldl_nil, List.append_nil]
  | cons c rest ih =>
    rw [List.foldl_cons, ih]
    show (trace.push c).toList ++ rest = _
    rw [Array.toList_push, List.append_assoc, List.singleton_append]

/-- Where entries take operands by their opcodes, the operands taken show in their commands. -/
theorem operands_of_visited {entries : List DecodedEntry} {taken : List UInt64}
    {records : List (List UInt64)} {m m' : Machine (Array MemoryAccess)}
    {commands : List MemoryAccess} (h : Machine.Visited entries taken records m m' commands)
    (htakes : ∀ e ∈ entries, e.takesAddress = e.opcode.access?.isSome ∧
      e.takesData = (e.opcode == .glmv)) :
    touchedAddresses (entries.zip commands) = taken ∧
      constantPayloads (entries.zip commands) = records := by
  rw [← h.addresses_commands, ← h.payloads_commands, touchedAddresses, constantPayloads]
  refine ⟨congrArg _ (List.filter_congr fun x hx => ?_),
    congrArg _ (List.filter_congr fun x hx => ?_)⟩
  · exact (htakes x.1 (List.of_mem_zip hx).1).1.symm
  · exact (htakes x.1 (List.of_mem_zip hx).1).2.symm

/-- The line of one execution. -/
theorem ran_execute {taken : List UInt64} {records : List (List UInt64)}
    {entries : List DecodedEntry} (h : a.Ready hw (taken ++ addresses) (records ++ data))
    (hvisits : a.visits = entries)
    (htakes : ∀ e ∈ entries, e.takesAddress = e.opcode.access?.isSome ∧
      e.takesData = (e.opcode == .glmv))
    (htaken : taken.length = entries.countP (·.takesAddress))
    (hrecords : records.length = entries.countP (·.takesData)) (number : Nat) :
    ∃ a' executed, Ran number [Statement.execute.text] a a' executed entries.length taken.length
        records.length ∧
      a'.Ready hw addresses data ∧ a'.buffer = a.buffer ∧ a'.loop = a.loop ∧
      executed.length = entries.length ∧ touchedAddresses executed = taken ∧
      constantPayloads executed = records := by
  obtain ⟨m', commands, hall, hfed, hvisited⟩ :=
    Machine.visitAll_of_fed h.fed htaken hrecords a.hardware number 0
  have hmachine : a.machine.execute a.hardware a.buffer a.loop number =
      (m', .ok entries.length) := by
    rw [Machine.execute_eq_visitAll h.decodes]
    rw [visits] at hvisits
    rw [hvisits, hall, Nat.zero_add]
  obtain ⟨a', hexecute⟩ : ∃ a', a.statement number .execute = (a', .ok ()) ∧
      a'.hardware = a.hardware ∧ a'.diagnostics = a.diagnostics ∧ a'.buffer = a.buffer ∧
      a'.loop = a.loop ∧ a'.machine = m' := by
    rw [statement, execute, hmachine]
    exact ⟨_, rfl, rfl, rfl, rfl, rfl, rfl⟩
  obtain ⟨hstatement, hhw, hdiagnostics, hbuffer, hloop, rfl⟩ := hexecute
  have hline : a.line number Statement.execute.text = (a', .ok ()) := by
    rw [line_text Statement.readsBack_execute, hstatement]
  have htrace : a'.machine.trace.toList = a.machine.trace.toList ++ commands := by
    rw [hvisited.trace, toList_foldl_push]
  obtain ⟨haddresses, hpayloads⟩ := operands_of_visited hvisited htakes
  refine ⟨a', entries.zip commands, ⟨linesFrom_singleton hline, ?_, ?_,
    hvisited.consumed_addresses, hvisited.consumed_data⟩, ⟨?_, ?_, ?_, ?_, hfed⟩, hbuffer, hloop,
    ?_, haddresses, hpayloads⟩
  · rw [executedFrom_singleton hline, executedBy, Statement.readsBack_execute.ofLine]
    show a.visits.zip (a.recordedSince (a.line number Statement.execute.text).1) = _
    rw [hvisits, hline, recordedSince, htrace, ← Array.length_toList, List.drop_left]
  · rw [← Array.length_toList, htrace, List.length_append, Array.length_toList,
      hvisited.length_commands]
  · rw [hhw, h.hardware_eq]
  · rw [hbuffer, h.size_buffer]
  · rw [hbuffer]
    exact h.decodes
  · rw [hdiagnostics, h.diagnostics_eq]
  · rw [List.length_zip, hvisited.length_commands, Nat.min_self]

/-- The lines of executions, one after the other, of the same buffer under the same loop. -/
theorem ran_executions {entries : List DecodedEntry} (executions : Nat) {taken : List UInt64}
    {records : List (List UInt64)} (h : a.Ready hw (taken ++ addresses) (records ++ data))
    (hvisits : a.visits = entries)
    (htakes : ∀ e ∈ entries, e.takesAddress = e.opcode.access?.isSome ∧
      e.takesData = (e.opcode == .glmv))
    (htaken : taken.length = executions * entries.countP (·.takesAddress))
    (hrecords : records.length = executions * entries.countP (·.takesData)) (number : Nat) :
    ∃ a' executed, Ran number (List.replicate executions Statement.execute.text) a a' executed
        (executions * entries.length) taken.length records.length ∧
      a'.Ready hw addresses data ∧ executed.length = executions * entries.length ∧
      touchedAddresses executed = taken ∧ constantPayloads executed = records := by
  induction executions generalizing a taken records number with
  | zero =>
    obtain rfl := List.eq_nil_of_length_eq_zero (htaken.trans (Nat.zero_mul _))
    obtain rfl := List.eq_nil_of_length_eq_zero (hrecords.trans (Nat.zero_mul _))
    refine ⟨a, [], ?_, h, (Nat.zero_mul _).symm, rfl, rfl⟩
    rw [Nat.zero_mul]
    exact .nil number a
  | succ n ih =>
    rw [Nat.succ_mul, Nat.add_comm] at htaken hrecords
    obtain ⟨now, later, rfl, hnow, hlater⟩ := Machine.exists_append_of_length_eq_add htaken
    obtain ⟨first, others, rfl, hfirst, hothers⟩ := Machine.exists_append_of_length_eq_add hrecords
    rw [List.append_assoc, List.append_assoc] at h
    obtain ⟨a₁, executed₁, hran₁, hready₁, hbuffer, hloop, hlength₁, htouched₁, hpayloads₁⟩ :=
      ran_execute h hvisits htakes hnow hfirst number
    have hvisits₁ : a₁.visits = entries := by
      rw [visits, hbuffer, hloop, hready₁.hardware_eq, ← h.hardware_eq]
      exact hvisits
    obtain ⟨a₂, executed₂, hran₂, hready₂, hlength₂, htouched₂, hpayloads₂⟩ :=
      ih hready₁ hvisits₁ hlater hothers (number + 1)
    refine ⟨a₂, executed₁ ++ executed₂, ?_, hready₂, ?_, ?_, ?_⟩
    · have hran := hran₁.append hran₂
      rw [List.length_append, List.length_append, Nat.succ_mul, Nat.add_comm (n * _)]
      exact hran
    · rw [List.length_append, hlength₁, hlength₂, Nat.succ_mul, Nat.add_comm]
    · rw [touchedAddresses_append, htouched₁, htouched₂]
    · rw [constantPayloads_append, hpayloads₁, hpayloads₂]

/-! ### A whole pass -/

/-- The entries that one execution of a pass visits. -/
def passVisits (p : Pass) : List DecodedEntry :=
  (List.replicate p.iterations (p.body.map .ofInstruction)).flatten ++
    [.ofInstruction { op := .exit }]

theorem length_passVisits (p : Pass) :
    (passVisits p).length = p.body.length * p.iterations + 1 := by
  rw [passVisits, List.length_append, List.length_flatten, List.map_replicate,
    List.sum_replicate_nat, List.length_map, List.length_singleton, Nat.mul_comm]

theorem takes_of_mem_passVisits {p : Pass} (hbody : ∀ i ∈ p.body, i.TakesByOpcode) :
    ∀ e ∈ passVisits p, e.takesAddress = e.opcode.access?.isSome ∧
      e.takesData = (e.opcode == .glmv) := by
  have hentry : ∀ {i : Instruction}, i.TakesByOpcode →
      (DecodedEntry.ofInstruction i).takesAddress = i.op.opcode.access?.isSome ∧
        (DecodedEntry.ofInstruction i).takesData = (i.op.opcode == .glmv) := by
    intro i hi
    refine ⟨?_, hi.readsData_eq⟩
    rw [DecodedEntry.takesAddress, DecodedEntry.ofInstruction, hi.readsAddress_eq, Bool.and_self]
  intro e he
  rcases List.mem_append.mp he with he | he
  · obtain ⟨es, hes, he⟩ := List.mem_flatten.mp he
    obtain rfl := (List.mem_replicate.mp hes).2
    obtain ⟨i, hi, rfl⟩ := List.mem_map.mp he
    exact hentry (hbody i hi)
  · obtain rfl := List.mem_singleton.mp he
    exact hentry takesByOpcode_exit

/-- The operands that one execution takes, where the exit marker takes none. -/
theorem countP_passVisits {takes : DecodedEntry → Bool} (reads : Instruction → Bool) {p : Pass}
    (hbody : ∀ i ∈ p.body, takes (.ofInstruction i) = reads i)
    (hexit : takes (.ofInstruction { op := .exit }) = false) :
    (passVisits p).countP takes = p.iterations * p.body.countP reads := by
  have hcount : (p.body.map DecodedEntry.ofInstruction).countP takes = p.body.countP reads := by
    rw [List.countP_map]
    exact List.countP_congr fun i hi => by rw [Function.comp_apply, hbody i hi]
  rw [passVisits, List.countP_append, List.countP_flatten, List.map_replicate, hcount,
    List.sum_replicate_nat, List.countP_singleton, hexit]
  rfl

/-- Every statement of a pass can be written, where the repetitions are a 64-bit number. -/
theorem written_statements {p : Pass} (hhw : hw.WithinLimits) (hp : p.Within hw)
    (hiterations : p.iterations < UInt64.size) : ∀ st ∈ p.statements, st.Written := by
  have hentries := hhw.bufferEntries_le
  have hlt := hp.length_lt
  intro st hst
  simp only [Pass.statements, List.mem_append, List.mem_cons, List.mem_map,
    List.mem_replicate] at hst
  rcases hst with (rfl | ⟨i, hi, rfl⟩) | rfl | rfl | ⟨-, rfl⟩
  · exact .select (by decide)
  · exact .instruction (hp.instructions_within i hi).written
  · exact .instruction .exit
  · have hlast : p.body.length - 1 < 64 := by omega
    exact .writeLoop (show 0 < UInt64.size by decide) (Nat.lt_trans hlast (by decide)) hiterations
  · exact .execute

theorem written_of_mem_statements {p : Pass} (hhw : hw.WithinLimits) (hp : p.Within hw)
    (hiterations : p.iterations < 1 <<< LoopRegister.countBits) :
    ∀ st ∈ p.statements, st.Written :=
  written_statements hhw hp (Nat.lt_trans hiterations (by decide))

/-- **The lines of a pass.** With its operands at the front of the streams they succeed, take
exactly these operands, and leave the assembler ready for the next pass. -/
theorem ran_pass {p : Pass} (hhw : hw.WithinLimits) (hp : p.Within hw)
    (hpos : 0 < p.iterations) (hiterations : p.iterations < 1 <<< LoopRegister.countBits)
    {taken : List UInt64} {records : List (List UInt64)}
    (h : a.Ready hw (taken ++ addresses) (records ++ data)) (htaken : taken.length = p.addressReads)
    (hrecords : records.length = p.dataReads) (number : Nat) :
    ∃ a' executed, Ran number (p.statements.map (·.text)) a a' executed
        (p.body.length + 2 + p.executions * (p.body.length * p.iterations + 1)) taken.length
        records.length ∧
      a'.Ready hw addresses data ∧
      executed.length = p.executions * (p.body.length * p.iterations + 1) ∧
      touchedAddresses executed = taken ∧ constantPayloads executed = records := by
  have hlength := hp.length_pos
  have hlt := hp.length_lt
  have hstaged : ∀ i ∈ p.body ++ [{ op := .exit }], i.Written ∧ i.op.cutFields = [] := by
    intro i hi
    rcases List.mem_append.mp hi with hi | hi
    · exact ⟨(hp.instructions_within i hi).written,
        (hp.instructions_within i hi).cutFields_eq_nil hhw⟩
    · obtain rfl := List.mem_singleton.mp hi
      exact ⟨.exit, by decide⟩
  have htakes := takes_of_mem_passVisits fun i hi => (hp.instructions_within i hi).takesByOpcode
  -- The lines in turn: select, stage, loop, execute.
  obtain ⟨a₁, hran₁, hready₁, hmode₁⟩ := ran_select h (by omega) number
  obtain ⟨a₂, hran₂, hready₂, hholds₂⟩ := ran_stageAll [] hready₁ hmode₁ (.nil _)
    (by rw [List.length_append, List.length_singleton, List.length_nil]; omega) hstaged (number + 1)
  obtain ⟨a₃, hran₃, hready₃, hbuffer₃, hloop₃⟩ := ran_loop p.loop hready₂
    hhw.bufferEntries_le (Nat.zero_le _) (show p.body.length - 1 < _ by omega) hiterations
    (number + 1 + (p.body.length + 1))
  have hvisits : a₃.visits = passVisits p := by
    refine visits_eq hready₃.decodes (by rw [hready₃.size_buffer, hready₃.hardware_eq])
      (by rw [hbuffer₃]; exact hholds₂) (fun i hi => (hstaged i hi).1.legal)
      (fun i hi => (hp.instructions_within i hi).opcode_ne_exit) rfl hlength hloop₃ hpos
  have htaken' : taken.length = p.executions * (passVisits p).countP (·.takesAddress) := by
    rw [htaken, Pass.addressReads, Pass.runs, Nat.mul_assoc,
      countP_passVisits (·.readsAddress) ?_ rfl]
    intro i hi
    have hopcode := (hp.instructions_within i hi).takesByOpcode.readsAddress_eq
    rw [DecodedEntry.takesAddress, DecodedEntry.ofInstruction, hopcode, Bool.and_self]
  have hrecords' : records.length = p.executions * (passVisits p).countP (·.takesData) := by
    rw [hrecords, Pass.dataReads, Pass.runs, Nat.mul_assoc,
      countP_passVisits (·.readsData) (fun _ _ => rfl) rfl]
  obtain ⟨a₄, executed, hran₄, hready₄, hexecuted, htouched, hpayloads⟩ :=
    ran_executions p.executions hready₃ hvisits htakes htaken' hrecords'
      (number + 1 + (p.body.length + 1) + 1)
  refine ⟨a₄, executed, ?_, hready₄, by rw [hexecuted, length_passVisits], htouched, hpayloads⟩
  obtain ⟨staged, hlines⟩ : ∃ staged : List Instruction, staged = p.body ++ [{ op := .exit }] :=
    ⟨_, rfl⟩
  have hlength : staged.length = p.body.length + 1 := by
    rw [hlines, List.length_append, List.length_singleton]
  have htexts : (staged.map fun i => (Statement.instruction i).text).length =
      p.body.length + 1 := by
    rw [List.length_map, hlength]
  have hstatements : p.statements.map (·.text) =
      [(Statement.writeFile .instrBuffer 0 none).text] ++
        ((staged.map fun i => (Statement.instruction i).text) ++
          ([(Statement.writeLoop p.loop).text] ++
            List.replicate p.executions Statement.execute.text)) := by
    simp [hlines, Pass.statements]
  rw [← htexts] at hran₃ hran₄
  rw [← hlines] at hran₂
  have hran := hran₁.append (hran₂.append (hran₃.append hran₄))
  have hcount : 0 + (staged.length + (1 + p.executions * (passVisits p).length)) =
      p.body.length + 2 + p.executions * (p.body.length * p.iterations + 1) := by
    rw [hlength, length_passVisits]
    omega
  rw [hcount] at hran
  simpa only [hstatements, List.nil_append, Nat.zero_add] using hran

end Assembler

end NearMemory
