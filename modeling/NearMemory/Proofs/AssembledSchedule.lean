import NearMemory.Assembly
import NearMemory.Proofs.DrawnOperands
import NearMemory.Proofs.PassRun
import NearMemory.Proofs.StreamText

/-!
# Programs run as they were scheduled

A schedule is written out as a program text, and its operands as the texts of two streams. The
assembler knows nothing of the schedule: it reads the text line by line, packs the instructions,
walks the buffer and takes operands as it meets them. Still the two agree on every record. The
program runs to its end without a remark, it takes the streams up exactly, and the operands show in
the trace in the order in which they were drawn.

## Main definitions

* `Pass.visits`, `Pass.records` — the visits and the commands of a pass

## Main results

* `Schedule.Made.iterations_pos` — every body is repeated
* `Schedule.ran_program` — the lines of a program
* `Schedule.assemble_program` — the program of a schedule runs as it was scheduled
-/

namespace NearMemory

/-! ### Repetitions -/

theorem ReductionRun.iterations_pos {hw : Hardware} {r : Reducer} {tiles layer sums : Nat}
    {passes : List Pass} (h : ReductionRun hw r tiles layer sums passes) (htiles : 0 < tiles) :
    ∀ p ∈ passes, 0 < p.iterations := by
  induction h with
  | done _ => exact fun p hp => absurd hp List.not_mem_nil
  | reduction _ _ hwidest _ _ ih =>
    exact List.forall_mem_cons.mpr ⟨Nat.mul_pos htiles hwidest.covers.groups_pos, ih⟩
  | tail hsums _ htail =>
    obtain ⟨-, rfl, -⟩ := tailPass_eq_ok htail
    exact List.forall_mem_singleton.mpr (Nat.mul_pos htiles (Nat.sub_pos_of_lt hsums))

namespace Schedule

namespace Made

variable {s : Schedule} {rest : List Pass}

theorem tilesPerRow_pos (h : s.Made rest) : 0 < s.plan.tilesPerRow := by
  have hword := Subword.perWord_pos h.plan_sound.width_mem
  rw [h.plan_sound.tilesPerRow_eq, Subword.tiles,
    lt_ceilDiv_iff (Nat.mul_pos (show 0 < cores by decide) hword), Nat.zero_mul]
  exact h.plan_sound.q_pos

/-- **Every body is repeated,** at least once. -/
theorem iterations_pos (h : s.Made rest) : ∀ p ∈ s.passes, 0 < p.iterations := by
  have htiles : 0 < s.plan.tiles := by
    rw [h.plan_sound.tiles_eq]
    exact Nat.mul_pos h.plan_sound.m_pos h.tilesPerRow_pos
  intro p hp
  rw [h.passes_eq, List.cons_append, List.mem_cons, List.mem_append] at hp
  rcases hp with rfl | hp | hp
  · exact htiles
  · rw [remainderPasses] at hp
    split at hp
    · simp at hp
    · obtain rfl := List.mem_singleton.mp hp
      exact htiles
  · exact h.reduction_run.iterations_pos htiles p hp

end Made

end Schedule

/-! ### Remarks -/

theorem Pass.oneLine_remark (p : Pass) (limit : ChunkLimit) : OneLine (p.remark limit).toList := by
  unfold Pass.remark
  split
  · cases limit <;>
      simp only [String.toList_append, oneLine_append_iff, oneLine_toString] <;>
      decide +kernel
  all_goals
    simp only [String.toList_append, oneLine_append_iff, oneLine_toString]
    decide +kernel

theorem Schedule.oneLine_heading (w : Workload) : OneLine (heading w).toList := by
  unfold heading
  simp only [String.toList_append, oneLine_append_iff, oneLine_toString]
  decide +kernel

/-! ### The lines of a program -/

/-- The visits of the executions of a pass: the body as often as it is repeated, and the exit
marker. -/
def Pass.visits (p : Pass) : Nat := p.executions * (p.body.length * p.iterations + 1)

/-- The commands that a pass records: its body and the exit marker are staged, the loop is set, and
there is one for each visit. -/
def Pass.records (p : Pass) : Nat := p.body.length + 2 + p.visits

namespace Schedule

open Assembler

variable {s : Schedule} {a : Assembler (Array MemoryAccess)} {addresses : List UInt64}
  {data : List (List UInt64)}

theorem toList_text_remark (text : String) :
    (Line.remark text).text.toList = ';' :: ' ' :: text.toList := by
  rw [Line.text, String.toList_append]
  rfl

theorem oneLine_text_remark {text : String} (h : OneLine text.toList) :
    OneLine (' ' :: text.toList) := by
  intro c hc
  rcases List.mem_cons.mp hc with rfl | hc
  · decide
  · exact h c hc

/-- A remark, if there is one, does nothing. -/
theorem ran_remark {text : String} (htext : OneLine text.toList) (number : Nat)
    (a : Assembler (Array MemoryAccess)) :
    Ran number ((s.remark text).map (·.text)) a a [] 0 0 0 := by
  rw [remark]
  split
  · exact Assembler.ran_remark (toList_text_remark text) (oneLine_text_remark htext) number a
  · exact .nil number a

theorem readsBack_digitLength (s : Schedule) :
    (Statement.writeFile .digitLength 0
      (some (.literal [UInt64.ofNat s.workload.digitLength]))).ReadsBack :=
  Statement.readsBack_writeFile nofun (by decide) (DataOperand.written_literal _ _)

theorem readsBack_mask : (Statement.writeFile .mask 0 (some .stream)).ReadsBack :=
  Statement.readsBack_writeFile nofun (by decide) DataOperand.written_stream

/-- A write of words is one command, and keeps the assembler ready. -/
theorem writeWords_of_ready {hw : Hardware} (file : RegisterFile) (words : List UInt64)
    (h : a.Ready hw addresses data) (hwords : words.length = file.entryWords) (index : Nat) :
    ∃ a', a.writeWords file index words = (a', .ok ()) ∧ a'.Ready hw addresses data ∧
      a'.machine.streams = a.machine.streams ∧
      a'.machine.trace.size = a.machine.trace.size + 1 := by
  rw [writeWords, if_pos hwords]
  exact ⟨_, rfl, h.of_streams_eq rfl rfl rfl rfl h.decodes, rfl, Array.size_push ..⟩

/-- The write of the digit length. -/
theorem ran_digitLength (h : a.Ready s.hardware addresses data) (number : Nat) :
    ∃ a', Ran number [(Statement.writeFile .digitLength 0
        (some (.literal [UInt64.ofNat s.workload.digitLength]))).text] a a' [] 1 0 0 ∧
      a'.Ready s.hardware addresses data := by
  obtain ⟨a', hwrite, hready, hstreams, htrace⟩ := writeWords_of_ready .digitLength
    [UInt64.ofNat s.workload.digitLength] h rfl 0
  have hstatement : a.statement number (.writeFile .digitLength 0
      (some (.literal [UInt64.ofNat s.workload.digitLength]))) = (a', .ok ()) := by
    rw [statement, writeFile, if_pos (show 0 < a.hardware.capacity .digitLength from Nat.one_pos)]
    · simp only [hwrite]
      rfl
    · rintro ⟨⟩
  exact ⟨a', ran_statement (readsBack_digitLength s) (by rintro ⟨⟩) hstatement htrace
    (by rw [hstreams]; rfl) (by rw [hstreams]; rfl), hready⟩

/-- The write of the mask, which takes its record from the data stream. -/
theorem ran_mask (h : a.Ready s.hardware addresses (fullMask :: data)) (number : Nat) :
    ∃ a', Ran number [(Statement.writeFile .mask 0 (some .stream)).text] a a' [] 1 0 1 ∧
      a'.Ready s.hardware addresses data := by
  obtain ⟨next, htake, hnext, hconsumed⟩ := h.fed.data.takeRecord number
  have hready₁ : Ready s.hardware addresses data { a with machine := a.machine.withData next } :=
    ⟨h.hardware_eq, h.size_buffer, h.decodes, h.diagnostics_eq, ⟨h.fed.addresses, hnext⟩⟩
  obtain ⟨a', hwrite, hready, hstreams, htrace⟩ := writeWords_of_ready .mask fullMask hready₁ rfl
    0
  have hstatement : a.statement number (.writeFile .mask 0 (some .stream)) = (a', .ok ()) := by
    rw [statement, writeFile, if_pos (show 0 < a.hardware.capacity .mask from Nat.succ_pos 3)]
    · simp only [htake, hwrite]
      rfl
    · rintro ⟨⟩
  exact ⟨a', ran_statement readsBack_mask (by rintro ⟨⟩) hstatement htrace
    (by rw [hstreams]; rfl) (by rw [hstreams]; exact hconsumed), hready⟩

/-- **The lines before the first pass.** -/
theorem ran_setup (h : a.Ready s.hardware addresses (fullMask :: data)) (number : Nat) :
    ∃ a', Ran number (s.setup.map (·.text)) a a' [] 2 0 1 ∧ a'.Ready s.hardware addresses data := by
  obtain ⟨a₁, hran₁, hready₁⟩ := ran_digitLength h number
  obtain ⟨a₂, hran₂, hready₂⟩ := ran_mask hready₁ (number + 1)
  exact ⟨a₂, hran₁.append hran₂, hready₂⟩

/-- The lines of a pass. -/
def linesOfPass (s : Schedule) (p : Pass) : List Line :=
  s.remark (p.remark s.plan.limit) ++ p.statements.map .statement

theorem map_text_linesOfPass (s : Schedule) (p : Pass) :
    (s.linesOfPass p).map (·.text) =
      (s.remark (p.remark s.plan.limit)).map (·.text) ++ p.statements.map (·.text) := by
  rw [linesOfPass, List.map_append, List.map_map]
  rfl

/-- **The lines of passes,** one after the other. Each pass leaves the streams where the next one
starts. -/
theorem ran_passes {passes : List Pass} (hhw : s.hardware.WithinLimits)
    (hpasses : ∀ p ∈ passes, p.Within s.hardware ∧ 0 < p.iterations ∧
      p.iterations < 1 <<< LoopRegister.countBits)
    {taken : List UInt64} {records : List (List UInt64)}
    (h : a.Ready s.hardware (taken ++ addresses) (records ++ data))
    (htaken : taken.length = (passes.map (·.addressReads)).sum)
    (hrecords : records.length = (passes.map (·.dataReads)).sum) (number : Nat) :
    ∃ a' executed, Ran number ((passes.flatMap s.linesOfPass).map (·.text)) a a' executed
        (passes.map (·.records)).sum taken.length records.length ∧
      a'.Ready s.hardware addresses data ∧ executed.length = (passes.map (·.visits)).sum ∧
      touchedAddresses executed = taken ∧ constantPayloads executed = records := by
  induction passes generalizing a taken records number with
  | nil =>
    obtain rfl := List.eq_nil_of_length_eq_zero htaken
    obtain rfl := List.eq_nil_of_length_eq_zero hrecords
    exact ⟨a, [], .nil number a, h, rfl, rfl, rfl⟩
  | cons p rest ih =>
    obtain ⟨hwithin, hpos, hiterations⟩ := hpasses p (List.mem_cons_self ..)
    rw [List.map_cons, List.sum_cons] at htaken hrecords
    obtain ⟨now, later, rfl, hnow, hlater⟩ := Machine.exists_append_of_length_eq_add htaken
    obtain ⟨first, others, rfl, hfirst, hothers⟩ := Machine.exists_append_of_length_eq_add hrecords
    rw [List.append_assoc, List.append_assoc] at h
    have hran₀ : Ran number ((s.remark (p.remark s.plan.limit)).map (·.text)) a a [] 0 0 0 :=
      ran_remark (p.oneLine_remark s.plan.limit) number a
    obtain ⟨a₁, executed₁, hran₁, hready₁, hlength₁, htouched₁, hpayloads₁⟩ :=
      ran_pass hhw hwithin hpos hiterations h hnow hfirst
        (number + ((s.remark (p.remark s.plan.limit)).map (·.text)).length)
    have hpass := hran₀.append hran₁
    rw [← map_text_linesOfPass, List.nil_append, Nat.zero_add, Nat.zero_add, Nat.zero_add] at hpass
    obtain ⟨a₂, executed₂, hran₂, hready₂, hlength₂, htouched₂, hpayloads₂⟩ :=
      ih (fun q hq => hpasses q (List.mem_cons_of_mem p hq)) hready₁ hlater hothers
        (number + ((s.linesOfPass p).map (·.text)).length)
    refine ⟨a₂, executed₁ ++ executed₂, ?_, hready₂, ?_, ?_, ?_⟩
    · rw [List.flatMap_cons, List.map_append, List.map_cons, List.sum_cons, List.length_append,
        List.length_append]
      exact hpass.append hran₂
    · rw [List.length_append, hlength₁, hlength₂, List.map_cons, List.sum_cons]
      rfl
    · rw [touchedAddresses_append, htouched₁, htouched₂]
    · rw [constantPayloads_append, hpayloads₁, hpayloads₂]

theorem lines_eq (s : Schedule) :
    s.lines.map (·.text) = (s.remark (heading s.workload)).map (·.text) ++
      (s.setup.map (·.text) ++ (s.passes.flatMap s.linesOfPass).map (·.text)) := by
  rw [lines, List.map_append, List.map_append, List.map_map, List.append_assoc]
  rfl

/-- **The lines of a program.** -/
theorem ran_program (hhw : s.hardware.WithinLimits)
    (hpasses : ∀ p ∈ s.passes, p.Within s.hardware ∧ 0 < p.iterations ∧
      p.iterations < 1 <<< LoopRegister.countBits)
    {taken : List UInt64} {records : List (List UInt64)}
    (h : a.Ready s.hardware taken (fullMask :: records)) (htaken : taken.length = s.addressReads)
    (hrecords : records.length = (s.passes.map (·.dataReads)).sum) :
    ∃ a' executed, Ran 1 (s.lines.map (·.text)) a a' executed
        (2 + (s.passes.map (·.records)).sum) taken.length (1 + records.length) ∧
      a'.Ready s.hardware [] [] ∧ executed.length = (s.passes.map (·.visits)).sum ∧
      touchedAddresses executed = taken ∧ constantPayloads executed = records := by
  have hran₀ : Ran 1 ((s.remark (heading s.workload)).map (·.text)) a a [] 0 0 0 :=
    ran_remark (oneLine_heading s.workload) 1 a
  obtain ⟨a₁, hran₁, hready₁⟩ := ran_setup h
    (1 + ((s.remark (heading s.workload)).map (·.text)).length)
  rw [← List.append_nil taken, ← List.append_nil records] at hready₁
  rw [addressReads_eq_sum] at htaken
  obtain ⟨a₂, executed, hran₂, hready₂, hlength, htouched, hpayloads⟩ :=
    ran_passes hhw hpasses hready₁ htaken hrecords
      (1 + ((s.remark (heading s.workload)).map (·.text)).length + (s.setup.map (·.text)).length)
  refine ⟨a₂, executed, ?_, hready₂, hlength, htouched, hpayloads⟩
  have hran := hran₀.append (hran₁.append hran₂)
  simpa only [lines_eq, List.nil_append, Nat.zero_add] using hran

theorem oneLine_of_mem_remark {text : String} (htext : OneLine text.toList) :
    ∀ l ∈ s.remark text, OneLine l.text.toList := by
  intro l hl
  rw [remark] at hl
  split at hl
  · obtain rfl := List.mem_singleton.mp hl
    rw [toList_text_remark]
    show OneLine ([';', ' '] ++ text.toList)
    exact OneLine.append (by decide) htext
  · simp at hl

/-- Every line of a program is one line of its text. -/
theorem oneLine_of_mem_lines (hpasses : ∀ p ∈ s.passes, ∀ st ∈ p.statements, st.Written) :
    ∀ l ∈ s.lines, OneLine l.text.toList := by
  intro l hl
  rw [lines, List.mem_append, List.mem_append] at hl
  rcases hl with (hl | hl) | hl
  · exact oneLine_of_mem_remark (oneLine_heading _) l hl
  · obtain ⟨st, hst, rfl⟩ := List.mem_map.mp hl
    simp only [setup, List.mem_cons, List.not_mem_nil, or_false] at hst
    rcases hst with rfl | rfl
    · exact (readsBack_digitLength s).oneLine
    · exact readsBack_mask.oneLine
  · obtain ⟨p, hp, hl⟩ := List.mem_flatMap.mp hl
    rcases List.mem_append.mp hl with hl | hl
    · exact oneLine_of_mem_remark (p.oneLine_remark _) l hl
    · obtain ⟨st, hst, rfl⟩ := List.mem_map.mp hl
      exact (hpasses p hp st hst).readsBack.oneLine

theorem lines_assembly (hpasses : ∀ p ∈ s.passes, ∀ st ∈ p.statements, st.Written) :
    NearMemory.lines s.assembly = s.lines.map (·.text) := by
  refine lines_unlines fun text htext => ?_
  obtain ⟨l, hl, rfl⟩ := List.mem_map.mp htext
  exact oneLine_of_mem_lines hpasses l hl

/-! ### The program of a schedule -/

theorem violation?_of_make {hw : Hardware} {w : Workload} (h : make hw w = .ok s) :
    hw.violation? = none := by
  rw [make] at h
  split at h
  · contradiction
  · assumption

variable {γ : Type} [RandomWords γ]

/-- Before the first line, the operands drawn for a schedule are in the streams. -/
theorem ready_start (s : Schedule) (source : γ) {constants : List (List UInt64)}
    (hdata : (s.drawOperands source).data.toList = fullMask :: constants)
    (hconstants : ∀ record ∈ constants, record ≠ []) :
    Ready s.hardware (s.drawOperands source).addresses.toList (fullMask :: constants)
      (start s.hardware (s.drawOperands source).streams #[]) where
  hardware_eq := rfl
  size_buffer := Array.size_replicate
  decodes := InstrBuffer.decodes_replicate _
  diagnostics_eq := rfl
  fed := by
    refine ⟨OperandStream.supplies_addressesText _ _, ?_⟩
    rw [← hdata]
    refine OperandStream.supplies_recordsText (fun record hrecord => ?_) _
    rw [hdata] at hrecord
    rcases List.mem_cons.mp hrecord with rfl | hrecord
    · decide
    · exact hconstants record hrecord

/-- **Programs run as they were scheduled.** For every schedule whose repetitions fit the loop
register, the program text with the operands drawn for it, whatever the random source gives, runs to
its end without a remark. It takes every record of both streams, and records one command for each
entry staged, each register written and each visit. The addresses drawn are those of the visits that
touch memory, in order, and the data drawn are the mask and then the payloads of the visits that
load a constant, in order. -/
theorem assemble_program {hw : Hardware} {w : Workload} {s : Schedule} (h : make hw w = .ok s)
    (hiterations : ∀ p ∈ s.passes, p.iterations < 2 ^ 32) (source : γ) :
    ∃ (trace : Array MemoryAccess) (report : Assembler.Report),
      assemble hw (s.drawOperands source).streams #[] s.assembly = (trace, .ok report) ∧
      report.diagnostics = [] ∧
      report.dataTaken = (s.drawOperands source).data.size ∧
      report.addressesTaken = (s.drawOperands source).addresses.size ∧
      trace.size = 2 + (s.passes.map fun p =>
        p.body.length + 2 + p.executions * (p.body.length * p.iterations + 1)).sum ∧
      (executed hw (s.drawOperands source).streams s.assembly).length = (s.passes.map fun p =>
        p.executions * (p.body.length * p.iterations + 1)).sum ∧
      touchedAddresses (executed hw (s.drawOperands source).streams s.assembly) =
        (s.drawOperands source).addresses.toList ∧
      fullMask :: constantPayloads (executed hw (s.drawOperands source).streams s.assembly) =
        (s.drawOperands source).data.toList := by
  have hviolation := violation?_of_make h
  obtain ⟨rfl, -, rest, hmade⟩ := made_of_make h
  have hhw := hmade.plan_sound.limits
  have hpos := hmade.iterations_pos
  have hwritten : ∀ p ∈ s.passes, ∀ st ∈ p.statements, st.Written := fun p hp =>
    written_of_mem_statements hhw (hmade.pass_within p hp) (hiterations p hp)
  obtain ⟨constants, hdata, hlength, hconstants⟩ := s.exists_data_drawOperands source
  have hready := s.ready_start source hdata hconstants
  obtain ⟨a', visited, hran, hready', hcount, htouched, hpayloads⟩ := ran_program hhw
    (fun p hp => ⟨hmade.pass_within p hp, hpos p hp, hiterations p hp⟩) hready
    (s.length_addresses_drawOperands source) hlength
  rw [← lines_assembly hwritten] at hran
  have hexecuted : executed s.hardware (s.drawOperands source).streams s.assembly = visited :=
    hran.executed_eq
  have hsource : (start s.hardware (s.drawOperands source).streams #[]).source s.assembly =
      (a', .ok ()) := hran.run
  refine ⟨a'.machine.trace, a'.report, ?_, ?_, ?_, ?_, ?_, ?_, ?_, ?_⟩
  · rw [assemble, hviolation]
    simp only [hsource]
  · rw [report, hready'.diagnostics_eq]
  · rw [report, hran.consumed_data, ← Array.length_toList, hdata, List.length_cons,
      Nat.add_comm constants.length]
    exact Nat.zero_add _
  · rw [report, hran.consumed_addresses, ← Array.length_toList]
    exact Nat.zero_add _
  · rw [hran.size_trace]
    exact Nat.zero_add _
  · rw [hexecuted]
    exact hcount
  · rw [hexecuted, htouched]
  · rw [hexecuted, hpayloads, hdata]

/-- A program with a pass of every kind and with remarks: four bodies, five executions of two passes
over the body each. -/
theorem assemble_program_all_kinds :
    ∃ s, make { storeEntries := 6 }
        { m := 2, n := 13, q := 8, digitLength := 2, verbose := true } = .ok s ∧
      s.passes.map (·.kind) = [.chunk, .remainder, .reduction 1 3, .tail] ∧
      (∀ p ∈ s.passes, p.iterations < 2 ^ 32) ∧
      ∃ (trace : Array MemoryAccess) (report : Assembler.Report),
        assemble { storeEntries := 6 } (s.drawOperands (ChaCha.ofSeed 7)).streams #[] s.assembly =
          (trace, .ok report) ∧
        report.diagnostics = [] ∧ report.addressesTaken = 56 ∧ trace.size = 405 := by
  have hmake : (make { storeEntries := 6 }
      { m := 2, n := 13, q := 8, digitLength := 2, verbose := true }).toOption.map (fun s =>
        (s.passes.map (·.kind), s.passes.map (·.iterations), s.addressReads,
          (s.passes.map fun p =>
            p.body.length + 2 + p.executions * (p.body.length * p.iterations + 1)).sum)) =
      some ([.chunk, .remainder, .reduction 1 3, .tail], [2, 2, 2, 2], 56, 403) := by
    decide +kernel
  obtain ⟨s, hs, hvalues⟩ := Option.map_eq_some_iff.mp hmake
  simp only [Prod.mk.injEq] at hvalues
  obtain ⟨hkinds, hloops, haddresses, hrecords⟩ := hvalues
  have hok := toOption_eq_some_iff.mp hs
  have hiterations : ∀ p ∈ s.passes, p.iterations < 2 ^ 32 := by
    intro p hp
    have hmem : p.iterations ∈ s.passes.map (·.iterations) := List.mem_map_of_mem hp
    have hall : ∀ n ∈ [2, 2, 2, 2], n < 2 ^ 32 := by decide
    exact hall _ (hloops ▸ hmem)
  obtain ⟨trace, report, hrun, hdiagnostics, -, htaken, hsize, -⟩ :=
    assemble_program hok hiterations (ChaCha.ofSeed 7)
  have hdrawn := s.length_addresses_drawOperands (ChaCha.ofSeed 7)
  refine ⟨s, hok, hkinds, hiterations, trace, report, hrun, hdiagnostics, ?_, ?_⟩
  · rw [htaken, ← Array.length_toList, hdrawn, haddresses]
  · rw [hsize, hrecords]

end Schedule

end NearMemory
