import NearMemory.Proofs.AlikeRuns
import NearMemory.Proofs.AssembledSchedule
import NearMemory.Proofs.PrintedText

/-!
# Remarks and seeds

Two things about a program are a matter of taste: whether it carries remarks, and the seed of its
synthetic operands. Neither reaches the schedule. Remarks are lines of their own that the assembler
passes over, so that they only shift the numbers of the other lines; a seed changes the operands
that are drawn, but not how many of them. What is left to show is that a run cannot tell the
difference either, which is what alike runs are for: programs with and without remarks have the same
operands, and programs of two seeds have operands of the same shape.

## Main definitions

* `isRemark` — a line of text that is a remark
* `Schedule.statements` — the statements of a program, without its remarks
* `Schedule.numbered` — the statements of some lines, each with the number of its line

## Main results

* `Schedule.linesFrom_text` — lines run as their statements do
* `Schedule.make_verbose`, `Schedule.make_seed` — the schedule with other remarks or another seed
* `Schedule.trace_alike` — programs with the same statements and operands that are shown alike
* `Schedule.remarks_and_seed_inert` — neither remarks nor the seed influence the program
-/

namespace NearMemory

/-- The line starts a remark. -/
def isRemark (line : String) : Bool := line.toList.head? == some ';'

namespace Schedule

/-! ### Lines and their statements -/

/-- The statement of a line, if it has one. -/
def Line.statement? : Line → Option Statement
  | .remark _ => none
  | .statement st => some st

/-- A line that its text stands for. -/
def Line.Plain : Line → Prop
  | .remark text => OneLine text.toList
  | .statement st => st.ReadsBack

theorem isRemark_iff {line : String} :
    isRemark line = true ↔ ∃ cs, line.toList = ';' :: cs := by
  rw [isRemark, beq_iff_eq, List.head?_eq_some_iff]

/-- **Remarks can be told from statements by their first character.** A statement whose text starts
like a remark would read as nothing. -/
theorem Line.Plain.isRemark_text {l : Line} (h : l.Plain) :
    isRemark l.text = l.statement?.isNone := by
  cases l with
  | remark text => exact isRemark_iff.mpr ⟨_, toList_text_remark text⟩
  | statement st =>
    have hread : st.ReadsBack := h
    refine Bool.eq_false_iff.mpr fun hremark => ?_
    obtain ⟨cs, htext⟩ : ∃ cs, st.text.toList = ';' :: cs := isRemark_iff.mp hremark
    have hcs : OneLine cs := fun c hc => hread.oneLine c (htext ▸ List.mem_cons_of_mem _ hc)
    have hnone := Assembler.ofLine_comment htext hcs 0
    rw [hread.ofLine] at hnone
    simp at hnone

/-- The statements of some lines, each with the number of its line, from the given number on. -/
def numbered : Nat → List Line → List (Nat × Statement)
  | _, [] => []
  | number, .remark _ :: rest => numbered (number + 1) rest
  | number, .statement st :: rest => (number, st) :: numbered (number + 1) rest

theorem map_snd_numbered (number : Nat) (ls : List Line) :
    (numbered number ls).map (·.2) = ls.filterMap Line.statement? := by
  induction ls generalizing number with
  | nil => rfl
  | cons l rest ih =>
    cases l with
    | remark text => exact ih (number + 1)
    | statement st => exact congrArg (st :: ·) (ih (number + 1))

/-- **Lines run as their statements do.** -/
theorem linesFrom_text {ls : List Line} (h : ∀ l ∈ ls, l.Plain) (number : Nat)
    (a : Assembler (Array MemoryAccess)) :
    Assembler.linesFrom number a (ls.map (·.text)) = a.statements (numbered number ls) := by
  induction ls generalizing number a with
  | nil => rfl
  | cons l rest ih =>
    have hrest := fun q hq => h q (List.mem_cons_of_mem l hq)
    rw [List.map_cons, Assembler.linesFrom]
    cases l with
    | remark text =>
      have htext : OneLine text.toList := h _ (List.mem_cons_self ..)
      rw [Assembler.line_comment (toList_text_remark text) (oneLine_text_remark htext), numbered]
      exact ih hrest (number + 1) a
    | statement st =>
      have hread : st.ReadsBack := h _ (List.mem_cons_self ..)
      rw [show (Line.statement st).text = st.text from rfl, Assembler.line_text hread, numbered,
        Assembler.statements]
      rcases a.statement number st with ⟨a', e | _⟩
      · rfl
      · exact ih hrest (number + 1) a'

/-- The texts of some lines without the remarks. -/
theorem filter_isRemark_text {ls : List Line} (h : ∀ l ∈ ls, l.Plain) :
    (ls.map (·.text)).filter (!isRemark ·) = (ls.filterMap Line.statement?).map (·.text) := by
  induction ls with
  | nil => rfl
  | cons l rest ih =>
    have hl := (h l (List.mem_cons_self ..)).isRemark_text
    have hrest := ih fun q hq => h q (List.mem_cons_of_mem l hq)
    rw [List.map_cons, List.filter_cons, hl, hrest]
    cases l <;> rfl

/-! ### Programs -/

/-- The statements of a program. -/
def statements (s : Schedule) : List Statement := s.setup ++ s.passes.flatMap (·.statements)

variable {hw : Hardware} {w : Workload} {s s' : Schedule}

theorem filterMap_statement?_remark (s : Schedule) (text : String) :
    (s.remark text).filterMap Line.statement? = [] := by
  rw [remark]
  split <;> rfl

theorem filterMap_statement?_map (sts : List Statement) :
    (sts.map Line.statement).filterMap Line.statement? = sts := by
  rw [List.filterMap_map]
  exact List.filterMap_some

theorem filterMap_statement?_lines (s : Schedule) :
    s.lines.filterMap Line.statement? = s.statements := by
  rw [lines, List.filterMap_append, List.filterMap_append, filterMap_statement?_remark,
    filterMap_statement?_map, List.filterMap_flatMap, List.nil_append, statements]
  congr 1
  refine List.flatMap_congr fun p _ => ?_
  rw [List.filterMap_append, filterMap_statement?_remark, filterMap_statement?_map, List.nil_append]

theorem plain_of_mem_remark {text : String} (h : OneLine text.toList) :
    ∀ l ∈ s.remark text, l.Plain := by
  intro l hl
  rw [remark] at hl
  split at hl
  · obtain rfl := List.mem_singleton.mp hl
    exact h
  · simp at hl

/-- Every line of a program is one that its text stands for. -/
theorem plain_of_mem_lines (h : make hw w = .ok s) : ∀ l ∈ s.lines, l.Plain := by
  intro l hl
  cases l with
  | statement st => exact (written_of_mem_lines h hl).readsBack
  | remark text =>
    rw [lines, List.mem_append, List.mem_append, List.mem_flatMap] at hl
    rcases hl with (hl | hl) | ⟨p, -, hl⟩
    · exact plain_of_mem_remark (oneLine_heading s.workload) _ hl
    · simp at hl
    · rcases List.mem_append.mp hl with hl | hl
      · exact plain_of_mem_remark (p.oneLine_remark s.plan.limit) _ hl
      · simp at hl

theorem lines_assembly_of_make (h : make hw w = .ok s) :
    NearMemory.lines s.assembly = s.lines.map (·.text) := by
  obtain ⟨rfl, rfl, rest, hmade⟩ := made_of_make h
  exact lines_assembly fun p hp => (stages_of_mem_passes h p hp).written hmade.plan_sound

/-- **Without its remarks a program is its statements.** -/
theorem filter_isRemark_assembly (h : make hw w = .ok s) :
    (NearMemory.lines s.assembly).filter (!isRemark ·) = s.statements.map (·.text) := by
  rw [lines_assembly_of_make h, filter_isRemark_text (plain_of_mem_lines h),
    filterMap_statement?_lines]

/-- No statement of a program loads the loop register from the data stream. -/
theorem keepsLoop_of_mem_statements : ∀ st ∈ s.statements, st.KeepsLoop := by
  rintro st hst index rfl
  simp [statements, setup, Pass.statements] at hst

/-! ### Runs of programs -/

theorem trace_assemble (h : make hw w = .ok s) (streams : OperandStreams) :
    (assemble hw streams #[] s.assembly).1 =
      ((Assembler.start hw streams #[]).statements (numbered 1 s.lines)).1.machine.trace := by
  have hrun := linesFrom_text (plain_of_mem_lines h) 1 (.start hw streams #[])
  rw [← lines_assembly_of_make h] at hrun
  rw [assemble_of_linesFrom (violation?_of_make h) (hrun.trans rfl)]

/-- **Programs with the same statements.** Whatever remarks they carry, with streams that are shown
alike they record commands that are shown alike. -/
theorem trace_alike {β : Type} {view : UInt64 → β} (hview : RespectsRows view) {seed : UInt64}
    {w' : Workload} (h : make hw w = .ok s) (h' : make { hw with seed } w' = .ok s')
    (hstatements : s.statements = s'.statements) {streams streams' : OperandStreams}
    (hdata : streams.data.Alike view streams'.data)
    (haddresses : streams.addresses.Alike view streams'.addresses) :
    (assemble hw streams #[] s.assembly).1.map (MemoryAccess.seen view) =
      (assemble { hw with seed } streams' #[] s'.assembly).1.map (MemoryAccess.seen view) := by
  have hstart : (Assembler.start hw streams #[]).Alike view
      (Assembler.start { hw with seed } streams' #[]) :=
    ⟨seed, #[], _, rfl, hdata, haddresses, rfl, rfl, rfl⟩
  have hnumbered : (numbered 1 s.lines).map (·.2) = (numbered 1 s'.lines).map (·.2) := by
    rw [map_snd_numbered, map_snd_numbered, filterMap_statement?_lines,
      filterMap_statement?_lines, hstatements]
  have hloop : ∀ p ∈ numbered 1 s.lines, p.2.KeepsLoop := by
    intro p hp
    refine keepsLoop_of_mem_statements (s := s) p.2 ?_
    rw [← filterMap_statement?_lines, ← map_snd_numbered 1]
    exact List.mem_map_of_mem hp
  have hrun := Assembler.statements_alike hview hstart hnumbered hloop
  rw [trace_assemble h, trace_assemble h']
  generalize (Assembler.start hw streams #[]).statements _ = x at hrun ⊢
  generalize (Assembler.start { hw with seed } streams' #[]).statements _ = x' at hrun ⊢
  cases hrun with
  | ok hs _ =>
    obtain ⟨_, _, _, rfl, hm⟩ := hs
    exact hm.trace
  | error hs =>
    obtain ⟨_, _, _, rfl, hm⟩ := hs
    exact hm.trace

/-! ### Schedules -/

theorem make_eq_ok_iff :
    make hw w = .ok s ↔ hw.violation? = none ∧ ∃ plan, Plan.make hw w = .ok plan ∧
      ofPlan hw w plan = .ok s := by
  constructor
  · intro h
    rw [make] at h
    split at h
    · contradiction
    next hviolation =>
      split at h
      · contradiction
      next plan hplan => exact ⟨hviolation, plan, hplan, mapError_eq_ok_iff.mp h⟩
  · rintro ⟨hviolation, plan, hplan, h⟩
    simp only [make, hviolation, hplan]
    exact mapError_eq_ok_iff.mpr h

theorem reductionPasses_seed (hw : Hardware) (seed : UInt64) (r : Reducer)
    (tiles limit layer operands : Nat) :
    reductionPasses { hw with seed } r tiles limit layer operands =
      reductionPasses hw r tiles limit layer operands := by
  induction limit generalizing layer operands with
  | zero =>
    unfold reductionPasses
    rfl
  | succ limit ih =>
    unfold reductionPasses
    split
    · rfl
    · cases r.layers[layer]? with
      | none => rfl
      | some l =>
        have hwidest : widestGroup? { hw with seed } r l operands = widestGroup? hw r l operands :=
          rfl
        simp only [hwidest]
        cases widestGroup? hw r l operands with
        | none => rfl
        | some widest =>
          -- this pass does not depend on the seed, and by induction neither do those behind it
          exact congrArg
            (Except.bind ((reductionPass hw r tiles layer operands l widest).staged hw))
            (funext fun pass => congrArg (Except.map (pass :: ·)) (ih ..))

/-- The schedule with or without remarks. -/
def withRemarks (s : Schedule) (verbose : Bool) : Schedule :=
  { s with workload := { s.workload with verbose } }

/-- The schedule with another seed. -/
def withSeed (s : Schedule) (seed : UInt64) : Schedule :=
  { s with hardware := { s.hardware with seed } }

/-- **Remarks leave the schedule as it is.** -/
theorem make_verbose (h : make hw w = .ok s) (verbose : Bool) :
    make hw { w with verbose } = .ok (s.withRemarks verbose) := by
  obtain ⟨hviolation, plan, hplan, h⟩ := make_eq_ok_iff.mp h
  obtain ⟨hentries, full, remainder, rest, hfull, hremainder, hsums, hrest, rfl⟩ :=
    ofPlan_eq_ok_iff.mp h
  refine make_eq_ok_iff.mpr ⟨hviolation, plan, hplan, ofPlan_eq_ok_iff.mpr ?_⟩
  exact ⟨hentries, full, remainder, rest, hfull, hremainder, hsums, hrest, rfl⟩

/-- **The seed leaves the schedule as it is.** -/
theorem make_seed (h : make hw w = .ok s) (seed : UInt64) :
    make { hw with seed } w = .ok (s.withSeed seed) := by
  obtain ⟨hviolation, plan, hplan, h⟩ := make_eq_ok_iff.mp h
  obtain ⟨hentries, full, remainder, rest, hfull, hremainder, hsums, hrest, rfl⟩ :=
    ofPlan_eq_ok_iff.mp h
  refine make_eq_ok_iff.mpr ⟨hviolation, plan, hplan, ofPlan_eq_ok_iff.mpr ?_⟩
  exact ⟨hentries, full, remainder, rest, hfull, hremainder, hsums,
    (reductionPasses_seed ..).trans hrest, rfl⟩

/-! ### Operands -/

theorem ne_nil_of_mem_data (s : Schedule) : ∀ r ∈ s.operands.data.toList, r ≠ [] := by
  obtain ⟨constants, hdata, -, hne⟩ := s.exists_data_drawOperands (ChaCha.ofSeed s.hardware.seed)
  rw [operands, hdata]
  intro r hr
  rcases List.mem_cons.mp hr with rfl | hr
  · decide
  · exact hne r hr

theorem map_length_data_withSeed (s : Schedule) (seed : UInt64) :
    (s.withSeed seed).operands.data.toList.map List.length =
      s.operands.data.toList.map List.length := by
  rw [operands, operands, map_length_data_drawOperands, map_length_data_drawOperands]
  rfl

theorem length_addresses_withSeed (s : Schedule) (seed : UInt64) :
    (s.withSeed seed).operands.addresses.toList.length = s.operands.addresses.toList.length := by
  rw [operands, operands, length_addresses_drawOperands, length_addresses_drawOperands]
  rfl

end Schedule

/-- Streams of operands that are shown alike. -/
theorem Operands.streams_alike {β γ : Type} (view : UInt64 → β) (o o' : Operands γ)
    (hne : ∀ r ∈ o.data.toList, r ≠ [])
    (hdata : o.data.toList.map (·.map view) = o'.data.toList.map (·.map view))
    (haddresses : o.addresses.toList.map view = o'.addresses.toList.map view) :
    o.streams.data.Alike view o'.streams.data ∧
      o.streams.addresses.Alike view o'.streams.addresses := by
  constructor
  · exact ⟨.data, 0, 0, _, _, OperandStream.ofText_recordsText _ _,
      OperandStream.ofText_recordsText _ _, hne, hdata⟩
  · refine ⟨.address, 0, 0, _, _, OperandStream.ofText_addressesText _ _,
      OperandStream.ofText_addressesText _ _, OperandStream.ne_nil_of_mem_singletons, ?_⟩
    have hsingle := congrArg (List.map fun x => [x]) haddresses
    rw [List.map_map, List.map_map] at hsingle ⊢
    exact hsingle

/-! ### Variants of a program -/

namespace Schedule

variable {hw : Hardware} {w : Workload} {s : Schedule}

/-- The trace of the program of a schedule, run on the operands drawn for it. -/
def trace (s : Schedule) : Array MemoryAccess :=
  (assemble s.hardware s.operands.streams #[] s.assembly).1

/-- A program with or without remarks has the same operands, and records the same commands. -/
theorem trace_withRemarks (h : make hw w = .ok s) (verbose : Bool) :
    (s.withRemarks verbose).trace = s.trace := by
  obtain ⟨rfl, rfl, -⟩ := made_of_make h
  obtain ⟨hdata, haddresses⟩ :=
    Operands.streams_alike id s.operands s.operands s.ne_nil_of_mem_data rfl rfl
  have hseen := trace_alike respectsRows_id h (make_verbose h verbose) rfl hdata haddresses
  exact ((Array.map_inj_right MemoryAccess.seen_id_injective).mp hseen).symm

/-- A program with another seed has as many operands, and records commands of the same shape. -/
theorem trace_withSeed (h : make hw w = .ok s) (seed : UInt64) :
    (s.withSeed seed).trace.map (fun c => (c.direction, c.payload.length)) =
      s.trace.map fun c => (c.direction, c.payload.length) := by
  obtain ⟨rfl, rfl, -⟩ := made_of_make h
  have hshape : ∀ records : List (List UInt64), records.map (·.map fun _ => ()) =
      (records.map List.length).map (List.replicate · ()) := by
    intro records
    simp [List.map_const']
  obtain ⟨hdata, haddresses⟩ := Operands.streams_alike (fun _ => ()) s.operands
    (s.withSeed seed).operands s.ne_nil_of_mem_data
    (by rw [hshape, hshape, map_length_data_withSeed])
    (by rw [List.map_const', List.map_const', length_addresses_withSeed])
  have hseen : s.trace.map (MemoryAccess.seen fun _ => ()) =
      (s.withSeed seed).trace.map (MemoryAccess.seen fun _ => ()) :=
    trace_alike (respectsRows_const ()) h (make_seed h seed) rfl hdata haddresses
  -- Direction and payload length are what is left of a command.
  have hleft := congrArg (Array.map fun c => (c.2.1, c.2.2.length)) hseen.symm
  simpa [MemoryAccess.seen, Function.comp_def] using hleft

/-- **Neither remarks nor the seed influence the program.** Whatever can be scheduled can be
scheduled with and without remarks and with any seed, in the same passes. Remarks leave both operand
streams as they are; without its remarks the program has the same lines, and the two programs have
the same trace. The seed leaves the program text and the length of every record as they are, and the
two traces have the same length, and at each place the same direction and the same number of
words. -/
theorem remarks_and_seed_inert (h : make hw w = .ok s) (verbose : Bool) (seed : UInt64) :
    (∃ s', make hw { w with verbose } = .ok s' ∧ s'.passes = s.passes ∧
      s'.operands.dataText = s.operands.dataText ∧
      s'.operands.addressText = s.operands.addressText ∧
      (NearMemory.lines s'.assembly).filter (!isRemark ·) =
        (NearMemory.lines s.assembly).filter (!isRemark ·) ∧
      s'.trace = s.trace) ∧
    ∃ s', make { hw with seed } w = .ok s' ∧ s'.passes = s.passes ∧ s'.assembly = s.assembly ∧
      s'.operands.data.toList.map List.length = s.operands.data.toList.map List.length ∧
      s'.operands.addresses.toList.length = s.operands.addresses.toList.length ∧
      s'.trace.map (fun c => (c.direction, c.payload.length)) =
        s.trace.map fun c => (c.direction, c.payload.length) := by
  have hverbose := make_verbose h verbose
  refine ⟨⟨s.withRemarks verbose, hverbose, rfl, rfl, rfl, ?_, trace_withRemarks h verbose⟩,
    s.withSeed seed, make_seed h seed, rfl, rfl, map_length_data_withSeed s seed,
    length_addresses_withSeed s seed, trace_withSeed h seed⟩
  rw [filter_isRemark_assembly hverbose, filter_isRemark_assembly h]
  rfl

/-- A program with a pass of every kind: five of its lines are remarks, and it has the trace of the
program without them. -/
theorem remarks_and_seed_inert_all_kinds :
    ∃ s, make { storeEntries := 6 } { m := 2, n := 13, q := 8, digitLength := 2 } = .ok s ∧
      s.passes.map (·.kind) = [.chunk, .remainder, .reduction 1 3, .tail] ∧
      (∃ s', make { storeEntries := 6 }
          { m := 2, n := 13, q := 8, digitLength := 2, verbose := true } = .ok s' ∧
        s'.lines.length = s.lines.length + 5 ∧ s'.trace = s.trace) ∧
      ∃ s', make { storeEntries := 6, seed := 7 } { m := 2, n := 13, q := 8, digitLength := 2 } =
          .ok s' ∧
        s'.trace.map (fun c => (c.direction, c.payload.length)) =
          s.trace.map fun c => (c.direction, c.payload.length) := by
  have hmake : (make { storeEntries := 6 }
      { m := 2, n := 13, q := 8, digitLength := 2 }).toOption.map (fun s =>
        (s.passes.map (·.kind), s.lines.length)) =
      some ([.chunk, .remainder, .reduction 1 3, .tail], 115) := by
    decide +kernel
  have hremarks : (make { storeEntries := 6 }
      { m := 2, n := 13, q := 8, digitLength := 2, verbose := true }).toOption.map
        (·.lines.length) = some 120 := by
    decide +kernel
  obtain ⟨s, hs, hvalues⟩ := Option.map_eq_some_iff.mp hmake
  obtain ⟨hkinds, hlength⟩ := Prod.mk.inj hvalues
  have hok := toOption_eq_some_iff.mp hs
  obtain ⟨⟨s', hs', -, -, -, -, htrace⟩, s'', hs'', -, -, -, -, hshape⟩ :=
    remarks_and_seed_inert hok true 7
  rw [hs'] at hremarks
  refine ⟨s, hok, hkinds, ⟨s', hs', ?_, htrace⟩, s'', hs'', hshape⟩
  rw [hlength]
  exact Option.some.inj hremarks

end Schedule

end NearMemory
