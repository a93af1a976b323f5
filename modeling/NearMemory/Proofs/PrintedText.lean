import NearMemory.Proofs.AcceptedLines
import NearMemory.Proofs.PassRun

/-!
# Printing undoes reading

A line can be written in many ways, and a statement has one text. Reading forgets the way, and
printing gives the text; so a statement that was read, printed and read again is the same statement.
The same holds for the statements that never were a line: whatever a schedule emits reads back.

Passes are staged one after the other, and a schedule may still fail when some of them have been
staged. `Plan.Stages` lists the passes that a plan can lead to, whether or not the schedule comes to
its end, so that what is proved of them holds of a program that was given up as well.

## Main definitions

* `Plan.Stages` — the passes that are staged for a plan

## Main results

* `Plan.Stages.written` — the statements of these passes can be written
* `Schedule.stages_of_mem_passes` — the passes of a schedule are among them
* `Statement.text_reads_back` — statements that were read, and statements that are emitted, read
  back
-/

namespace NearMemory

/-! ### Passes of a plan -/

/-- The passes that are staged for a plan. -/
inductive Plan.Stages (hw : Hardware) (w : Workload) (plan : Plan) : Pass → Prop
  /-- The full chunks. -/
  | chunk : Stages hw w plan (chunkPass plan .chunk plan.chunk plan.fullChunks
      (Body.ofChunk hw (.ofTree plan.tree w.subwordWidth hw) plan.padding.nops plan.chunk none))
  /-- The remainder chunk, folded up to some layer. -/
  | remainder (hne : plan.remainder ≠ 0) (reached : Nat) :
    Stages hw w plan (chunkPass plan .remainder plan.remainder 1
      (Body.ofChunk hw (.ofTree plan.tree w.subwordWidth hw) plan.padding.nops plan.remainder
        (some reached)))
  /-- A reduction in groups of the widest size that fits, unless its repetitions overflow. -/
  | reduction {layer sums widest : Nat} {l : TreeLayer} (hl : plan.tree.layers[layer]? = some l)
    (hwidest : WidestGroup hw (.ofTree plan.tree w.subwordWidth hw) l sums widest)
    (hlt : (reductionPass hw (.ofTree plan.tree w.subwordWidth hw) plan.tiles layer sums l
      widest).iterations < UInt64.size) :
    Stages hw w plan (reductionPass hw (.ofTree plan.tree w.subwordWidth hw) plan.tiles layer sums l
      widest)
  /-- The tail. -/
  | tail {sums : Nat} {p : Pass}
    (hp : tailPass hw (.ofTree plan.tree w.subwordWidth hw) plan.tiles sums = .ok p) :
    Stages hw w plan p

namespace Plan.Stages

variable {hw : Hardware} {w : Workload} {plan : Plan} {p : Pass}

theorem within (h : plan.Stages hw w p) (hplan : plan.Sound hw w) : p.Within hw := by
  cases h with
  | chunk =>
    exact (Body.sound_ofChunk hplan.limits hplan.sound_reducer hplan.chunk_fits hplan.chunk_pos
      (Nat.le_refl _) (.inr rfl) hplan.chunk_le_registerWords
      hplan.chunk_le_storeEntries).pass_within rfl
  | remainder hne reached =>
    exact (Body.sound_ofChunk hplan.limits hplan.sound_reducer hplan.chunk_fits
      (Nat.pos_of_ne_zero hne) (Nat.le_of_lt hplan.remainder_lt) (.inl hplan.remainder_lt)
      hplan.chunk_le_registerWords hplan.chunk_le_storeEntries).pass_within rfl
  | reduction hl hwidest _ =>
    exact (hwidest.sound_body hplan.limits hplan.sound_reducer hplan.reservedEntries_le
      hl).pass_within rfl
  | tail hp => exact tailPass_within hplan.limits hplan.sound_reducer hplan.packet_le hp

/-- Repetitions are held in a 64-bit register. -/
theorem iterations_lt (h : plan.Stages hw w p) (hplan : plan.Sound hw w) :
    p.iterations < UInt64.size := by
  cases h with
  | chunk | remainder => exact hplan.tiles_lt
  | reduction _ _ hlt => exact hlt
  | tail hp => exact Pass.iterations_lt_of_canStage (tailPass_eq_ok hp).2.2

/-- **Every statement of a staged pass can be written.** -/
theorem written (h : plan.Stages hw w p) (hplan : plan.Sound hw w) :
    ∀ st ∈ p.statements, st.Written :=
  Assembler.written_statements hplan.limits (h.within hplan) (h.iterations_lt hplan)

end Plan.Stages

/-! ### Programs -/

theorem ReductionRun.stages {hw : Hardware} {w : Workload} {plan : Plan} {layer sums : Nat}
    {passes : List Pass}
    (h : ReductionRun hw (.ofTree plan.tree w.subwordWidth hw) plan.tiles layer sums passes) :
    ∀ p ∈ passes, plan.Stages hw w p := by
  induction h with
  | done => simp
  | reduction _ hl hwidest hstaged _ ih =>
    intro p hp
    rcases List.mem_cons.mp hp with rfl | hp
    · exact .reduction hl hwidest (Pass.iterations_lt_of_canStage hstaged)
    · exact ih p hp
  | tail _ _ htail =>
    intro p hp
    obtain rfl := List.mem_singleton.mp hp
    exact .tail htail

namespace Schedule

variable {hw : Hardware} {w : Workload} {s : Schedule}

theorem stages_of_mem_passes (h : make hw w = .ok s) : ∀ p ∈ s.passes, s.plan.Stages hw w p := by
  obtain ⟨rfl, rfl, rest, hmade⟩ := made_of_make h
  intro p hp
  rw [hmade.passes_eq, List.cons_append, List.mem_cons, List.mem_append] at hp
  rcases hp with rfl | hp | hp
  · exact .chunk
  · rw [remainderPasses] at hp
    split at hp
    · simp at hp
    next hne =>
      obtain rfl := List.mem_singleton.mp hp
      exact .remainder hne _
  · exact hmade.reduction_run.stages p hp

/-- The statements before the first pass, and those of the passes. -/
theorem written_of_mem_lines (h : make hw w = .ok s) {st : Statement}
    (hst : Line.statement st ∈ s.lines) : st.Written := by
  obtain ⟨rfl, rfl, rest, hmade⟩ := made_of_make h
  simp only [lines, remark, setup, List.mem_append, List.mem_map, List.mem_flatMap] at hst
  rcases hst with (hst | ⟨st', hst, heq⟩) | ⟨p, hp, hst | ⟨st', hst, heq⟩⟩
  · split at hst <;> simp at hst
  · obtain rfl := Line.statement.inj heq
    simp only [List.mem_cons, List.not_mem_nil, or_false] at hst
    rcases hst with rfl | rfl
    · exact .writeFile (by decide) (by decide) (DataOperand.written_literal _ _)
    · exact .writeFile (by decide) (by decide) DataOperand.written_stream
  · split at hst <;> simp at hst
  · obtain rfl := Line.statement.inj heq
    exact (stages_of_mem_passes h p hp).written hmade.plan_sound st' hst

end Schedule

/-! ### Reading back -/

namespace Statement

/-- **Printing undoes reading.** A statement that some line says is also what its own text says, on
any line. So is every statement of a program that is scheduled, and every statement of a pass that
is staged for a plan, even if the schedule fails later on. -/
theorem text_reads_back :
    (∀ (line : Nat) (text : String) (s : Statement), ofLine line text = .ok (some s) →
      ∀ other, ofLine other s.text = .ok (some s)) ∧
    (∀ (hw : Hardware) (w : Workload) (s : Schedule), Schedule.make hw w = .ok s →
      ∀ st, .statement st ∈ s.lines → ∀ line, ofLine line st.text = .ok (some st)) ∧
    ∀ (hw : Hardware) (w : Workload) (plan : Plan) (p : Pass), Plan.make hw w = .ok plan →
      plan.Stages hw w p → ∀ st ∈ p.statements, ∀ line, ofLine line st.text = .ok (some st) := by
  refine ⟨?_, ?_, ?_⟩
  · intro line text s h other
    exact (written_of_ofLine h).readsBack.ofLine other
  · intro hw w s h st hst line
    exact (Schedule.written_of_mem_lines h hst).readsBack.ofLine line
  · intro hw w plan p h hp st hst line
    exact (hp.written (Plan.sound_of_make h) st hst).readsBack.ofLine line

/-- A line with its own blanks, a hexadecimal number, padded numbers, no index and a comment reads
back from another text; so do the lines of a program with a pass of every kind, and the chunk that
is staged before a reduction turns out not to fit. -/
theorem text_reads_back_spellings_and_programs :
    (∃ s, ofLine 3 "\tPACK  PK8TO012 0X10 VWR_01 ; widen" = .ok (some s) ∧
      s.text = "PACK PK8TO12 16 VWR_1[0]" ∧ ofLine 9 s.text = .ok (some s)) ∧
    (∃ s, Schedule.make { storeEntries := 6 }
        { m := 2, n := 13, q := 8, digitLength := 2 } = .ok s ∧
      s.passes.map (·.kind) = [.chunk, .remainder, .reduction 1 3, .tail] ∧
      ∀ st, .statement st ∈ s.lines → ofLine 1 st.text = .ok (some st)) ∧
    ∃ plan, Plan.make { bufferEntries := 8 }
        { m := 1, n := 2, q := 8, digitLength := 2 } = .ok plan ∧
      (Schedule.make { bufferEntries := 8 }
        { m := 1, n := 2, q := 8, digitLength := 2 }).isOk = false ∧
      ∃ p, plan.Stages { bufferEntries := 8 } { m := 1, n := 2, q := 8, digitLength := 2 } p ∧
        ∀ st ∈ p.statements, ofLine 1 st.text = .ok (some st) := by
  have hline : ofLine 3 "\tPACK  PK8TO012 0X10 VWR_01 ; widen" =
      .ok (some (.instruction { op := .pack ⟨.from8, 16, 0, .vwr 1⟩ })) := by decide +kernel
  have hkinds : (Schedule.make { storeEntries := 6 }
      { m := 2, n := 13, q := 8, digitLength := 2 }).toOption.map (·.passes.map (·.kind)) =
        some [.chunk, .remainder, .reduction 1 3, .tail] := by decide +kernel
  have hchunk : (Plan.make { bufferEntries := 8 }
      { m := 1, n := 2, q := 8, digitLength := 2 }).toOption.map (·.chunk) = some 1 := by
    decide +kernel
  obtain ⟨s, hs, hkinds⟩ := Option.map_eq_some_iff.mp hkinds
  obtain ⟨plan, hplan, -⟩ := Option.map_eq_some_iff.mp hchunk
  have hs := toOption_eq_some_iff.mp hs
  have hplan := toOption_eq_some_iff.mp hplan
  refine ⟨⟨_, hline, by decide +kernel, text_reads_back.1 3 _ _ hline 9⟩, ⟨s, hs, hkinds, ?_⟩,
    plan, hplan, by decide +kernel, _, .chunk, ?_⟩
  · exact fun st hst => text_reads_back.2.1 _ _ s hs st hst 1
  · exact fun st hst => text_reads_back.2.2 _ _ plan _ hplan .chunk st hst 1

end Statement

end NearMemory
