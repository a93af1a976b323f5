import NearMemory.Proofs.RecordedRuns
import NearMemory.Proofs.StreamText

/-!
# The lines of a raw trace

A raw trace has one line for each command: address, direction and payload with tabs between them,
and no third field where there is no payload. Nothing that is written into a field holds a tab or a
line feed. So the text falls apart into its lines and each line into its fields, and both can be
read back: the text says what the trace is.

## Main definitions

* `MemoryAccess.read?` — the command of a line

## Main results

* `MemoryAccess.read?_text` — the line of a command is read back
* `TraceText.foldl_record` — the text after any commands
* `traceText_faithful` — the text determines the commands, and it is the text of those that a run
  collects
-/

namespace NearMemory

open Numeral

/-! ### Fields -/

/-- The direction that a field says. -/
def Direction.read? : List Char → Option Direction
  | ['R', 'D'] => some .read
  | ['W', 'R'] => some .write
  | _ => none

theorem Direction.read?_text (d : Direction) : read? d.text.toList = some d := by
  cases d <;> rfl

namespace MemoryAccess

/-- The command that a line says: address and direction, and whatever words stand behind them. -/
def read? (line : List Char) : Option MemoryAccess :=
  match cutAt (· == '\t') line with
  | address :: direction :: payload =>
    match readHex? address, Direction.read? direction, readRecord (payload.flatMap words) with
    | some address, some direction, .ok payload => some ⟨address, direction, payload⟩
    | _, _, _ => none
  | _ => none

/-- The third field of a line, if there is one. -/
def payloadFields (c : MemoryAccess) : List (List Char) :=
  if c.payload.isEmpty then [] else [(hexWords c.payload).toList]

theorem words_payloadFields (c : MemoryAccess) :
    c.payloadFields.flatMap words = c.payload.map fun w => (hex w.toNat).toList := by
  rw [payloadFields]
  split
  next hempty =>
    rw [List.isEmpty_iff.mp hempty]
    rfl
  next => rw [List.flatMap_singleton, words_hexWords]

/-- **The fields of a line.** No field holds a tab. -/
theorem cutAt_text (c : MemoryAccess) :
    cutAt (· == '\t') c.text.toList =
      (hex c.address.toNat).toList :: c.direction.text.toList :: c.payloadFields := by
  have haddress : ∀ ch ∈ (hex c.address.toNat).toList, (ch == '\t') = false := by
    intro ch hch
    refine beq_false_of_ne ?_
    rintro rfl
    exact absurd (isBlank_of_mem_hex hch) (by decide)
  have hdirection : ∀ ch ∈ c.direction.text.toList, (ch == '\t') = false := by
    cases c.direction <;> simp [Direction.text]
  have hpayload : ∀ ch ∈ (hexWords c.payload).toList, (ch == '\t') = false := by
    intro ch hch
    refine beq_false_of_ne ?_
    rintro rfl
    rcases eq_space_or_of_mem_hexWords c.payload _ hch with h | h
    · exact absurd h (by decide)
    · exact absurd h (by decide)
  rw [text, String.toList_append, String.toList_append, String.toList_append, List.append_assoc,
    List.append_assoc]
  refine (cutAt_append_cons haddress rfl _).trans (congrArg _ ?_)
  rw [payloadFields]
  split
  next => exact (congrArg _ (List.append_nil _)).trans (cutAt_of_forall hdirection)
  next =>
    rw [String.toList_append]
    refine (cutAt_append_cons hdirection rfl _).trans (congrArg _ ?_)
    exact cutAt_of_forall hpayload

/-- **The line of a command is read back.** -/
theorem read?_text (c : MemoryAccess) : read? c.text.toList = some c := by
  simp only [read?, cutAt_text, readHex?_hex, Direction.read?_text, words_payloadFields,
    readRecord_hex]

theorem text_injective : Function.Injective text := by
  intro c d h
  have hread := read?_text c
  rw [h, read?_text] at hread
  exact (Option.some.inj hread).symm

theorem oneLine_text (c : MemoryAccess) : OneLine c.text.toList := by
  have hdirection : OneLine c.direction.text.toList := by
    cases c.direction <;> decide
  rw [text, String.toList_append, String.toList_append, String.toList_append]
  refine (((oneLine_hex _).append (by decide)).append hdirection).append ?_
  split
  next => decide
  next =>
    rw [String.toList_append]
    exact OneLine.append (by decide) (oneLine_hexWords _)

end MemoryAccess

/-! ### Texts -/

/-- The lines of a text of commands. -/
theorem lines_unlines_text (commands : List MemoryAccess) :
    lines (unlines (commands.map MemoryAccess.text)) = commands.map MemoryAccess.text := by
  refine lines_unlines fun l hl => ?_
  obtain ⟨c, -, rfl⟩ := List.mem_map.mp hl
  exact c.oneLine_text

/-- **The text after any commands,** one line for each. -/
theorem TraceText.foldl_record (commands : List MemoryAccess) (t : TraceText) :
    commands.foldl Recorder.record t =
      ⟨t.text ++ unlines (commands.map MemoryAccess.text), t.records + commands.length⟩ := by
  induction commands generalizing t with
  | nil => simp [unlines]
  | cons c rest ih =>
    rw [List.foldl_cons, ih]
    simp only [Recorder.record, unlines, List.map_cons, String.join_cons, List.length_cons,
      String.append_assoc, Nat.add_assoc, Nat.add_comm 1]

/-- **The text of a trace says what the trace is.** Commands are determined by the text that is
written for them. For every source, hardware and streams, a run that writes its trace has the
outcome of the run that collects its commands, also when it fails: its text has the lines of those
commands and no others, and it counts as many. -/
theorem traceText_faithful :
    (∀ commands commands' : List MemoryAccess,
      (commands.foldl Recorder.record ({} : TraceText)).text =
        (commands'.foldl Recorder.record ({} : TraceText)).text → commands = commands') ∧
    ∀ (hw : Hardware) (streams : OperandStreams) (source : String),
      let written := assemble hw streams ({} : TraceText) source
      let collected := assemble hw streams (#[] : Array MemoryAccess) source
      written.2 = collected.2 ∧
        written.1.text = unlines (collected.1.toList.map MemoryAccess.text) ∧
        lines written.1.text = collected.1.toList.map MemoryAccess.text ∧
        written.1.records = collected.1.size := by
  constructor
  · intro commands commands' h
    simp only [TraceText.foldl_record, String.empty_append] at h
    have hlines := congrArg lines h
    rw [lines_unlines_text, lines_unlines_text] at hlines
    exact List.map_injective_iff.mpr MemoryAccess.text_injective hlines
  · intro hw streams source written collected
    have hwritten : written = (collected.1.toList.foldl Recorder.record {}, collected.2) :=
      assemble_recorded hw streams ({} : TraceText) source
    simp only [hwritten, TraceText.foldl_record, String.empty_append, lines_unlines_text,
      Nat.zero_add, Array.length_toList, and_self]

/-- Two instructions are staged, and the execution fails at the second for want of an address. The
three lines written until then say which commands were collected. -/
theorem traceText_faithful_starved_run :
    let source := "WRF IB0\nNOP\nRLB VWR_0 AddrFile\nEXEC\n"
    let written := assemble {} (.ofText "" "") ({} : TraceText) source
    let collected := assemble {} (.ofText "" "") (#[] : Array MemoryAccess) source
    collected.2 = .error (.assembly (.atLine 4 (.exhausted .address))) ∧
      collected.1.toList =
        [⟨0x8000000, .write, [0]⟩, ⟨0x8000002, .write, [0x1000028]⟩, ⟨0, .read, []⟩] ∧
      written.1.text = unlines (collected.1.toList.map MemoryAccess.text) ∧
      written.1.records = collected.1.size :=
  ⟨by decide +kernel, traceText_faithful.1 _ _ (by decide +kernel),
    (traceText_faithful.2 {} _ _).2.1, (traceText_faithful.2 {} _ _).2.2.2⟩

end NearMemory
