import NearMemory.Proofs.CountedCommands
import NearMemory.Proofs.LineText

/-!
# Longer streams

An operand stream is read from its front, one record at a time, and nothing looks ahead. So a run
cannot tell what stands behind the records it takes, and with longer streams it does the same thing
until the shorter ones end. If they never do, the two runs agree in everything; otherwise the longer
run goes on where the shorter one fails, and what was recorded up to there stands at the front of
its trace.

The two runs are put side by side through `lengthened`, which adds lines at the ends of the streams
and leaves the rest of a state alone: every step commutes with it unless it is starved.

## Main definitions

* `WholeLines` — a text of lines that are all ended
* `Starved` — a run that failed for want of a record
* `Machine.lengthened`, `Assembler.lengthened` — the same state with longer streams

## Main results

* `OperandStream.takeRecord_append` — a record that is there does not depend on what follows
* `Machine.walk_outlasts`, `Assembler.linesFrom_outlasts` — walks and runs of lines
* `assemble_longer_streams` — a trace grows with the streams, and a run that succeeds stays the same
-/

namespace NearMemory

/-- The text is empty, or it ends with a line feed. -/
def WholeLines (text : String) : Prop := text = "" ∨ text.toList.getLast? = some '\n'

instance (text : String) : Decidable (WholeLines text) := instDecidableOr

/-- The run failed because a stream had no record left. -/
def Starved {α : Type} (result : Except AssemblyError α) : Prop :=
  ∃ line kind, result = .error (.atLine line (.exhausted kind))

theorem not_starved_ok {α : Type} (value : α) : ¬ Starved (.ok value : Except AssemblyError α) := by
  rintro ⟨line, kind, h⟩
  simp at h

/-- Whether a run is starved shows in its error. -/
theorem starved_error_iff {α β : Type} {e : AssemblyError} :
    Starved (.error e : Except AssemblyError α) ↔ Starved (.error e : Except AssemblyError β) := by
  simp [Starved]

/-! ### Streams -/

namespace OperandStream

/-- The stream with more lines at its end. -/
def append (c : OperandStream) (more : List StreamLine) : OperandStream :=
  { c with lines := c.lines ++ more }

theorem takeFrom_append {kind : OperandKind} {consumed asmLine line : Nat} {ls : List StreamLine}
    {next : OperandStream} {result : Except AssemblyError (List UInt64)}
    (h : takeFrom kind consumed asmLine line ls = (next, result)) (hfed : ¬ Starved result)
    (more : List StreamLine) :
    takeFrom kind consumed asmLine line (ls ++ more) = (next.append more, result) := by
  induction ls generalizing line with
  | nil =>
    obtain ⟨-, rfl⟩ := Prod.mk.inj h
    exact absurd ⟨asmLine, kind, rfl⟩ hfed
  | cons l rest ih =>
    cases l with
    | notText =>
      obtain ⟨rfl, rfl⟩ := Prod.mk.inj h
      rfl
    | text cs =>
      rw [takeFrom] at h
      rw [List.cons_append, takeFrom]
      split
      next heq =>
        rw [heq] at h
        exact ih h
      next heq =>
        rw [heq] at h
        exact ih h
      next hblank hcomment =>
        split at h
        next heq => exact absurd heq hblank
        next heq => exact absurd heq (hcomment _ _)
        next =>
          split at h
          all_goals
            obtain ⟨rfl, rfl⟩ := Prod.mk.inj h
            rfl

/-- **A record that is there does not depend on what follows it,** and neither does the fault of a
line that holds none. -/
theorem takeRecord_append {c next : OperandStream} {asmLine : Nat}
    {result : Except AssemblyError (List UInt64)} (h : c.takeRecord asmLine = (next, result))
    (hfed : ¬ Starved result) (more : List StreamLine) :
    (c.append more).takeRecord asmLine = (next.append more, result) :=
  takeFrom_append h hfed more

theorem takeWord_append {c next : OperandStream} {asmLine : Nat}
    {result : Except AssemblyError UInt64} (h : c.takeWord asmLine = (next, result))
    (hfed : ¬ Starved result) (more : List StreamLine) :
    (c.append more).takeWord asmLine = (next.append more, result) := by
  rw [takeWord] at h ⊢
  cases htake : c.takeRecord asmLine with
  | mk c' taken =>
    rw [htake] at h
    cases taken with
    | error e =>
      obtain ⟨rfl, rfl⟩ := Prod.mk.inj h
      rw [takeRecord_append htake (mt starved_error_iff.mp hfed)]
    | ok record =>
      rw [takeRecord_append htake (not_starved_ok _)]
      rcases record with _ | ⟨w, _ | ⟨w', rest⟩⟩
      all_goals
        obtain ⟨rfl, rfl⟩ := Prod.mk.inj h
        rfl

/-- A text that is added behind whole lines adds its own lines to the stream. -/
theorem ofText_append {text : String} (h : WholeLines text) (kind : OperandKind) (more : String) :
    ofText kind (text ++ more) =
      (ofText kind text).append ((terminatedBy (· == '\n') more.toList).map .text) := by
  have hlines : ∀ c ∈ text.toList.getLast?, (c == '\n') = true := by
    rcases h with rfl | h
    · simp
    · simp [h]
  rw [ofText, String.toList_append, terminatedBy_append hlines, List.map_append]
  rfl

end OperandStream

/-- The streams with more lines at their ends. -/
def OperandStreams.append (s : OperandStreams) (x y : List StreamLine) : OperandStreams :=
  ⟨s.data.append x, s.addresses.append y⟩

/-! ### Visits and walks -/

namespace Machine

variable {σ : Type} {hw : Hardware} {line : Nat} {m m' : Machine σ}

/-- The machine with more lines at the ends of its streams. -/
def lengthened (m : Machine σ) (x y : List StreamLine) : Machine σ :=
  { m with streams := m.streams.append x y }

theorem accessAddress_lengthened {operand : Option AddressOperand}
    {result : Except AssemblyError UInt64} (h : m.accessAddress hw line operand = (m', result))
    (hfed : ¬ Starved result) (x y : List StreamLine) :
    (m.lengthened x y).accessAddress hw line operand = (m'.lengthened x y, result) := by
  match operand with
  | none | some (.literal _) =>
    obtain ⟨rfl, rfl⟩ := Prod.mk.inj h
    rfl
  | some .stream =>
    obtain ⟨next, hnext⟩ : ∃ next, m.streams.addresses.takeWord line = (next, result) :=
      ⟨_, Prod.ext rfl (Prod.mk.inj h).2⟩
    simp only [accessAddress, hnext] at h
    obtain ⟨rfl, -⟩ := Prod.mk.inj h
    have htake := OperandStream.takeWord_append hnext hfed y
    simp only [accessAddress, lengthened, OperandStreams.append, htake]
    rfl

theorem locate_lengthened {opcode : Opcode} {operand : Option AddressOperand}
    {result : Except AssemblyError (UInt64 × Direction)}
    (h : m.locate hw line opcode operand = (m', result)) (hfed : ¬ Starved result)
    (x y : List StreamLine) :
    (m.lengthened x y).locate hw line opcode operand = (m'.lengthened x y, result) := by
  rw [locate] at h ⊢
  split
  next direction hdirection =>
    rw [hdirection] at h
    cases haccess : m.accessAddress hw line operand with
    | mk m₁ access =>
      rw [haccess] at h
      cases access with
      | error e =>
        obtain ⟨rfl, rfl⟩ := Prod.mk.inj h
        rw [accessAddress_lengthened haccess (mt starved_error_iff.mp hfed)]
      | ok address =>
        obtain ⟨rfl, rfl⟩ := Prod.mk.inj h
        rw [accessAddress_lengthened haccess (not_starved_ok _)]
        rfl
  next hnone =>
    rw [hnone] at h
    obtain ⟨rfl, rfl⟩ := Prod.mk.inj h
    rfl

theorem payload_lengthened {operand : Option DataOperand}
    {result : Except AssemblyError (List UInt64)} (h : m.payload line operand = (m', result))
    (hfed : ¬ Starved result) (x y : List StreamLine) :
    (m.lengthened x y).payload line operand = (m'.lengthened x y, result) := by
  match operand with
  | none | some (.literal _) =>
    obtain ⟨rfl, rfl⟩ := Prod.mk.inj h
    rfl
  | some .stream =>
    obtain ⟨next, hnext⟩ : ∃ next, m.streams.data.takeRecord line = (next, result) :=
      ⟨_, Prod.ext rfl (Prod.mk.inj h).2⟩
    simp only [payload, hnext] at h
    obtain ⟨rfl, -⟩ := Prod.mk.inj h
    have htake := OperandStream.takeRecord_append hnext hfed x
    simp only [payload, lengthened, OperandStreams.append, htake]
    rfl

/-- **A visit with longer streams,** unless it is starved. -/
theorem visit_lengthened {opcode : Opcode} {i : Instruction}
    {result : Except AssemblyError MemoryAccess} (h : m.visit hw line opcode i = (m', result))
    (hfed : ¬ Starved result) (x y : List StreamLine) :
    (m.lengthened x y).visit hw line opcode i = (m'.lengthened x y, result) := by
  rw [visit] at h ⊢
  cases hlocate : m.locate hw line opcode i.address with
  | mk m₁ place =>
    rw [hlocate] at h
    cases place with
    | error e =>
      obtain ⟨rfl, rfl⟩ := Prod.mk.inj h
      rw [locate_lengthened hlocate (mt starved_error_iff.mp hfed)]
    | ok place =>
      rw [locate_lengthened hlocate (not_starved_ok _)]
      dsimp only at h ⊢
      cases hpayload : m₁.payload line i.data with
      | mk m₂ words =>
        rw [hpayload] at h
        cases words with
        | error e =>
          obtain ⟨rfl, rfl⟩ := Prod.mk.inj h
          rw [payload_lengthened hpayload (mt starved_error_iff.mp hfed)]
        | ok words =>
          obtain ⟨rfl, rfl⟩ := Prod.mk.inj h
          rw [payload_lengthened hpayload (not_starved_ok _)]

/-- What comes out with longer streams, beside what comes out with the given ones: the same, or else
the given streams end, and what was recorded until then stands at the front of the longer trace. -/
def Outlasts (x y : List StreamLine)
    (short long : Machine (Array MemoryAccess) × Except AssemblyError Nat) : Prop :=
  long = (short.1.lengthened x y, short.2) ∨
    Starved short.2 ∧ short.1.trace.toList <+: long.1.trace.toList

/-- **A walk with longer streams.** At a visit that is starved the shorter walk ends; the longer one
can only append to what both have recorded. -/
theorem walk_outlasts (hw : Hardware) (buffer : InstrBuffer) (loop : LoopRegister)
    (line remaining pc count : Nat) (m : Machine (Array MemoryAccess)) (x y : List StreamLine) :
    Outlasts x y (m.walk hw buffer loop line remaining pc count)
      ((m.lengthened x y).walk hw buffer loop line remaining pc count) := by
  refine walk_side_by_side (R := fun m m' => m' = m.lengthened x y) rfl ?_ ?_ ?_
    remaining pc count rfl
  · rintro m - count rfl
    exact .inl rfl
  · rintro m - fault rfl
    exact .inl rfl
  · rintro remaining pc count e m - rfl he -
    cases hvisit : m.visit hw line e.opcode e.instruction with
    | mk m₁ result =>
      by_cases hstarved : Starved result
      · obtain ⟨_, _, rfl⟩ := hstarved
        obtain ⟨commands, happend, -⟩ :=
          walk_appends hw buffer loop line remaining pc count (m.lengthened x y)
        right
        right
        rw [walk_of_visit_error he hvisit]
        refine ⟨⟨_, _, rfl⟩, commands, ?_⟩
        rw [happend, trace_of_visit hvisit]
        rfl
      · have hvisit' := visit_lengthened hvisit hstarved x y
        cases result with
        | ok command =>
          exact .inl ⟨m₁, m₁.lengthened x y, command, command, rfl, hvisit', rfl⟩
        | error e =>
          right
          left
          rw [walk_of_visit_error he hvisit, walk_of_visit_error he hvisit']

end Machine

/-! ### Lines -/

namespace Assembler

variable {a : Assembler (Array MemoryAccess)}

/-- The assembler with more lines at the ends of its streams. -/
def lengthened (a : Assembler (Array MemoryAccess)) (x y : List StreamLine) :
    Assembler (Array MemoryAccess) :=
  { a with machine := a.machine.lengthened x y }

/-- What comes out of a line or of several with longer streams. -/
def Outlasts (x y : List StreamLine)
    (short long : Assembler (Array MemoryAccess) × Except AssemblyError Unit) : Prop :=
  long = (short.1.lengthened x y, short.2) ∨
    Starved short.2 ∧ short.1.machine.trace.toList <+: long.1.machine.trace.toList

theorem writeFile_lengthened {a : Assembler (Array MemoryAccess)} {number : Nat}
    {file : RegisterFile} {index : Nat} {values : Option DataOperand}
    (hfed : ¬ Starved (a.writeFile number file index values).2) (x y : List StreamLine) :
    (a.lengthened x y).writeFile number file index values =
      ((a.writeFile number file index values).1.lengthened x y,
        (a.writeFile number file index values).2) := by
  refine writeFile_onMachine (f := fun m => m.lengthened x y) (fun _ _ => rfl) ?_
  rintro hindex rfl
  cases htake : a.machine.streams.data.takeRecord number with
  | mk data result =>
    refine ⟨data, data.append x, result, rfl, ?_, rfl⟩
    refine OperandStream.takeRecord_append htake ?_ x
    cases result with
    | error e =>
      simp only [writeFile, if_pos hindex, htake] at hfed
      exact mt starved_error_iff.mp hfed
    | ok words => exact not_starved_ok words

/-- A statement other than an execution, unless it is starved. -/
theorem statement_lengthened {number : Nat} {s : Statement} (hexecute : s ≠ .execute)
    (hfed : ¬ Starved (a.statement number s).2) (x y : List StreamLine) :
    (a.lengthened x y).statement number s =
      ((a.statement number s).1.lengthened x y, (a.statement number s).2) := by
  refine statement_onMachine (f := fun m => m.lengthened x y) (fun _ _ => rfl) ?_
    (fun h => absurd h hexecute)
  rintro file index values rfl hfile
  rw [statement] at hfed
  · exact writeFile_lengthened hfed x y
  · exact hfile

theorem line_lengthened {number : Nat} {text : String}
    (hexecute : Statement.ofLine number text ≠ .ok (some .execute))
    (hfed : ¬ Starved (a.line number text).2) (x y : List StreamLine) :
    (a.lengthened x y).line number text =
      ((a.line number text).1.lengthened x y, (a.line number text).2) := by
  rw [line] at hfed ⊢
  rw [line]
  split
  next => rfl
  next => rfl
  next s hs =>
    rw [hs] at hfed hexecute
    exact statement_lengthened (fun h => hexecute (by rw [h])) hfed x y

/-- An execution with longer streams. -/
theorem execute_outlasts (a : Assembler (Array MemoryAccess)) (number : Nat)
    (x y : List StreamLine) :
    Outlasts x y (a.execute number) ((a.lengthened x y).execute number) := by
  cases hshort : a.machine.execute a.hardware a.buffer a.loop number with
  | mk m result =>
    have hwalk := Machine.walk_outlasts a.hardware a.buffer a.loop number (a.loop.iterations - 1)
      0 0 a.machine x y
    rw [← Machine.execute, hshort] at hwalk
    rcases hwalk with hlong | ⟨⟨_, _, rfl⟩, hfront⟩
    · exact .inl (execute_onMachine (f := fun m => m.lengthened x y) hshort hlong)
    · right
      rw [(machine_execute (a.lengthened x y) number).1, execute, hshort]
      exact ⟨⟨_, _, rfl⟩, hfront⟩

/-- A line that fails without executing anything records nothing. -/
theorem LineStep.trace_eq_of_error {a' : Assembler (Array MemoryAccess)} {number : Nat}
    {text : String} {result : Except AssemblyError Unit} (h : LineStep a number text a' result)
    (hexecute : Statement.ofLine number text ≠ .ok (some .execute)) (herror : result ≠ .ok ()) :
    a'.machine.trace = a.machine.trace := by
  cases h with
  | unread | refused | starved | mismatched => rfl
  | empty | selected | staged | written | supplied | looped => exact absurd rfl herror
  | executed h => exact absurd h hexecute

/-- **A line with longer streams.** -/
theorem line_outlasts (a : Assembler (Array MemoryAccess)) (number : Nat) (text : String)
    (x y : List StreamLine) :
    Outlasts x y (a.line number text) ((a.lengthened x y).line number text) := by
  by_cases hexecute : Statement.ofLine number text = .ok (some .execute)
  · rw [line_of_execute hexecute, line_of_execute hexecute]
    exact execute_outlasts a number x y
  · by_cases hstarved : Starved (a.line number text).2
    · obtain ⟨commands, happend, -⟩ := (lineStep (a.lengthened x y) number text).counted
      refine .inr ⟨hstarved, commands, ?_⟩
      have herror : (a.line number text).2 ≠ .ok () := fun h => not_starved_ok () (h ▸ hstarved)
      rw [happend, (lineStep a number text).trace_eq_of_error hexecute herror]
      rfl
    · exact .inl (line_lengthened hexecute hstarved x y)

/-! ### Lines in turn -/

theorem fst_linesFrom_cons (number : Nat) (a : Assembler (Array MemoryAccess)) (text : String)
    (rest : List String) :
    (linesFrom number a (text :: rest)).1 =
      match (a.line number text).2 with
      | .error _ => (a.line number text).1
      | .ok () => (linesFrom (number + 1) (a.line number text).1 rest).1 := by
  rw [linesFrom]
  rcases a.line number text with ⟨a', _ | _⟩ <;> rfl

theorem prefix_linesFrom (number : Nat) (a : Assembler (Array MemoryAccess)) (ls : List String) :
    a.machine.trace.toList <+: (linesFrom number a ls).1.machine.trace.toList := by
  induction ls generalizing number a with
  | nil => exact List.prefix_rfl
  | cons text rest ih =>
    obtain ⟨commands, happend, -⟩ := (lineStep a number text).counted
    have hline : a.machine.trace.toList <+: (a.line number text).1.machine.trace.toList :=
      ⟨commands, happend.symm⟩
    rw [fst_linesFrom_cons]
    split
    · exact hline
    · exact hline.trans (ih (number + 1) _)

theorem line_prefix_linesFrom (number : Nat) (a : Assembler (Array MemoryAccess)) (text : String)
    (rest : List String) :
    (a.line number text).1.machine.trace.toList <+:
      (linesFrom number a (text :: rest)).1.machine.trace.toList := by
  rw [fst_linesFrom_cons]
  split
  · exact List.prefix_rfl
  · exact prefix_linesFrom (number + 1) _ rest

/-- **Lines in turn with longer streams.** Where the shorter run is starved it ends, and the longer
one keeps what both have recorded. -/
theorem linesFrom_outlasts (number : Nat) (a : Assembler (Array MemoryAccess)) (ls : List String)
    (x y : List StreamLine) :
    Outlasts x y (linesFrom number a ls) (linesFrom number (a.lengthened x y) ls) := by
  induction ls generalizing number a with
  | nil => exact .inl rfl
  | cons text rest ih =>
    have hline := line_outlasts a number text x y
    cases hshort : a.line number text with
    | mk a₁ result =>
      rw [hshort] at hline
      rcases hline with hlong | ⟨⟨_, _, rfl⟩, hfront⟩
      · rw [linesFrom, linesFrom, hshort, hlong]
        cases result with
        | error e => exact .inl rfl
        | ok _ => exact ih (number + 1) a₁
      · right
        rw [linesFrom, hshort]
        refine ⟨⟨_, _, rfl⟩, ?_⟩
        exact hfront.trans (line_prefix_linesFrom number (a.lengthened x y) text rest)

end Assembler

/-! ### Whole runs -/

/-- **A whole run with longer streams.** -/
theorem assemble_outlasts (hw : Hardware) (streams : OperandStreams) (trace : Array MemoryAccess)
    (source : String) (x y : List StreamLine) :
    assemble hw (streams.append x y) trace source = assemble hw streams trace source ∨
      (assemble hw streams trace source).1.toList <+:
          (assemble hw (streams.append x y) trace source).1.toList ∧
        ∃ line kind, (assemble hw streams trace source).2 =
          .error (.assembly (.atLine line (.exhausted kind))) := by
  cases hviolation : hw.violation? with
  | some e =>
    left
    simp only [assemble, hviolation]
  | none =>
    cases hshort : Assembler.linesFrom 1 (.start hw streams trace) (lines source) with
    | mk a result =>
      cases hlong : Assembler.linesFrom 1 (.start hw (streams.append x y) trace) (lines source) with
      | mk a' result' =>
        have hrun : Assembler.Outlasts x y (a, result) (a', result') := by
          rw [← hshort, ← hlong]
          exact Assembler.linesFrom_outlasts 1 (.start hw streams trace) (lines source) x y
        rw [assemble_of_linesFrom hviolation hshort, assemble_of_linesFrom hviolation hlong]
        rcases hrun with hsame | ⟨⟨line, kind, rfl⟩, hfront⟩
        · obtain ⟨rfl, rfl⟩ := Prod.mk.inj hsame
          exact .inl rfl
        · exact .inr ⟨hfront, line, kind, rfl⟩

theorem OperandStreams.ofText_append {data addresses : String} (hdata : WholeLines data)
    (haddresses : WholeLines addresses) (moreData moreAddresses : String) :
    ∃ x y, ofText (data ++ moreData) (addresses ++ moreAddresses) =
      (ofText data addresses).append x y := by
  rw [ofText, OperandStream.ofText_append hdata, OperandStream.ofText_append haddresses]
  exact ⟨_, _, rfl⟩

/-- **A trace grows with the streams.** For every source, and for every data and address text of
whole lines, a run with anything added to the two texts has the trace of the run without it at the
front of its own, whether or not one of them fails. A run that succeeds does not see what is added:
trace, remarks, counters and the records taken are the same. Nor does a run that fails, unless it is
for want of a record. -/
theorem assemble_longer_streams (hw : Hardware) (trace : Array MemoryAccess) (source : String)
    {data addresses : String} (hdata : WholeLines data) (haddresses : WholeLines addresses)
    (moreData moreAddresses : String) :
    let short := assemble hw (.ofText data addresses) trace source
    let long := assemble hw (.ofText (data ++ moreData) (addresses ++ moreAddresses)) trace source
    short.1.toList <+: long.1.toList ∧
      (∀ report, short.2 = .ok report → long = (short.1, .ok report)) ∧
      ∀ e, short.2 = .error e →
        long = short ∨ ∃ line kind, e = .assembly (.atLine line (.exhausted kind)) := by
  intro short long
  obtain ⟨x, y, hstreams⟩ :=
    OperandStreams.ofText_append hdata haddresses moreData moreAddresses
  have hrun := assemble_outlasts hw (.ofText data addresses) trace source x y
  rw [← hstreams] at hrun
  rcases hrun with hsame | ⟨hfront, line, kind, hstarved⟩
  · replace hsame : long = short := hsame
    rw [hsame]
    exact ⟨List.prefix_rfl, fun report hok => Prod.ext rfl hok, fun e _ => .inl rfl⟩
  · refine ⟨hfront, ?_, ?_⟩
    · intro report hok
      exact absurd (hok.symm.trans hstarved) (by rintro ⟨⟩)
    · intro e he
      exact .inr ⟨line, kind, Except.error.inj (he.symm.trans hstarved)⟩

/-- A loop of two row reads with one address in the stream: the second read is starved. With more
lines behind the first address the run comes to its end. -/
theorem assemble_longer_streams_second_row :
    let source := "WRF IB0\nRLB VWR_0 AddrFile\nNOP EXIT\nLOOP 0 0 2\nEXEC\n"
    let short := assemble {} (.ofText "" "# rows\n0x10\n") (#[] : Array MemoryAccess) source
    let long := assemble {} (.ofText ("" ++ "1 2") ("# rows\n0x10\n" ++ "\n20\n0x30\n"))
      (#[] : Array MemoryAccess) source
    WholeLines "" ∧ WholeLines "# rows\n0x10\n" ∧ short.1.size = 4 ∧ long.1.size = 6 ∧
      short.1.toList <+: long.1.toList := by
  have hdata : WholeLines "" := by decide +kernel
  have haddresses : WholeLines "# rows\n0x10\n" := by decide +kernel
  refine ⟨hdata, haddresses, by decide +kernel, by decide +kernel, ?_⟩
  exact (assemble_longer_streams {} #[] _ hdata haddresses "1 2" "\n20\n0x30\n").1

end NearMemory
