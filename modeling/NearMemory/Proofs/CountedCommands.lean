import NearMemory.Proofs.AssemblerRun
import NearMemory.Proofs.LineSteps

/-!
# How commands are counted

Every write counts its command as it records it. An execution records the commands of its visits one
by one, and they are counted together when it has come to its end. So the count keeps up with the
trace as long as no execution fails: what a failing one has recorded before stays in the trace and
is never counted, also not by the lines that follow.

## Main definitions

* `Assembler.uncountedBy`, `Assembler.uncountedFrom` — the commands of executions that fail

## Main results

* `Machine.walk_appends` — a walk appends commands, and gives their number when it ends well
* `Assembler.LineStep.counted` — what a line adds to the count and to the trace
* `Assembler.feed_counted` — the count is that of the trace without the commands of failed
  executions
-/

namespace NearMemory

namespace Machine

variable {σ : Type} {hw : Hardware} {line : Nat}

/-! ### Visits and walks -/

theorem trace_accessAddress (hw : Hardware) (line : Nat) (operand : Option AddressOperand)
    (m : Machine σ) : (m.accessAddress hw line operand).1.trace = m.trace := by
  match operand with
  | none => rfl
  | some (.literal _) => rfl
  | some .stream => rfl

theorem trace_locate (hw : Hardware) (line : Nat) (opcode : Opcode)
    (operand : Option AddressOperand) (m : Machine σ) :
    (m.locate hw line opcode operand).1.trace = m.trace := by
  have haccess := trace_accessAddress hw line operand m
  rw [locate]
  split
  next =>
    split
    next heq => rw [heq] at haccess; exact haccess
    next heq => rw [heq] at haccess; exact haccess
  next => rfl

theorem trace_payload (line : Nat) (operand : Option DataOperand) (m : Machine σ) :
    (m.payload line operand).1.trace = m.trace := by
  match operand with
  | none => rfl
  | some (.literal _) => rfl
  | some .stream => rfl

/-- A visit records nothing by itself. -/
theorem trace_of_visit {opcode : Opcode} {i : Instruction} {m m' : Machine σ}
    {result : Except AssemblyError MemoryAccess} (h : m.visit hw line opcode i = (m', result)) :
    m'.trace = m.trace := by
  have hlocate := trace_locate hw line opcode i.address m
  rw [visit] at h
  split at h
  next m₁ _ heq =>
    obtain rfl := (Prod.mk.inj h).1
    rw [heq] at hlocate
    exact hlocate
  next m₁ _ _ heq =>
    have hpayload := trace_payload line i.data m₁
    rw [heq] at hlocate
    split at h
    next heq' =>
      obtain rfl := (Prod.mk.inj h).1
      rw [heq'] at hpayload
      exact hpayload.trans hlocate
    next heq' =>
      obtain rfl := (Prod.mk.inj h).1
      rw [heq'] at hpayload
      exact hpayload.trans hlocate

/-- A run from `m` on, with `count` commands behind it, appends commands to the trace. When it comes
to its end it gives their number. -/
def Appends (m : Machine (Array MemoryAccess)) (count : Nat)
    (run : Machine (Array MemoryAccess) × Except AssemblyError Nat) : Prop :=
  ∃ commands, run.1.trace.toList = m.trace.toList ++ commands ∧
    ∀ n, run.2 = .ok n → n = count + commands.length

namespace Appends

variable {m m' : Machine (Array MemoryAccess)} {count : Nat}
  {run : Machine (Array MemoryAccess) × Except AssemblyError Nat}

theorem ended (m : Machine (Array MemoryAccess)) (count : Nat) : Appends m count (m, .ok count) :=
  ⟨[], by simp, by simp⟩

theorem failed (h : m'.trace = m.trace) (fault : AssemblyError) :
    Appends m count (m', .error fault) :=
  ⟨[], by simp [h], by simp⟩

/-- A command is recorded, and the rest of the run comes after it. -/
theorem record {command : MemoryAccess} (h : m'.trace = m.trace)
    (hrun : Appends (m'.record command) (count + 1) run) : Appends m count run := by
  obtain ⟨commands, happend, hcount⟩ := hrun
  refine ⟨command :: commands, ?_, ?_⟩
  · have hpush : (m'.record command).trace.toList = m.trace.toList ++ [command] := by
      rw [← h]
      exact Array.toList_push
    rw [happend, hpush, List.append_assoc, List.singleton_append]
  · intro n hn
    rw [hcount n hn, List.length_cons]
    omega

end Appends

/-- **A walk appends commands,** one for each visit that succeeds. -/
theorem walk_appends (hw : Hardware) (buffer : InstrBuffer) (loop : LoopRegister)
    (line remaining pc count : Nat) (m : Machine (Array MemoryAccess)) :
    Appends m count (m.walk hw buffer loop line remaining pc count) := by
  fun_induction walk hw buffer loop line remaining pc count m with
  | case1 => exact .ended _ _
  | case2 => exact .failed rfl _
  | case3 _ _ _ _ _ _ _ _ _ _ hvisit => exact .failed (trace_of_visit hvisit) _
  | case4 _ _ _ _ _ _ _ _ _ _ hvisit => exact (Appends.ended _ _).record (trace_of_visit hvisit)
  | case5 _ _ _ _ _ _ _ _ _ _ hvisit _ _ _ ih => exact ih.record (trace_of_visit hvisit)
  | case6 _ _ _ _ _ _ _ _ _ _ hvisit _ _ _ ih => exact ih.record (trace_of_visit hvisit)

end Machine

namespace Assembler

variable {a a' : Assembler (Array MemoryAccess)} {number : Nat} {text : String}

/-! ### Lines -/

/-- The line executes the buffer, and the execution fails. -/
def FailedExecution (number : Nat) (text : String) (result : Except AssemblyError Unit) : Prop :=
  Statement.ofLine number text = .ok (some .execute) ∧ result ≠ .ok ()

instance (number : Nat) (text : String) (result : Except AssemblyError Unit) :
    Decidable (FailedExecution number text result) := instDecidableAnd

/-- The commands that a line records without counting them: those of an execution that fails. -/
def uncountedBy (a : Assembler (Array MemoryAccess)) (number : Nat) (text : String) :
    List MemoryAccess :=
  if FailedExecution number text (a.line number text).2
    then a.recordedSince (a.line number text).1 else []

/-- The commands that some lines record without counting them. -/
def uncountedFrom (a : Assembler (Array MemoryAccess)) :
    List (Nat × String) → List MemoryAccess
  | [] => []
  | (number, text) :: rest =>
    a.uncountedBy number text ++ uncountedFrom (a.line number text).1 rest

theorem recorded_loopLoaded (a : Assembler (Array MemoryAccess)) (line : Nat)
    (notices : List Notice) (word : UInt64) (loop : LoopRegister) :
    (a.loopLoaded line notices word loop).counters.recorded = a.counters.recorded + 1 := rfl

/-- An execution counts its commands if it succeeds, and none of them if it fails. -/
theorem execute_counted (a : Assembler (Array MemoryAccess)) (number : Nat) :
    ∃ commands, (a.execute number).1.machine.trace.toList = a.machine.trace.toList ++ commands ∧
      (a.execute number).1.counters.recorded =
        a.counters.recorded + if (a.execute number).2 = .ok () then commands.length else 0 := by
  obtain ⟨commands, happend, hcount⟩ := Machine.walk_appends a.hardware a.buffer a.loop number
    (a.loop.iterations - 1) 0 0 a.machine
  rw [execute, Machine.execute]
  split
  next machine fault heq =>
    rw [heq] at happend
    exact ⟨commands, happend, rfl⟩
  next machine n heq =>
    rw [heq] at happend hcount
    refine ⟨commands, happend, ?_⟩
    rw [if_pos rfl, hcount n rfl, Nat.zero_add]

/-- **One line.** It appends commands to the trace, and counts them unless it is an execution that
fails. -/
theorem LineStep.counted {result : Except AssemblyError Unit}
    (h : LineStep a number text a' result) :
    ∃ commands, a'.machine.trace.toList = a.machine.trace.toList ++ commands ∧
      a'.counters.recorded = a.counters.recorded +
        if FailedExecution number text result then 0 else commands.length := by
  cases h with
  | unread | empty | refused | starved | mismatched | selected =>
    refine ⟨[], (List.append_nil _).symm, ?_⟩
    rw [List.length_nil, ite_self]
    rfl
  | staged | written | supplied =>
    refine ⟨[_], Array.toList_push, ?_⟩
    rw [if_neg fun hfailed => hfailed.2 rfl]
    rfl
  | looped =>
    refine ⟨[_], Array.toList_push, ?_⟩
    rw [if_neg fun hfailed => hfailed.2 rfl]
    exact recorded_loopLoaded ..
  | executed h =>
    obtain ⟨commands, happend, hcounted⟩ := execute_counted a number
    refine ⟨commands, happend, hcounted.trans ?_⟩
    by_cases hok : (a.execute number).2 = .ok ()
    · rw [if_pos hok, if_neg fun hfailed => hfailed.2 hok]
    · rw [if_neg hok, if_pos ⟨h, hok⟩]

theorem recordedSince_of_append {commands : List MemoryAccess}
    (h : a'.machine.trace.toList = a.machine.trace.toList ++ commands) :
    a.recordedSince a' = commands := by
  rw [recordedSince, h, ← Array.length_toList, List.drop_left]

/-- The trace and the count after a line. -/
theorem line_counted (a : Assembler (Array MemoryAccess)) (number : Nat) (text : String) :
    a.counters.recorded + (a.line number text).1.machine.trace.size =
      a.machine.trace.size + (a.line number text).1.counters.recorded +
        (a.uncountedBy number text).length := by
  obtain ⟨commands, happend, hcounted⟩ := (lineStep a number text).counted
  have hsize : (a.line number text).1.machine.trace.size =
      a.machine.trace.size + commands.length := by
    rw [← Array.length_toList, happend, List.length_append, Array.length_toList]
  rw [uncountedBy, recordedSince_of_append happend, hsize, hcounted]
  split
  · omega
  · rw [List.length_nil]
    omega

/-- A line leaves nothing uncounted unless it is an execution that fails and has recorded
something. -/
theorem uncountedBy_eq_nil_iff (a : Assembler (Array MemoryAccess)) (number : Nat) (text : String) :
    a.uncountedBy number text = [] ↔
      (FailedExecution number text (a.line number text).2 →
        (a.line number text).1.machine.trace = a.machine.trace) := by
  obtain ⟨commands, happend, -⟩ := (lineStep a number text).counted
  rw [uncountedBy, recordedSince_of_append happend, ← Array.toList_inj, happend]
  split
  next hfailed => simp [hfailed]
  next hfailed => simp [hfailed]

/-! ### Lines in turn -/

theorem feed_counted_from (a : Assembler (Array MemoryAccess)) (ls : List (Nat × String)) :
    a.counters.recorded + (a.feed ls).machine.trace.size =
      a.machine.trace.size + (a.feed ls).counters.recorded + (a.uncountedFrom ls).length := by
  induction ls generalizing a with
  | nil => exact Nat.add_comm ..
  | cons l rest ih =>
    obtain ⟨number, text⟩ := l
    have hline := line_counted a number text
    have hrest := ih (a.line number text).1
    rw [feed, uncountedFrom, List.length_append]
    omega

theorem uncountedFrom_eq_nil_iff (a : Assembler (Array MemoryAccess)) (ls : List (Nat × String)) :
    a.uncountedFrom ls = [] ↔
      ∀ before number text after, ls = before ++ (number, text) :: after →
        FailedExecution number text ((a.feed before).line number text).2 →
        ((a.feed before).line number text).1.machine.trace = (a.feed before).machine.trace := by
  induction ls generalizing a with
  | nil => simp [uncountedFrom]
  | cons l rest ih =>
    obtain ⟨number, text⟩ := l
    rw [uncountedFrom, List.append_eq_nil_iff, uncountedBy_eq_nil_iff, ih]
    constructor
    · rintro ⟨hfirst, hrest⟩ before number' text' after heq
      cases before with
      | nil =>
        obtain ⟨rfl, rfl⟩ := Prod.mk.inj (List.cons.inj heq).1
        exact hfirst
      | cons l before =>
        obtain ⟨rfl, htail⟩ := List.cons.inj heq
        exact hrest before number' text' after htail
    · intro h
      refine ⟨h [] number text rest rfl, ?_⟩
      intro before number' text' after heq
      exact h ((number, text) :: before) number' text' after (by rw [heq]; rfl)

/-- **Commands are counted unless an execution fails.** After any lines, failed ones among them, the
trace has the commands that are counted and those that executions recorded before they failed. So
the count is that of the trace exactly if no execution has failed after it recorded something. -/
theorem feed_counted (hw : Hardware) (streams : OperandStreams) (ls : List (Nat × String)) :
    let a : Assembler (Array MemoryAccess) := start hw streams #[]
    (a.feed ls).machine.trace.size =
        (a.feed ls).counters.recorded + (a.uncountedFrom ls).length ∧
      ((a.feed ls).counters.recorded = (a.feed ls).machine.trace.size ↔
        ∀ before number text after, ls = before ++ (number, text) :: after →
          FailedExecution number text ((a.feed before).line number text).2 →
          ((a.feed before).line number text).1.machine.trace = (a.feed before).machine.trace) := by
  intro a
  have hsize : (a.feed ls).machine.trace.size =
      (a.feed ls).counters.recorded + (a.uncountedFrom ls).length := by
    have hfrom := feed_counted_from a ls
    have hrecorded : a.counters.recorded = 0 := rfl
    have htrace : a.machine.trace.size = 0 := rfl
    omega
  refine ⟨hsize, ?_⟩
  rw [← uncountedFrom_eq_nil_iff, hsize, ← List.length_eq_zero_iff]
  omega

/-- An execution that visits one entry and finds no address for the next: three commands are in the
trace, and two are counted, then and after a further line. -/
theorem feed_uncounted_visit :
    let a : Assembler (Array MemoryAccess) := start {} (.ofText "" "") #[]
    let ls := [(1, "WRF IB0"), (2, "NOP"), (3, "RLB VWR_0 AddrFile"), (4, "EXEC")]
    (a.feed ls).machine.trace.size = 3 ∧ (a.feed ls).counters.recorded = 2 ∧
      (a.feed (ls ++ [(5, "LOOP 0 1 1")])).machine.trace.size = 4 ∧
      (a.feed (ls ++ [(5, "LOOP 0 1 1")])).counters.recorded = 3 := by
  decide +kernel

end Assembler

end NearMemory
