import NearMemory.Assembly
import NearMemory.Proofs.StatementText
import NearMemory.Proofs.WalkOrder

/-!
# Runs of the assembler

A run goes line by line, and what is known of two runs in a row is known of both together.
`Assembler.Ran` collects what counts: that the lines succeed, how many commands they record, how
many operands they take, and what their executions visit.

The commands of an execution are those that its line adds to the trace. Each of them belongs to one
visit, so that a command can be told by the instruction it comes from.

## Main definitions

* `Assembler.executedFrom`, `Assembler.executed` — the visits of all executions of a run, each with
  its command
* `touchedAddresses`, `constantPayloads` — the operands that show in the commands of visits
* `Assembler.Ran` — the effect of some lines

## Main results

* `Assembler.Ran.append` — runs in a row
* `Assembler.ran_remark`, `Assembler.ran_statement` — lines that execute nothing
-/

namespace NearMemory

/-- The addresses of the commands whose instructions touch memory. -/
def touchedAddresses (visits : List (DecodedEntry × MemoryAccess)) : List UInt64 :=
  (visits.filter (·.1.opcode.access?.isSome)).map (·.2.address)

/-- The payloads of the commands whose instructions load a constant. -/
def constantPayloads (visits : List (DecodedEntry × MemoryAccess)) : List (List UInt64) :=
  (visits.filter (·.1.opcode == .glmv)).map (·.2.payload)

theorem touchedAddresses_append (vs ws : List (DecodedEntry × MemoryAccess)) :
    touchedAddresses (vs ++ ws) = touchedAddresses vs ++ touchedAddresses ws := by
  rw [touchedAddresses, List.filter_append, List.map_append]
  rfl

theorem constantPayloads_append (vs ws : List (DecodedEntry × MemoryAccess)) :
    constantPayloads (vs ++ ws) = constantPayloads vs ++ constantPayloads ws := by
  rw [constantPayloads, List.filter_append, List.map_append]
  rfl

namespace Assembler

/-! ### Executions -/

/-- The entries that an execution of the buffer visits, in order. -/
def visits {σ : Type} (a : Assembler σ) : List DecodedEntry :=
  (Machine.programCounters a.hardware a.buffer a.loop).filterMap
    (Machine.entryAt? a.hardware a.buffer)

/-- The commands that a later state has recorded in addition. -/
def recordedSince (a a' : Assembler (Array MemoryAccess)) : List MemoryAccess :=
  a'.machine.trace.toList.drop a.machine.trace.size

/-- The visits of a line, if it executes the buffer, each with the command it recorded. -/
def executedBy (a : Assembler (Array MemoryAccess)) (number : Nat) (text : String) :
    List (DecodedEntry × MemoryAccess) :=
  match Statement.ofLine number text with
  | .ok (some .execute) => a.visits.zip (a.recordedSince (a.line number text).1)
  | _ => []

/-- The visits of all executions of a run of lines, up to the first line that fails. -/
def executedFrom (number : Nat) (a : Assembler (Array MemoryAccess)) :
    List String → List (DecodedEntry × MemoryAccess)
  | [] => []
  | text :: rest =>
    a.executedBy number text ++
      match a.line number text with
      | (_, .error _) => []
      | (a', .ok ()) => executedFrom (number + 1) a' rest

/-- The visits of all executions of a source text. -/
def executed (hw : Hardware) (streams : OperandStreams) (source : String) :
    List (DecodedEntry × MemoryAccess) :=
  executedFrom 1 (start hw streams #[]) (lines source)

/-! ### Runs in a row -/

variable {number : Nat} {a a₁ a₂ : Assembler (Array MemoryAccess)}

theorem linesFrom_append {ls₁ : List String} (h : linesFrom number a ls₁ = (a₁, .ok ()))
    (ls₂ : List String) :
    linesFrom number a (ls₁ ++ ls₂) = linesFrom (number + ls₁.length) a₁ ls₂ := by
  induction ls₁ generalizing number a with
  | nil =>
    obtain rfl := (Prod.mk.inj h).1
    rfl
  | cons text rest ih =>
    rw [linesFrom] at h
    rw [List.cons_append, linesFrom]
    split at h
    next => simp at h
    next a' hline =>
      rw [ih h, List.length_cons]
      congr 1
      omega

theorem executedFrom_append {ls₁ : List String} (h : linesFrom number a ls₁ = (a₁, .ok ()))
    (ls₂ : List String) :
    executedFrom number a (ls₁ ++ ls₂) =
      executedFrom number a ls₁ ++ executedFrom (number + ls₁.length) a₁ ls₂ := by
  induction ls₁ generalizing number a with
  | nil =>
    obtain rfl := (Prod.mk.inj h).1
    rfl
  | cons text rest ih =>
    rw [linesFrom] at h
    rw [List.cons_append, executedFrom, executedFrom]
    split at h
    next => simp at h
    next a' hline =>
      simp only [hline, ih h, List.length_cons, List.append_assoc, Nat.add_assoc, Nat.add_comm 1]

/-- The lines succeed and lead from one state to the other. They record `records` commands, take
`addresses` and `data` operands, and execute the given visits. -/
structure Ran (number : Nat) (ls : List String) (a a' : Assembler (Array MemoryAccess))
    (executed : List (DecodedEntry × MemoryAccess)) (records addresses data : Nat) : Prop where
  run : linesFrom number a ls = (a', .ok ())
  executed_eq : executedFrom number a ls = executed
  size_trace : a'.machine.trace.size = a.machine.trace.size + records
  consumed_addresses : a'.machine.streams.addresses.consumed =
    a.machine.streams.addresses.consumed + addresses
  consumed_data : a'.machine.streams.data.consumed = a.machine.streams.data.consumed + data

theorem Ran.nil (number : Nat) (a : Assembler (Array MemoryAccess)) :
    Ran number [] a a [] 0 0 0 :=
  ⟨rfl, rfl, rfl, rfl, rfl⟩

theorem Ran.append {ls₁ ls₂ : List String}
    {executed₁ executed₂ : List (DecodedEntry × MemoryAccess)}
    {records₁ records₂ addresses₁ addresses₂ data₁ data₂ : Nat}
    (h₁ : Ran number ls₁ a a₁ executed₁ records₁ addresses₁ data₁)
    (h₂ : Ran (number + ls₁.length) ls₂ a₁ a₂ executed₂ records₂ addresses₂ data₂) :
    Ran number (ls₁ ++ ls₂) a a₂ (executed₁ ++ executed₂) (records₁ + records₂)
      (addresses₁ + addresses₂) (data₁ + data₂) where
  run := by rw [linesFrom_append h₁.run, h₂.run]
  executed_eq := by rw [executedFrom_append h₁.run, h₁.executed_eq, h₂.executed_eq]
  size_trace := by rw [h₂.size_trace, h₁.size_trace, Nat.add_assoc]
  consumed_addresses := by rw [h₂.consumed_addresses, h₁.consumed_addresses, Nat.add_assoc]
  consumed_data := by rw [h₂.consumed_data, h₁.consumed_data, Nat.add_assoc]

/-! ### Single lines -/

theorem linesFrom_singleton {text : String} (h : a.line number text = (a₁, .ok ())) :
    linesFrom number a [text] = (a₁, .ok ()) := by
  rw [linesFrom, h]
  rfl

theorem executedFrom_singleton {text : String} (h : a.line number text = (a₁, .ok ())) :
    executedFrom number a [text] = a.executedBy number text := by
  rw [executedFrom, h]
  exact List.append_nil _

theorem ofLine_comment {text : String} {cs : List Char} (htext : text.toList = ';' :: cs)
    (hcs : OneLine cs) (number : Nat) : Statement.ofLine number text = .ok none := by
  rw [Statement.ofLine, Token.scan_comment htext hcs]
  rfl

theorem line_comment {text : String} {cs : List Char} (htext : text.toList = ';' :: cs)
    (hcs : OneLine cs) (number : Nat) (a : Assembler (Array MemoryAccess)) :
    a.line number text = (a, .ok ()) := by
  rw [line, ofLine_comment htext hcs]

/-- A comment does nothing. -/
theorem ran_remark {text : String} {cs : List Char} (htext : text.toList = ';' :: cs)
    (hcs : OneLine cs) (number : Nat) (a : Assembler (Array MemoryAccess)) :
    Ran number [text] a a [] 0 0 0 := by
  have hline := line_comment htext hcs number a
  refine ⟨linesFrom_singleton hline, ?_, rfl, rfl, rfl⟩
  rw [executedFrom_singleton hline, executedBy, ofLine_comment htext hcs]

theorem line_text {s : Statement} (hs : s.ReadsBack) (number : Nat)
    (a : Assembler (Array MemoryAccess)) : a.line number s.text = a.statement number s := by
  rw [line, hs.ofLine]

/-- A statement other than an execution. -/
theorem ran_statement {s : Statement} (hs : s.ReadsBack) (hexecute : s ≠ .execute)
    {records addresses data : Nat} (h : a.statement number s = (a₁, .ok ()))
    (hrecords : a₁.machine.trace.size = a.machine.trace.size + records)
    (haddresses : a₁.machine.streams.addresses.consumed =
      a.machine.streams.addresses.consumed + addresses)
    (hdata : a₁.machine.streams.data.consumed = a.machine.streams.data.consumed + data) :
    Ran number [s.text] a a₁ [] records addresses data := by
  have hline : a.line number s.text = (a₁, .ok ()) := by rw [line_text hs, h]
  refine ⟨linesFrom_singleton hline, ?_, hrecords, haddresses, hdata⟩
  rw [executedFrom_singleton hline, executedBy, hs.ofLine]
  split
  next heq => exact absurd (Option.some.inj (Except.ok.inj heq)) hexecute
  next => rfl

end Assembler

/-! ### Whole runs -/

/-- What comes out of a run on hardware within the limits. -/
theorem assemble_of_linesFrom {hw : Hardware} (h : hw.violation? = none) {streams : OperandStreams}
    {trace : Array MemoryAccess} {source : String} {a : Assembler (Array MemoryAccess)}
    {result : Except AssemblyError Unit}
    (hrun : Assembler.linesFrom 1 (.start hw streams trace) (lines source) = (a, result)) :
    assemble hw streams trace source =
      (a.machine.trace, (result.map fun _ => a.report).mapError .assembly) := by
  rw [assemble, h]
  simp only [Assembler.source, hrun]
  cases result <;> rfl

end NearMemory
