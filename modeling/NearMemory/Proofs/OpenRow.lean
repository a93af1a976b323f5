import NearMemory.Proofs.AddressFields
import NearMemory.Proofs.CountedCommands
import NearMemory.Proofs.StagedPrograms

/-!
# The open row

An operation inside the memory needs no address, but its command has one all the same: it goes where
the latest memory access went, so that no other row is opened. The machine remembers that place as a
tuple, and nothing but the next memory access changes it. Jumps back, further executions, staging
and writes to the register files all leave it alone.

The statement is about a whole run, so the visits of all its executions are one history, and the
invariant is that the machine's open row is the one that the history leaves. It needs that no line
fails: an access without data moves the row before it is given up, and no command tells.

## Main definitions

* `latestTouch?` — the latest command of a history that touches memory
* `OpenRow.leftBy` — the row that a history leaves open
* `StaysOpen` — visits whose idle commands stay on the open row
* `Assembler.executedOver` — the visits of all executions of some lines

## Main results

* `Machine.visit_openRow`, `Machine.visitAll_staysOpen` — one visit, and visits in turn
* `Assembler.staysOpen_feed` — all executions of a run
* `Assembler.idle_commands_stay` — where commands that touch no memory go
-/

namespace NearMemory

/-- The latest command whose instruction touches memory. -/
def latestTouch? (visits : List (DecodedEntry × MemoryAccess)) : Option MemoryAccess :=
  (visits.filter (·.1.opcode.access?.isSome)).getLast?.map (·.2)

theorem latestTouch?_concat_of_touches {e : DecodedEntry} (h : e.opcode.access?.isSome)
    (visits : List (DecodedEntry × MemoryAccess)) (c : MemoryAccess) :
    latestTouch? (visits ++ [(e, c)]) = some c := by
  have hlast : [(e, c)].filter (·.1.opcode.access?.isSome) = [(e, c)] := List.filter_cons_of_pos h
  rw [latestTouch?, List.filter_append, hlast, List.getLast?_concat]
  rfl

theorem latestTouch?_concat_of_idle {e : DecodedEntry} (h : e.opcode.access? = none)
    (visits : List (DecodedEntry × MemoryAccess)) (c : MemoryAccess) :
    latestTouch? (visits ++ [(e, c)]) = latestTouch? visits := by
  have hlast : [(e, c)].filter (·.1.opcode.access?.isSome) = [] := by
    refine List.filter_cons_of_neg ?_
    rw [h]
    exact Bool.false_ne_true
  rw [latestTouch?, List.filter_append, hlast, List.append_nil, latestTouch?]

/-- The direction of a command that touches no memory, by that of the latest one that does. -/
def IdleDirection.following (policy : IdleDirection) (latest : Direction) : Direction :=
  match policy with
  | .read => .read
  | .write => .write
  | .inherit => latest

namespace OpenRow

/-- The row that some visits leave open, all rows being closed before them. -/
def leftBy (map : Address.Map) (visits : List (DecodedEntry × MemoryAccess)) : OpenRow :=
  match latestTouch? visits with
  | none => {}
  | some c => ⟨map.ofLinear c.address, c.direction⟩

theorem leftBy_concat_of_touches {e : DecodedEntry} (h : e.opcode.access?.isSome)
    (map : Address.Map) (visits : List (DecodedEntry × MemoryAccess)) (c : MemoryAccess) :
    leftBy map (visits ++ [(e, c)]) = ⟨map.ofLinear c.address, c.direction⟩ := by
  rw [leftBy, latestTouch?_concat_of_touches h]

theorem leftBy_concat_of_idle {e : DecodedEntry} (h : e.opcode.access? = none)
    (map : Address.Map) (visits : List (DecodedEntry × MemoryAccess)) (c : MemoryAccess) :
    leftBy map (visits ++ [(e, c)]) = leftBy map visits := by
  rw [leftBy, latestTouch?_concat_of_idle h, leftBy]

/-- Before the first access the row at the base is open, for reading. -/
theorem leftBy_eq (map : Address.Map) (visits : List (DecodedEntry × MemoryAccess)) :
    leftBy map visits = ⟨map.ofLinear ((latestTouch? visits).elim map.base (·.address)),
      (latestTouch? visits).elim .read (·.direction)⟩ := by
  rw [leftBy]
  cases latestTouch? visits with
  | none => rw [Option.elim_none, Option.elim_none, map.ofLinear_base]
  | some c => rfl

end OpenRow

/-- Visits after a history. A command that touches memory may go anywhere; the others stay on the
row that is open by then. -/
inductive StaysOpen (hw : Hardware) :
    List (DecodedEntry × MemoryAccess) → List (DecodedEntry × MemoryAccess) → Prop
  /-- No visits. -/
  | nil (history : List (DecodedEntry × MemoryAccess)) : StaysOpen hw history []
  /-- A memory access. -/
  | touch {history rest : List (DecodedEntry × MemoryAccess)} {e : DecodedEntry} {c : MemoryAccess}
    (haccess : e.opcode.access? = some c.direction)
    (hrest : StaysOpen hw (history ++ [(e, c)]) rest) : StaysOpen hw history ((e, c) :: rest)
  /-- An operation that does not touch memory. -/
  | idle {history rest : List (DecodedEntry × MemoryAccess)} {e : DecodedEntry} {c : MemoryAccess}
    (haccess : e.opcode.access? = none)
    (haddress : c.address =
      hw.addressMap.toLinear (OpenRow.leftBy hw.addressMap history).position)
    (hdirection : c.direction =
      hw.idleDirection.following (OpenRow.leftBy hw.addressMap history).direction)
    (hrest : StaysOpen hw (history ++ [(e, c)]) rest) : StaysOpen hw history ((e, c) :: rest)

namespace StaysOpen

variable {hw : Hardware} {history visits visits' : List (DecodedEntry × MemoryAccess)}

theorem append (h : StaysOpen hw history visits) (h' : StaysOpen hw (history ++ visits) visits') :
    StaysOpen hw history (visits ++ visits') := by
  induction h with
  | nil history =>
    rw [List.append_nil] at h'
    exact h'
  | touch haccess hrest ih =>
    refine .touch haccess (ih ?_)
    rw [List.append_assoc]
    exact h'
  | idle haccess haddress hdirection hrest ih =>
    refine .idle haccess haddress hdirection (ih ?_)
    rw [List.append_assoc]
    exact h'

/-- Every command that touches no memory stays on the row that the visits before it left open. -/
theorem stays {before after : List (DecodedEntry × MemoryAccess)} {e : DecodedEntry}
    {c : MemoryAccess} (h : StaysOpen hw history (before ++ (e, c) :: after))
    (haccess : e.opcode.access? = none) :
    c.address =
        hw.addressMap.toLinear (OpenRow.leftBy hw.addressMap (history ++ before)).position ∧
      c.direction =
        hw.idleDirection.following
          (OpenRow.leftBy hw.addressMap (history ++ before)).direction := by
  induction before generalizing history with
  | nil =>
    rw [List.append_nil]
    cases h with
    | touch htouch hrest =>
      rw [haccess] at htouch
      contradiction
    | idle _ haddress hdirection hrest => exact ⟨haddress, hdirection⟩
  | cons v before ih =>
    have htail : StaysOpen hw (history ++ [v]) (before ++ (e, c) :: after) := by
      cases h with
      | touch _ hrest => exact hrest
      | idle _ _ _ hrest => exact hrest
    have hlater := ih htail
    rw [List.append_assoc] at hlater
    exact hlater

end StaysOpen

namespace Machine

variable {σ : Type} {hw : Hardware} {line : Nat} {m m' : Machine σ} {e : DecodedEntry}
  {c : MemoryAccess} {history : List (DecodedEntry × MemoryAccess)}

theorem openRow_payload (line : Nat) (operand : Option DataOperand) (m : Machine σ) :
    (m.payload line operand).1.openRow = m.openRow := by
  rcases operand with _ | ⟨words⟩ | _ <;> rfl

/-- A command goes to the open row, or it opens the row that it goes to. -/
theorem locate_openRow {opcode : Opcode} {operand : Option AddressOperand} {address : UInt64}
    {direction : Direction} (h : m.locate hw line opcode operand = (m', .ok (address, direction))) :
    (opcode.access? = some direction ∧
        m'.openRow = ⟨hw.addressMap.ofLinear address, direction⟩) ∨
      (opcode.access? = none ∧ m'.openRow = m.openRow ∧
        address = hw.addressMap.toLinear m.openRow.position ∧
        direction = hw.idleDirection.following m.openRow.direction) := by
  rw [locate] at h
  split at h
  next d haccess =>
    split at h
    next => cases h
    next m₁ address' haddress =>
      obtain ⟨rfl, hresult⟩ := Prod.mk.inj h
      obtain ⟨rfl, rfl⟩ := Prod.mk.inj (Except.ok.inj hresult)
      exact .inl ⟨haccess, rfl⟩
  next haccess =>
    obtain ⟨rfl, hresult⟩ := Prod.mk.inj h
    obtain ⟨rfl, rfl⟩ := Prod.mk.inj (Except.ok.inj hresult)
    exact .inr ⟨haccess, rfl, rfl, rfl⟩

/-- **One visit.** The data of an instruction do not matter for the row. -/
theorem visit_openRow (h : m.visit hw line e.opcode e.instruction = (m', .ok c)) :
    (e.opcode.access? = some c.direction ∧
        m'.openRow = ⟨hw.addressMap.ofLinear c.address, c.direction⟩) ∨
      (e.opcode.access? = none ∧ m'.openRow = m.openRow ∧
        c.address = hw.addressMap.toLinear m.openRow.position ∧
        c.direction = hw.idleDirection.following m.openRow.direction) := by
  rw [visit] at h
  split at h
  next => cases h
  next m₁ address direction hlocate =>
    have hpayload := openRow_payload line e.instruction.data m₁
    split at h
    next => cases h
    next m₂ words heq =>
      obtain ⟨rfl, hresult⟩ := Prod.mk.inj h
      obtain rfl := Except.ok.inj hresult
      rw [heq] at hpayload
      dsimp only at hpayload ⊢
      rw [hpayload]
      exact locate_openRow hlocate

/-- **Visits in turn.** If the open row is the one that a history left, it stays so, with the visits
added to the history. -/
theorem visitAll_staysOpen [Recorder σ] {entries : List DecodedEntry} {count n : Nat}
    (h : m.visitAll hw line entries count = (m', .ok n))
    (hrow : m.openRow = .leftBy hw.addressMap history) :
    ∃ executed, entries = executed.map (·.1) ∧
      m'.trace = (executed.map (·.2)).foldl Recorder.record m.trace ∧
      m'.openRow = .leftBy hw.addressMap (history ++ executed) ∧ StaysOpen hw history executed := by
  induction entries generalizing m count history with
  | nil =>
    obtain rfl := (Prod.mk.inj h).1
    refine ⟨[], rfl, rfl, ?_, .nil history⟩
    rw [List.append_nil, hrow]
  | cons e entries ih =>
    rw [visitAll] at h
    split at h
    next => cases h
    next m₁ c hvisit =>
      have hopen := visit_openRow hvisit
      -- the row after the visit is the one that the longer history leaves
      have hrow₁ : (m₁.record c).openRow = .leftBy hw.addressMap (history ++ [(e, c)]) := by
        rcases hopen with ⟨haccess, hrow₁⟩ | ⟨haccess, hrow₁, -⟩
        · rw [OpenRow.leftBy_concat_of_touches (by rw [haccess]; rfl)]
          exact hrow₁
        · rw [OpenRow.leftBy_concat_of_idle haccess, ← hrow]
          exact hrow₁
      obtain ⟨executed, rfl, htrace, hrow', hstays⟩ := ih h hrow₁
      rw [List.append_assoc] at hrow'
      refine ⟨(e, c) :: executed, rfl, ?_, hrow', ?_⟩
      · rw [htrace, record, trace_of_visit hvisit]
        rfl
      · rcases hopen with ⟨haccess, -⟩ | ⟨haccess, -, haddress, hdirection⟩
        · exact .touch haccess hstays
        · rw [hrow] at haddress hdirection
          exact .idle haccess haddress hdirection hstays

end Machine

namespace Assembler

/-- The lines succeed, one after the other. -/
def Succeeds {σ : Type} [Recorder σ] (a : Assembler σ) : List (Nat × String) → Prop
  | [] => True
  | (number, text) :: rest =>
    (a.line number text).2 = .ok () ∧ Succeeds (a.line number text).1 rest

/-- The visits of all executions of some lines, each with its command. -/
def executedOver (a : Assembler (Array MemoryAccess)) :
    List (Nat × String) → List (DecodedEntry × MemoryAccess)
  | [] => []
  | (number, text) :: rest =>
    a.executedBy number text ++ executedOver (a.line number text).1 rest

theorem succeeds_append {σ : Type} [Recorder σ] {a : Assembler σ} {ls₁ ls₂ : List (Nat × String)} :
    a.Succeeds (ls₁ ++ ls₂) ↔ a.Succeeds ls₁ ∧ (a.feed ls₁).Succeeds ls₂ := by
  induction ls₁ generalizing a with
  | nil => exact (true_and _).symm.to_iff
  | cons l rest ih =>
    rw [List.cons_append, Succeeds, Succeeds, ih, and_assoc]
    rfl

variable {a : Assembler (Array MemoryAccess)} {number : Nat} {text : String}
  {history : List (DecodedEntry × MemoryAccess)}

/-! ### Lines -/

/-- A line that executes nothing keeps the open row. -/
theorem LineStep.openRow_eq {σ : Type} [Recorder σ] {a a' : Assembler σ}
    {result : Except AssemblyError Unit} (h : LineStep a number text a' result)
    (hne : Statement.ofLine number text ≠ .ok (some .execute)) :
    a'.machine.openRow = a.machine.openRow := by
  cases h with
  | looped =>
    rw [Assembler.looped, (loopLoaded_fields ..).2.2.2.2]
    rfl
  | executed hexecute => exact absurd hexecute hne
  | _ => rfl

/-- An execution that succeeds makes all visits, and they stay on the open row. -/
theorem execute_staysOpen (hdec : a.buffer.Decodes) (h : (a.execute number).2 = .ok ())
    (hrow : a.machine.openRow = .leftBy a.hardware.addressMap history) :
    ∃ executed, a.visits = executed.map (·.1) ∧
      (a.execute number).1.machine.trace.toList =
        a.machine.trace.toList ++ executed.map (·.2) ∧
      (a.execute number).1.machine.openRow =
        .leftBy a.hardware.addressMap (history ++ executed) ∧
      StaysOpen a.hardware history executed := by
  obtain ⟨hmachine, hresult⟩ := machine_execute a number
  rw [Machine.execute_eq_visitAll hdec] at hmachine hresult
  cases hall : a.machine.visitAll a.hardware number a.visits 0 with
  | mk m' result =>
    rw [visits] at hall
    rw [hall] at hmachine hresult
    cases result with
    | error fault =>
      rw [hresult] at h
      cases h
    | ok n =>
      obtain ⟨executed, hvisits, htrace, hrow', hstays⟩ := Machine.visitAll_staysOpen hall hrow
      rw [hmachine]
      refine ⟨executed, hvisits, ?_, hrow', hstays⟩
      rw [htrace, toList_foldl_push]

/-- **One line.** If the open row is the one that a history left, it stays so, with the visits of
the line added to the history. -/
theorem line_staysOpen (hdec : a.buffer.Decodes) (h : (a.line number text).2 = .ok ())
    (hrow : a.machine.openRow = .leftBy a.hardware.addressMap history) :
    (a.line number text).1.machine.openRow =
        .leftBy a.hardware.addressMap (history ++ a.executedBy number text) ∧
      StaysOpen a.hardware history (a.executedBy number text) ∧
      (Statement.ofLine number text = .ok (some .execute) →
        (a.executedBy number text).map (·.1) = a.visits ∧
          (a.executedBy number text).map (·.2) = a.recordedSince (a.line number text).1) := by
  by_cases hexecute : Statement.ofLine number text = .ok (some .execute)
  · have hline := line_of_execute (a := a) hexecute
    rw [hline] at h
    obtain ⟨executed, hvisits, htrace, hrow', hstays⟩ := execute_staysOpen hdec h hrow
    have hrecorded : a.recordedSince (a.line number text).1 = executed.map (·.2) := by
      rw [hline]
      exact recordedSince_of_append htrace
    have hexecuted : a.executedBy number text = executed := by
      rw [executedBy, hexecute, hrecorded, hvisits]
      exact (List.zip_of_prod rfl rfl).symm
    rw [hexecuted]
    refine ⟨?_, hstays, fun _ => ⟨hvisits.symm, hrecorded.symm⟩⟩
    rw [hline, hrow']
  · have hnone : a.executedBy number text = [] := by
      rw [executedBy]
      split
      next heq => exact absurd heq hexecute
      next => rfl
    rw [hnone, List.append_nil]
    exact ⟨((lineStep a number text).openRow_eq hexecute).trans hrow, .nil history,
      fun heq => absurd heq hexecute⟩

/-! ### Runs -/

variable (hw : Hardware) (streams : OperandStreams)

/-- The visits of further lines, after lines that left their history. -/
theorem staysOpen_of_succeeds (done : List (Nat × String)) {ls : List (Nat × String)}
    (history : List (DecodedEntry × MemoryAccess))
    (h : ((start hw streams #[]).feed done : Assembler (Array MemoryAccess)).Succeeds ls)
    (hrow : ((start hw streams #[]).feed done : Assembler (Array MemoryAccess)).machine.openRow =
      .leftBy hw.addressMap history) :
    StaysOpen hw history (((start hw streams #[]).feed done).executedOver ls) ∧
      (((start hw streams #[]).feed done).feed ls :
        Assembler (Array MemoryAccess)).machine.openRow =
        .leftBy hw.addressMap (history ++ ((start hw streams #[]).feed done).executedOver ls) := by
  induction ls generalizing done history with
  | nil =>
    rw [executedOver, List.append_nil]
    exact ⟨.nil history, hrow⟩
  | cons l ls ih =>
    obtain ⟨number, text⟩ := l
    have hhw : ((start hw streams #[]).feed done : Assembler (Array MemoryAccess)).hardware = hw :=
      hardware_feed _ done
    have hnext : (((start hw streams #[]).feed done : Assembler (Array MemoryAccess)).line
        number text).1 = (start hw streams #[]).feed (done ++ [(number, text)]) :=
      (feed_append _ done [(number, text)]).symm
    obtain ⟨hrow₁, hstays₁, -⟩ := line_staysOpen (saidBy_feed hw streams #[] done).decodes h.1
      (by rw [hhw]; exact hrow)
    rw [hhw] at hrow₁ hstays₁
    have hrest := h.2
    rw [hnext] at hrow₁ hrest
    obtain ⟨hstays, hrow'⟩ := ih _ _ hrest hrow₁
    rw [executedOver, feed, hnext]
    rw [List.append_assoc] at hrow'
    exact ⟨hstays₁.append hstays, hrow'⟩

/-- **All executions of a run that does not fail.** -/
theorem staysOpen_feed {ls : List (Nat × String)}
    (h : (start hw streams #[] : Assembler (Array MemoryAccess)).Succeeds ls) :
    StaysOpen hw [] ((start hw streams #[]).executedOver ls) ∧
      ((start hw streams #[]).feed ls : Assembler (Array MemoryAccess)).machine.openRow =
        .leftBy
          ((start hw streams #[]).feed ls : Assembler (Array MemoryAccess)).hardware.addressMap
          ((start hw streams #[]).executedOver ls) := by
  rw [hardware_feed]
  exact staysOpen_of_succeeds hw streams [] [] h rfl

/-- **Operations inside the memory stay on the open row.** Take hardware that passes its check
and whose address map names no level twice, and lines that all succeed. Then every execution has one
command for each of its visits, and these are all that it records. A command whose
instruction does not touch memory has the address of the latest earlier one that does, taken back
into the range of the map, and so the same level tuple; before the first access that is the base.
Its direction is the configured one, or that of the latest access. -/
theorem idle_commands_stay (hvalid : hw.violation? = none)
    (hlevels : (hw.addressMap.levels.map Prod.fst).Nodup) (ls : List (Nat × String))
    (hrun : (start hw streams #[] : Assembler (Array MemoryAccess)).Succeeds ls) :
    let a : Assembler (Array MemoryAccess) := start hw streams #[]
    (∀ done number text rest, ls = done ++ (number, text) :: rest →
      Statement.ofLine number text = .ok (some .execute) →
      ((a.feed done).executedBy number text).map (·.1) = (a.feed done).visits ∧
      ((a.feed done).executedBy number text).map (·.2) =
        (a.feed done).recordedSince ((a.feed done).line number text).1) ∧
    ∀ before e c after, a.executedOver ls = before ++ (e, c) :: after → e.opcode.access? = none →
      let latest := latestTouch? before
      let address := latest.elim hw.addressMap.base (·.address)
      c.address = hw.addressMap.base + UInt64.ofNat
        ((address - hw.addressMap.base).toNat % 2 ^ Address.totalWidth hw.addressMap.levels) ∧
      hw.addressMap.ofLinear c.address = hw.addressMap.ofLinear address ∧
      c.direction = match hw.idleDirection with
        | .read => .read
        | .write => .write
        | .inherit => latest.elim .read (·.direction) := by
  intro a
  refine ⟨?_, ?_⟩
  · intro done number text rest hls hexecute
    rw [hls] at hrun
    obtain ⟨hdone, hline, -⟩ := succeeds_append.mp hrun
    have hrow := (staysOpen_feed hw streams hdone).2
    exact (line_staysOpen (saidBy_feed hw streams #[] done).decodes hline hrow).2.2 hexecute
  · intro before e c after hexecuted haccess latest address
    have hstays := (staysOpen_feed hw streams hrun).1
    rw [hexecuted] at hstays
    obtain ⟨haddress, hdirection⟩ := hstays.stays haccess
    rw [List.nil_append, OpenRow.leftBy_eq] at haddress hdirection
    have hwidths := hw.width_lt hvalid
    have htotal := hw.totalWidth_le hvalid
    refine ⟨?_, ?_, hdirection⟩
    · rw [haddress]
      exact Address.Map.toLinear_ofLinear hlevels hwidths htotal address
    · rw [haddress]
      exact Address.Map.ofLinear_toLinear_ofLinear hlevels hwidths htotal address

/-- Two passes and a later execution, with an address below the base. The first move has no access
before it and reads at the base; the second is one span above the address, in the same row; the
third comes in another execution, after a write to the loop register. -/
theorem idle_commands_stay_below_base :
    ∃ (hw : Hardware) (ls : List (Nat × String)) (move store : DecodedEntry),
      hw.addressMap.base = 0x1000 ∧ ls.map (·.2) = ["WRF IB0", "VMV R1 VWR_1[3]",
        "WLB VWR_0 AddrFile", "LOOP 0 1 2", "EXEC", "WRF LR0 0x0", "EXEC"] ∧
      move.opcode.access? = none ∧ store.opcode.access? = some .write ∧
      (start hw (.ofText "" "0x40\n0x1080\n0x40\n") #[]).executedOver ls =
        [(move, ⟨0x1000, .read, []⟩), (store, ⟨0x40, .write, []⟩),
          (move, ⟨0x10000040, .write, []⟩), (store, ⟨0x1080, .write, []⟩),
          (move, ⟨0x1080, .write, []⟩), (store, ⟨0x40, .write, []⟩)] ∧
      (0x10000040 : UInt64) = 0x1000 + UInt64.ofNat ((0x40 - 0x1000 : UInt64).toNat % 2 ^ 28) ∧
      hw.addressMap.ofLinear 0x10000040 = hw.addressMap.ofLinear 0x40 := by
  let hw : Hardware :=
    { idleDirection := .inherit, addressMap := { Address.Map.stock with base := 0x1000 } }
  let ls : List (Nat × String) := [(1, "WRF IB0"), (2, "VMV R1 VWR_1[3]"),
    (3, "WLB VWR_0 AddrFile"), (4, "LOOP 0 1 2"), (5, "EXEC"), (6, "WRF LR0 0x0"), (7, "EXEC")]
  let move : DecodedEntry := ⟨.vmv, ⟨.move ⟨.vmv, 3, .r1, .vwr 1⟩, none, none⟩⟩
  let store : DecodedEntry := ⟨.wlb, ⟨.move ⟨.wlb, 0, .r0, .vwr 0⟩, some .stream, none⟩⟩
  have hrun : (start hw (.ofText "" "0x40\n0x1080\n0x40\n")
      (#[] : Array MemoryAccess)).Succeeds ls := by
    refine ⟨?_, ?_, ?_, ?_, ?_, ?_, ?_, trivial⟩ <;> decide +kernel
  have hexecuted : (start hw (.ofText "" "0x40\n0x1080\n0x40\n") #[]).executedOver ls =
      [(move, ⟨0x1000, .read, []⟩), (store, ⟨0x40, .write, []⟩)] ++
        (move, ⟨0x10000040, .write, []⟩) :: [(store, ⟨0x1080, .write, []⟩),
          (move, ⟨0x1080, .write, []⟩), (store, ⟨0x40, .write, []⟩)] := by
    decide +kernel
  obtain ⟨haddress, hposition, -⟩ := (idle_commands_stay hw _ (by decide) (by decide) ls
    hrun).2 _ move _ _ hexecuted rfl
  exact ⟨hw, ls, move, store, rfl, rfl, rfl, rfl, hexecuted, haddress, hposition⟩

end Assembler

end NearMemory
