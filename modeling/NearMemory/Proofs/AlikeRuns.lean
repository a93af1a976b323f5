import NearMemory.Proofs.AssemblerRun
import NearMemory.Proofs.LineSteps
import NearMemory.Proofs.StreamText

/-!
# Runs that differ in their operands

Operands show in the commands of a run, and nowhere else: they do not decide which statement comes
next, which entry is visited or how many records are taken. The one exception is a loop register
that is loaded from the data stream. Without it, two runs of the same statements go side by side as
long as their streams hold records of the same lengths, whatever the numbers of the lines are, and
the commands they record agree in everything but the operands.

How much of an operand counts is left open. It is what a function `view` shows of a word: with
the identity the two runs have the same operands and record the same commands, and with a constant
function only the number of operands counts. The commands agree as far as `view` shows them.

## Main definitions

* `MemoryAccess.seen` — what a view shows of a command
* `SameEnd` — two outcomes of the same kind
* `OperandStream.Alike`, `Machine.Alike`, `Assembler.Alike` — states that a view does not tell apart

## Main results

* `Machine.visit_alike`, `Machine.walk_alike` — visits and walks
* `Assembler.statement_alike`, `Assembler.statements_alike` — statements one by one and in turn
-/

namespace NearMemory

variable {β : Type}

/-- What is shown of a command, where `view` is what is shown of a word. -/
def MemoryAccess.seen (view : UInt64 → β) (c : MemoryAccess) : β × Direction × List β :=
  (view c.address, c.direction, c.payload.map view)

/-- The identity shows a command as it is. -/
theorem MemoryAccess.seen_id_injective : Function.Injective (MemoryAccess.seen id) := by
  rintro ⟨address, direction, payload⟩ ⟨address', direction', payload'⟩ h
  simp only [seen, id_eq, List.map_id, Prod.mk.injEq] at h
  obtain ⟨rfl, rfl, rfl⟩ := h
  rfl

/-- What a view shows of the position of an open row depends on what it shows of its address. -/
def RespectsRows (view : UInt64 → β) : Prop :=
  ∀ (map : Address.Map) (address address' : UInt64), view address = view address' →
    view (map.toLinear (map.ofLinear address)) = view (map.toLinear (map.ofLinear address'))

theorem respectsRows_id : RespectsRows id :=
  fun map _ _ h => congrArg (fun address => map.toLinear (map.ofLinear address)) h

theorem respectsRows_const (b : β) : RespectsRows fun _ => b :=
  fun _ _ _ _ => rfl

/-- Two outcomes of the same kind: either both succeed or both fail. -/
inductive SameEnd {S ε α : Type} (R : S → S → Prop) (V : α → α → Prop) :
    S × Except ε α → S × Except ε α → Prop
  /-- Both succeed. -/
  | ok {s s' : S} {v v' : α} (hs : R s s') (hv : V v v') : SameEnd R V (s, .ok v) (s', .ok v')
  /-- Both fail. -/
  | error {s s' : S} {e e' : ε} (hs : R s s') : SameEnd R V (s, .error e) (s', .error e')

theorem SameEnd.mapError {S ε ε' α : Type} {R : S → S → Prop} {V : α → α → Prop}
    {x x' : S × Except ε α} (h : SameEnd R V x x') (f f' : ε → ε') :
    SameEnd R V (x.1, x.2.mapError f) (x'.1, x'.2.mapError f') := by
  cases h with
  | ok hs hv => exact .ok hs hv
  | error hs => exact .error hs

/-! ### Streams -/

namespace OperandStream

/-- Two streams at the same place whose records are shown alike. -/
def Alike (view : UInt64 → β) (c c' : OperandStream) : Prop :=
  ∃ kind line consumed records records',
    c = ofRecords kind line consumed records ∧ c' = ofRecords kind line consumed records' ∧
      (∀ r ∈ records, r ≠ []) ∧ records.map (·.map view) = records'.map (·.map view)

variable {view : UInt64 → β} {c c' : OperandStream}

theorem takeRecord_alike (h : c.Alike view c') (number number' : Nat) :
    SameEnd (Alike view) (fun r r' => r.map view = r'.map view) (c.takeRecord number)
      (c'.takeRecord number') := by
  obtain ⟨kind, line, consumed, records, records', rfl, rfl, hne, hview⟩ := h
  cases records with
  | nil =>
    obtain rfl : records' = [] := by simpa using hview.symm
    exact .error ⟨kind, line, consumed, [], [], rfl, rfl, hne, rfl⟩
  | cons r rest =>
    cases records' with
    | nil => simp at hview
    | cons r' rest' =>
      obtain ⟨hr, hrest⟩ := List.cons.inj hview
      have hr₀ : r ≠ [] := hne r (List.mem_cons_self ..)
      have hr₀' : r' ≠ [] := by
        rintro rfl
        exact hr₀ (List.map_eq_nil_iff.mp hr)
      simp only [takeRecord, ofRecords, List.map_cons, takeFrom_hexWords hr₀,
        takeFrom_hexWords hr₀']
      exact .ok ⟨kind, line + 1, consumed + 1, rest, rest', rfl, rfl,
        fun q hq => hne q (List.mem_cons_of_mem r hq), hrest⟩ hr

theorem takeWord_alike (h : c.Alike view c') (number number' : Nat) :
    SameEnd (Alike view) (fun w w' => view w = view w') (c.takeWord number)
      (c'.takeWord number') := by
  have htake := takeRecord_alike h number number'
  rw [takeWord, takeWord]
  generalize c.takeRecord number = x at htake ⊢
  generalize c'.takeRecord number' = x' at htake ⊢
  cases htake with
  | error hs => exact .error hs
  | @ok s s' r r' hs hv =>
    -- As many words in one record as in the other.
    rcases r with _ | ⟨w, _ | ⟨_, _⟩⟩ <;> rcases r' with _ | ⟨w', _ | ⟨_, _⟩⟩
    case cons.nil.cons.nil => exact .ok hs (List.cons.inj hv).1
    case nil.nil => exact .error hs
    case cons.cons.cons.cons => exact .error hs
    all_goals simp at hv

end OperandStream

/-! ### Visits and walks -/

namespace Machine

/-- Two machines with the same recent direction whose streams, open rows and traces are shown
alike. -/
structure Alike (map : Address.Map) (view : UInt64 → β) (m m' : Machine (Array MemoryAccess)) :
    Prop where
  data : m.streams.data.Alike view m'.streams.data
  addresses : m.streams.addresses.Alike view m'.streams.addresses
  position : view (map.toLinear m.openRow.position) = view (map.toLinear m'.openRow.position)
  direction : m.openRow.direction = m'.openRow.direction
  trace : m.trace.map (·.seen view) = m'.trace.map (·.seen view)

variable {view : UInt64 → β} {hw : Hardware} {m m' : Machine (Array MemoryAccess)}

theorem Alike.record {map : Address.Map} {c c' : MemoryAccess} (h : m.Alike map view m')
    (hc : c.seen view = c'.seen view) : (m.record c).Alike map view (m'.record c') where
  data := h.data
  addresses := h.addresses
  position := h.position
  direction := h.direction
  trace := by
    show (m.trace.push c).map _ = (m'.trace.push c').map _
    rw [Array.map_push, Array.map_push, h.trace, hc]

theorem accessAddress_alike (h : m.Alike hw.addressMap view m') (number number' : Nat)
    (seed : UInt64) (operand : Option AddressOperand) :
    SameEnd (Alike hw.addressMap view) (fun w w' => view w = view w')
      (m.accessAddress hw number operand) (m'.accessAddress { hw with seed } number' operand) := by
  match operand with
  | none => exact .ok h h.position
  | some (.literal _) => exact .ok h rfl
  | some .stream =>
    have htake := OperandStream.takeWord_alike h.addresses number number'
    simp only [accessAddress]
    generalize m.streams.addresses.takeWord number = x at htake ⊢
    generalize m'.streams.addresses.takeWord number' = x' at htake ⊢
    cases htake with
    | ok hs hv => exact .ok ⟨h.data, hs, h.position, h.direction, h.trace⟩ hv
    | error hs => exact .error ⟨h.data, hs, h.position, h.direction, h.trace⟩

theorem locate_alike (hview : RespectsRows view) (h : m.Alike hw.addressMap view m')
    (number number' : Nat) (seed : UInt64) (opcode : Opcode) (operand : Option AddressOperand) :
    SameEnd (Alike hw.addressMap view) (fun p p' => view p.1 = view p'.1 ∧ p.2 = p'.2)
      (m.locate hw number opcode operand) (m'.locate { hw with seed } number' opcode operand) := by
  rw [locate, locate]
  cases opcode.access? with
  | some direction =>
    have haccess := accessAddress_alike h number number' seed operand
    dsimp only
    generalize m.accessAddress hw number operand = x at haccess ⊢
    generalize m'.accessAddress { hw with seed } number' operand = x' at haccess ⊢
    cases haccess with
    | ok hs hv => exact .ok ⟨hs.data, hs.addresses, hview _ _ _ hv, rfl, hs.trace⟩ ⟨hv, rfl⟩
    | error hs => exact .error hs
  | none =>
    refine .ok h ⟨h.position, ?_⟩
    dsimp only
    rw [h.direction]

theorem payload_alike {map : Address.Map} (h : m.Alike map view m') (number number' : Nat)
    (operand : Option DataOperand) :
    SameEnd (Alike map view) (fun r r' => r.map view = r'.map view) (m.payload number operand)
      (m'.payload number' operand) := by
  match operand with
  | none => exact .ok h rfl
  | some (.literal _) => exact .ok h rfl
  | some .stream =>
    have htake := OperandStream.takeRecord_alike h.data number number'
    simp only [payload]
    generalize m.streams.data.takeRecord number = x at htake ⊢
    generalize m'.streams.data.takeRecord number' = x' at htake ⊢
    cases htake with
    | ok hs hv => exact .ok ⟨hs, h.addresses, h.position, h.direction, h.trace⟩ hv
    | error hs => exact .error ⟨hs, h.addresses, h.position, h.direction, h.trace⟩

/-- **Visits side by side.** -/
theorem visit_alike (hview : RespectsRows view) (h : m.Alike hw.addressMap view m')
    (number number' : Nat) (seed : UInt64) (opcode : Opcode) (i : Instruction) :
    SameEnd (Alike hw.addressMap view) (fun c c' => c.seen view = c'.seen view)
      (m.visit hw number opcode i) (m'.visit { hw with seed } number' opcode i) := by
  have hlocate := locate_alike hview h number number' seed opcode i.address
  rw [visit, visit]
  generalize m.locate hw number opcode i.address = x at hlocate ⊢
  generalize m'.locate { hw with seed } number' opcode i.address = x' at hlocate ⊢
  cases hlocate with
  | error hs => exact .error hs
  | @ok m₁ m₁' p p' hs hv =>
    have hpayload := payload_alike hs number number' i.data
    dsimp only
    generalize m₁.payload number i.data = x at hpayload ⊢
    generalize m₁'.payload number' i.data = x' at hpayload ⊢
    cases hpayload with
    | ok hs' hv' => exact .ok hs' (Prod.ext hv.1 (Prod.ext hv.2 hv'))
    | error hs' => exact .error hs'

/-- **Walks side by side.** -/
theorem walk_alike (hview : RespectsRows view) (h : m.Alike hw.addressMap view m')
    (number number' : Nat) (seed : UInt64) (buffer : InstrBuffer) (loop : LoopRegister)
    (remaining pc count : Nat) :
    SameEnd (Alike hw.addressMap view) Eq (m.walk hw buffer loop number remaining pc count)
      (m'.walk { hw with seed } buffer loop number' remaining pc count) := by
  have hentries : ({ hw with seed } : Hardware).bufferEntries = hw.bufferEntries := rfl
  refine walk_side_by_side (R := Alike hw.addressMap view) hentries ?_ ?_ ?_ remaining pc count h
  · intro m m' count h
    exact .ok h rfl
  · intro m m' fault h
    exact .error h
  · intro remaining pc count e m m' h he he'
    have hvisit := visit_alike hview h number number' seed e.opcode e.instruction
    cases hx : m.visit hw number e.opcode e.instruction with
    | mk m₁ result =>
      cases hx' : m'.visit { hw with seed } number' e.opcode e.instruction with
      | mk m₁' result' =>
        rw [hx, hx'] at hvisit
        cases hvisit with
        | ok hs hv => exact .inl ⟨_, _, _, _, rfl, rfl, hs.record hv⟩
        | error hs =>
          right
          rw [walk_of_visit_error he hx, walk_of_visit_error he' hx']
          exact .error hs

end Machine

/-! ### Statements -/

/-- The statement does not load the loop register from the data stream. -/
def Statement.KeepsLoop (s : Statement) : Prop :=
  ∀ index, s ≠ .writeFile .loopRegister index (some .stream)

namespace Assembler

/-- The assembler with other remarks and another machine, on hardware with another seed. -/
def variant (a : Assembler (Array MemoryAccess)) (seed : UInt64) (diagnostics : Array Diagnostic)
    (machine : Machine (Array MemoryAccess)) : Assembler (Array MemoryAccess) :=
  { a with hardware := { a.hardware with seed }, diagnostics, machine }

/-- Two assemblers that differ in their remarks, in the seed and in what is not shown of their
machines. -/
def Alike (view : UInt64 → β) (a a' : Assembler (Array MemoryAccess)) : Prop :=
  ∃ seed diagnostics machine, a' = a.variant seed diagnostics machine ∧
    a.machine.Alike a.hardware.addressMap view machine

variable {view : UInt64 → β} {a a' : Assembler (Array MemoryAccess)}

namespace Alike

theorem mode_eq (h : a.Alike view a') : a'.mode = a.mode := by
  obtain ⟨seed, diagnostics, machine, rfl, -⟩ := h
  rfl

theorem bufferEntries_eq (h : a.Alike view a') :
    a'.hardware.bufferEntries = a.hardware.bufferEntries := by
  obtain ⟨seed, diagnostics, machine, rfl, -⟩ := h
  rfl

theorem capacity_eq (h : a.Alike view a') (file : RegisterFile) :
    a'.hardware.capacity file = a.hardware.capacity file := by
  obtain ⟨seed, diagnostics, machine, rfl, -⟩ := h
  cases file <;> rfl

theorem data (h : a.Alike view a') :
    a.machine.streams.data.Alike view a'.machine.streams.data := by
  obtain ⟨seed, diagnostics, machine, rfl, hm⟩ := h
  exact hm.data

theorem withData (h : a.Alike view a') {data data' : OperandStream}
    (hdata : data.Alike view data') : (a.withData data).Alike view (a'.withData data') := by
  obtain ⟨seed, diagnostics, machine, rfl, hm⟩ := h
  exact ⟨seed, diagnostics, _, rfl, hdata, hm.addresses, hm.position, hm.direction, hm.trace⟩

theorem selected (h : a.Alike view a') (index : Nat) :
    Alike view { a with mode := .staging index } { a' with mode := .staging index } := by
  obtain ⟨seed, diagnostics, machine, rfl, hm⟩ := h
  exact ⟨seed, diagnostics, machine, rfl, hm⟩

theorem entered (h : a.Alike view a') (number number' next : Nat) (i : Instruction) :
    (a.entered number next i).Alike view (a'.entered number' next i) := by
  obtain ⟨seed, diagnostics, machine, rfl, hm⟩ := h
  exact ⟨seed, _, _, rfl, hm.record rfl⟩

theorem loaded (h : a.Alike view a') (file : RegisterFile) (index : Nat) (words : List UInt64) :
    (a.loaded file index words).Alike view (a'.loaded file index words) := by
  obtain ⟨seed, diagnostics, machine, rfl, hm⟩ := h
  exact ⟨seed, diagnostics, _, rfl, hm.record rfl⟩

/-- Words that are only shown alike must not go to the loop register. -/
theorem supplied (h : a.Alike view a') {file : RegisterFile} (hfile : file ≠ .loopRegister)
    (index : Nat) {words words' : List UInt64} (hwords : words.map view = words'.map view) :
    (a.loaded file index words).Alike view (a'.loaded file index words') := by
  obtain ⟨seed, diagnostics, machine, rfl, hm⟩ := h
  refine ⟨seed, diagnostics,
    machine.record ⟨a.hardware.addressMap.registerFile file index, .write, words'⟩, ?_,
    hm.record (Prod.ext rfl (Prod.ext rfl hwords))⟩
  simp only [Assembler.loaded, if_neg hfile]
  rfl

theorem loopLoaded (h : a.Alike view a') (number number' : Nat) (notices : List Notice)
    (word : UInt64) (loop : LoopRegister) :
    (a.loopLoaded number notices word loop).Alike view
      (a'.loopLoaded number' notices word loop) := by
  obtain ⟨seed, diagnostics, machine, rfl, hm⟩ := h
  exact ⟨seed, _, _, rfl, hm.record rfl⟩

end Alike

theorem select_alike (h : a.Alike view a') (index : Nat) :
    SameEnd (Alike view) Eq (a.select index) (a'.select index) := by
  rw [select, select, h.bufferEntries_eq]
  split
  · exact .ok (h.selected index) rfl
  · exact .error h

theorem stage_alike (h : a.Alike view a') (number number' : Nat) (i : Instruction) :
    SameEnd (Alike view) Eq (a.stage number i) (a'.stage number' i) := by
  rw [stage_eq, stage_eq, h.mode_eq, h.bufferEntries_eq]
  split
  · exact .error h
  · split
    · exact .ok (h.entered ..) rfl
    · exact .error h

theorem writeLoop_alike (h : a.Alike view a') (number number' : Nat) (loop : LoopRegister) :
    SameEnd (Alike view) Eq (a.writeLoop number loop) (a'.writeLoop number' loop) := by
  rw [writeLoop_eq, writeLoop_eq, h.bufferEntries_eq, looped, looped]
  split
  · exact .error h
  · split
    · exact .error h
    · exact .ok (h.loopLoaded ..) rfl

/-- A write, unless its words come from the stream and load the loop register. -/
theorem writeFile_alike (h : a.Alike view a') (number number' : Nat) {file : RegisterFile}
    (index : Nat) {values : Option DataOperand}
    (hvalues : file = .loopRegister → values ≠ some .stream) :
    SameEnd (Alike view) Eq (a.writeFile number file index values)
      (a'.writeFile number' file index values) := by
  unfold writeFile
  simp only [h.capacity_eq file]
  split
  · match values with
    | none => exact .error h
    | some (.literal words) =>
      refine SameEnd.mapError ?_ (AssemblyError.atLine number) (AssemblyError.atLine number')
      rw [writeWords_eq, writeWords_eq]
      split
      · exact .ok (h.loaded file index words) rfl
      · exact .error h
    | some .stream =>
      have hfile : file ≠ .loopRegister := fun hfile => hvalues hfile rfl
      have htake := OperandStream.takeRecord_alike h.data number number'
      generalize a.machine.streams.data.takeRecord number = x at htake ⊢
      generalize a'.machine.streams.data.takeRecord number' = x' at htake ⊢
      cases htake with
      | error hs => exact .error (h.withData hs)
      | @ok data data' words words' hs hv =>
        have hlength : words'.length = words.length := by
          simpa using congrArg List.length hv.symm
        have hwritten : SameEnd (Alike view) Eq ((a.withData data).writeWords file index words)
            ((a'.withData data').writeWords file index words') := by
          rw [writeWords_eq, writeWords_eq, hlength]
          split
          · exact .ok ((h.withData hs).supplied hfile index hv) rfl
          · exact .error (h.withData hs)
        exact hwritten.mapError (AssemblyError.atLine number) (AssemblyError.atLine number')
  · exact .error h

theorem execute_alike (hview : RespectsRows view) (h : a.Alike view a') (number number' : Nat) :
    SameEnd (Alike view) Eq (a.execute number) (a'.execute number') := by
  obtain ⟨seed, diagnostics, machine, rfl, hm⟩ := h
  have hwalk : SameEnd (Machine.Alike a.hardware.addressMap view) Eq
      (a.machine.execute a.hardware a.buffer a.loop number)
      ((a.variant seed diagnostics machine).machine.execute
        (a.variant seed diagnostics machine).hardware (a.variant seed diagnostics machine).buffer
        (a.variant seed diagnostics machine).loop number') :=
    Machine.walk_alike hview hm number number' seed a.buffer a.loop (a.loop.iterations - 1) 0 0
  rw [execute, execute]
  generalize a.machine.execute a.hardware a.buffer a.loop number = x at hwalk ⊢
  generalize (a.variant seed diagnostics machine).machine.execute
    (a.variant seed diagnostics machine).hardware (a.variant seed diagnostics machine).buffer
    (a.variant seed diagnostics machine).loop number' = x' at hwalk ⊢
  cases hwalk with
  | error hs => exact .error ⟨seed, diagnostics, _, rfl, hs⟩
  | ok hs hv =>
    subst hv
    exact .ok ⟨seed, diagnostics, _, rfl, hs⟩ rfl

/-- **Statements side by side,** one by one. -/
theorem statement_alike (hview : RespectsRows view) (h : a.Alike view a') (number number' : Nat)
    {s : Statement} (hs : s.KeepsLoop) :
    SameEnd (Alike view) Eq (a.statement number s) (a'.statement number' s) := by
  cases s with
  | writeFile file index values =>
    by_cases hfile : file = .instrBuffer
    · subst hfile
      exact (select_alike h index).mapError _ _
    · rw [statement, statement]
      · refine writeFile_alike h number number' index fun hloop hstream => hs index ?_
        rw [hloop, hstream]
      · exact hfile
      · exact hfile
  | instruction i => exact (stage_alike h number number' i).mapError _ _
  | writeLoop loop => exact (writeLoop_alike h number number' loop).mapError _ _
  | execute => exact execute_alike hview h number number'

/-! ### Statements in turn -/

/-- Statements in turn, each with the number of its line, up to the first that fails. -/
def statements (a : Assembler (Array MemoryAccess)) :
    List (Nat × Statement) → Assembler (Array MemoryAccess) × Except AssemblyError Unit
  | [] => (a, .ok ())
  | (number, s) :: rest =>
    match a.statement number s with
    | (a, .error e) => (a, .error e)
    | (a, .ok ()) => statements a rest

/-- **Statements side by side,** in turn. The numbers of their lines do not matter. -/
theorem statements_alike (hview : RespectsRows view) (h : a.Alike view a')
    {ps ps' : List (Nat × Statement)} (hps : ps.map (·.2) = ps'.map (·.2))
    (hloop : ∀ p ∈ ps, p.2.KeepsLoop) :
    SameEnd (Alike view) Eq (a.statements ps) (a'.statements ps') := by
  induction ps generalizing a a' ps' with
  | nil =>
    obtain rfl : ps' = [] := by simpa using hps.symm
    exact .ok h rfl
  | cons p rest ih =>
    cases ps' with
    | nil => simp at hps
    | cons p' rest' =>
      obtain ⟨number, s⟩ := p
      obtain ⟨number', s'⟩ := p'
      obtain ⟨rfl, hrest⟩ := List.cons.inj hps
      have hstatement := statement_alike hview h number number' (hloop _ (List.mem_cons_self ..))
      rw [statements, statements]
      dsimp only at hstatement
      generalize a.statement number s = x at hstatement ⊢
      generalize a'.statement number' s = x' at hstatement ⊢
      cases hstatement with
      | ok hs hv => exact ih hs hrest fun q hq => hloop q (List.mem_cons_of_mem _ hq)
      | error hs => exact .error hs

end Assembler

end NearMemory
