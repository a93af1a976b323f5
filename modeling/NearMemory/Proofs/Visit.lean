import NearMemory.Machine
import NearMemory.Proofs.StreamSupply

/-!
# Visiting entries in turn

A walk decides which entries it visits from the packed words alone, and each visit then takes its
operands from the streams. This module is about the second half: a list of entries is given, they
are visited one after the other, and the streams hold enough records for all of them.

The step lemma `visit_of_fed` says what one visit takes and records; the run lemma
`visitAll_of_fed` says the same of a list of visits, by induction. Neither looks at a program
counter.

## Main definitions

* `DecodedEntry` — what a walk sees at an entry
* `Machine.visitAll` — visit a list of entries
* `Machine.Fed` — a machine whose streams supply given operands
* `Machine.Visited` — the effect of visits: one command each, with the operands in order

## Main results

* `Machine.visit_of_fed`, `Machine.visitAll_of_fed` — visits of a fed machine succeed
-/

namespace NearMemory

/-- What a walk sees at an entry: the opcode in the packed word, and the instruction, which has the
operands of a memory access. -/
structure DecodedEntry where
  /-- The opcode in the packed word. -/
  opcode : Opcode
  /-- The instruction that was staged. -/
  instruction : Instruction
  deriving DecidableEq, Repr

namespace DecodedEntry

/-- Whether a visit takes a record from the address stream. An operation that does not touch memory
leaves an address operand alone. -/
def takesAddress (e : DecodedEntry) : Bool :=
  e.opcode.access?.isSome && e.instruction.readsAddress

/-- Whether a visit takes a record from the data stream. -/
def takesData (e : DecodedEntry) : Bool := e.instruction.readsData

end DecodedEntry

namespace Machine

variable {σ : Type}

/-- Visit entries in turn, with `count` commands before them. The first visit that fails ends the
run. -/
def visitAll [Recorder σ] (hw : Hardware) (line : Nat) :
    List DecodedEntry → Nat → Machine σ → Machine σ × Except AssemblyError Nat
  | [], count, m => (m, .ok count)
  | e :: rest, count, m =>
    match m.visit hw line e.opcode e.instruction with
    | (m, .error fault) => (m, .error fault)
    | (m, .ok command) => visitAll hw line rest (count + 1) (m.record command)

/-- The streams of a machine supply these operands, and maybe more. -/
structure Fed (m : Machine σ) (addresses : List UInt64) (data : List (List UInt64)) : Prop where
  /-- The address stream, one word a record. -/
  addresses : m.streams.addresses.Supplies (addresses.map ([·]))
  /-- The data stream. -/
  data : m.streams.data.Supplies data

/-- The effect of visiting some entries, where `addresses` and `data` are the operands taken. -/
structure Visited [Recorder σ] (entries : List DecodedEntry) (addresses : List UInt64)
    (data : List (List UInt64)) (m m' : Machine σ) (commands : List MemoryAccess) : Prop where
  /-- Every visit records one command. -/
  length_commands : commands.length = entries.length
  /-- The commands are recorded in order. -/
  trace : m'.trace = commands.foldl Recorder.record m.trace
  /-- The addresses taken are those of the commands, in order. -/
  addresses_commands :
    ((entries.zip commands).filter (·.1.takesAddress)).map (·.2.address) = addresses
  /-- The data taken are the payloads of the commands, in order. -/
  payloads_commands :
    ((entries.zip commands).filter (·.1.takesData)).map (·.2.payload) = data
  /-- Every address taken is counted. -/
  consumed_addresses :
    m'.streams.addresses.consumed = m.streams.addresses.consumed + addresses.length
  /-- Every data record taken is counted. -/
  consumed_data : m'.streams.data.consumed = m.streams.data.consumed + data.length

/-! ### One visit -/

/-- A memory access takes an address exactly if its operand is the stream. -/
theorem accessAddress_of_fed {m : Machine σ} {operand : Option AddressOperand}
    {taken rest : List UInt64} {data : List (List UInt64)} (h : m.Fed (taken ++ rest) data)
    (htaken : taken.length = if operand == some .stream then 1 else 0) (hw : Hardware)
    (line : Nat) :
    ∃ m' address, m.accessAddress hw line operand = (m', .ok address) ∧ m'.Fed rest data ∧
      m'.trace = m.trace ∧ m'.openRow = m.openRow ∧ (operand = some .stream → taken = [address]) ∧
      m'.streams.addresses.consumed = m.streams.addresses.consumed + taken.length ∧
      m'.streams.data = m.streams.data := by
  match operand with
  | some .stream =>
    obtain ⟨address, rfl⟩ := List.length_eq_one_iff.mp htaken
    obtain ⟨next, htake, hnext, hcount⟩ := h.addresses.takeWord line
    refine ⟨m.withAddresses next, address, ?_, ⟨hnext, h.data⟩, rfl, rfl, fun _ => rfl, hcount, rfl⟩
    rw [accessAddress, htake]
  | some (.literal address) =>
    obtain rfl := List.eq_nil_of_length_eq_zero htaken
    exact ⟨m, address, rfl, h, rfl, rfl, by simp, rfl, rfl⟩
  | none =>
    obtain rfl := List.eq_nil_of_length_eq_zero htaken
    exact ⟨m, _, rfl, h, rfl, rfl, by simp, rfl, rfl⟩

theorem locate_of_fed {m : Machine σ} {e : DecodedEntry} {taken rest : List UInt64}
    {data : List (List UInt64)} (h : m.Fed (taken ++ rest) data)
    (htaken : taken.length = if e.takesAddress then 1 else 0) (hw : Hardware) (line : Nat) :
    ∃ m' address direction,
      m.locate hw line e.opcode e.instruction.address = (m', .ok (address, direction)) ∧
      m'.Fed rest data ∧ m'.trace = m.trace ∧ (e.takesAddress → taken = [address]) ∧
      m'.streams.addresses.consumed = m.streams.addresses.consumed + taken.length ∧
      m'.streams.data = m.streams.data := by
  rw [DecodedEntry.takesAddress, Instruction.readsAddress] at *
  cases haccess : e.opcode.access? with
  | none =>
    rw [haccess] at htaken
    obtain rfl := List.eq_nil_of_length_eq_zero htaken
    exact ⟨m, _, _, by rw [locate, haccess], h, rfl, by simp, rfl, rfl⟩
  | some direction =>
    rw [haccess, Option.isSome_some, Bool.true_and] at htaken
    obtain ⟨m', address, hat, hfed, htrace, -, haddress, hcount, hdata⟩ :=
      accessAddress_of_fed h htaken hw line
    refine ⟨{ m' with openRow := ⟨hw.addressMap.ofLinear address, direction⟩ }, address, direction,
      by rw [locate, haccess, hat], ⟨hfed.addresses, hfed.data⟩, htrace, ?_, hcount, hdata⟩
    intro htakes
    exact haddress (by simpa using htakes)

theorem payload_of_fed {m : Machine σ} {operand : Option DataOperand} {addresses : List UInt64}
    {taken rest : List (List UInt64)} (h : m.Fed addresses (taken ++ rest))
    (htaken : taken.length = if operand == some .stream then 1 else 0) (line : Nat) :
    ∃ m' words, m.payload line operand = (m', .ok words) ∧ m'.Fed addresses rest ∧
      m'.trace = m.trace ∧ (operand = some .stream → taken = [words]) ∧
      m'.streams.addresses = m.streams.addresses ∧
      m'.streams.data.consumed = m.streams.data.consumed + taken.length := by
  match operand with
  | some .stream =>
    obtain ⟨record, rfl⟩ := List.length_eq_one_iff.mp htaken
    obtain ⟨next, htake, hnext, hcount⟩ := h.data.takeRecord line
    refine ⟨m.withData next, record, ?_, ⟨h.addresses, hnext⟩, rfl, fun _ => rfl, rfl, hcount⟩
    rw [payload, htake]
  | some (.literal words) =>
    obtain rfl := List.eq_nil_of_length_eq_zero htaken
    exact ⟨m, words, rfl, h, rfl, by simp, rfl, rfl⟩
  | none =>
    obtain rfl := List.eq_nil_of_length_eq_zero htaken
    exact ⟨m, [], rfl, h, rfl, by simp, rfl, rfl⟩

/-- **One visit.** With its operands at the front of the streams, a visit succeeds and takes exactly
these. -/
theorem visit_of_fed [Recorder σ] {m : Machine σ} {e : DecodedEntry}
    {addresses restAddresses : List UInt64} {data restData : List (List UInt64)}
    (h : m.Fed (addresses ++ restAddresses) (data ++ restData))
    (haddresses : addresses.length = if e.takesAddress then 1 else 0)
    (hdata : data.length = if e.takesData then 1 else 0) (hw : Hardware) (line : Nat) :
    ∃ m' command, m.visit hw line e.opcode e.instruction = (m', .ok command) ∧
      (m'.record command).Fed restAddresses restData ∧
      Visited [e] addresses data m (m'.record command) [command] := by
  obtain ⟨m₁, address, direction, hlocate, hfed₁, htrace₁, haddress, hcount₁, hdata₁⟩ :=
    locate_of_fed h haddresses hw line
  obtain ⟨m₂, words, hpayload, hfed₂, htrace₂, hwords, hcount₂, hcount₃⟩ :=
    payload_of_fed hfed₁ hdata line
  refine ⟨m₂, ⟨address, direction, words⟩, by rw [visit, hlocate]; simp only [hpayload],
    ⟨hfed₂.addresses, hfed₂.data⟩, rfl, ?_, ?_, ?_, ?_, ?_⟩
  · rw [record, htrace₂, htrace₁]
    rfl
  · by_cases htakes : e.takesAddress
    · rw [haddress htakes]
      simp [htakes]
    · rw [if_neg htakes] at haddresses
      rw [List.eq_nil_of_length_eq_zero haddresses]
      simp [htakes]
  · by_cases htakes : e.takesData
    · rw [hwords (by simpa [DecodedEntry.takesData, Instruction.readsData] using htakes)]
      simp [htakes]
    · rw [if_neg htakes] at hdata
      rw [List.eq_nil_of_length_eq_zero hdata]
      simp [htakes]
  · rw [record, hcount₂, hcount₁]
  · rw [record, hcount₃, hdata₁]

/-! ### Visits in turn -/

namespace Visited

variable [Recorder σ]

theorem nil (m : Machine σ) : Visited [] [] [] m m [] :=
  ⟨rfl, rfl, rfl, rfl, rfl, rfl⟩

/-- Visits can be done in two parts. -/
theorem append {entries₁ entries₂ : List DecodedEntry} {addresses₁ addresses₂ : List UInt64}
    {data₁ data₂ : List (List UInt64)} {m₀ m₁ m₂ : Machine σ}
    {commands₁ commands₂ : List MemoryAccess}
    (h₁ : Visited entries₁ addresses₁ data₁ m₀ m₁ commands₁)
    (h₂ : Visited entries₂ addresses₂ data₂ m₁ m₂ commands₂) :
    Visited (entries₁ ++ entries₂) (addresses₁ ++ addresses₂) (data₁ ++ data₂) m₀ m₂
      (commands₁ ++ commands₂) where
  length_commands := by
    rw [List.length_append, List.length_append, h₁.length_commands, h₂.length_commands]
  trace := by rw [List.foldl_append, ← h₁.trace, h₂.trace]
  addresses_commands := by
    rw [List.zip_append h₁.length_commands.symm, List.filter_append, List.map_append,
      h₁.addresses_commands, h₂.addresses_commands]
  payloads_commands := by
    rw [List.zip_append h₁.length_commands.symm, List.filter_append, List.map_append,
      h₁.payloads_commands, h₂.payloads_commands]
  consumed_addresses := by
    rw [h₂.consumed_addresses, h₁.consumed_addresses, List.length_append, Nat.add_assoc]
  consumed_data := by
    rw [h₂.consumed_data, h₁.consumed_data, List.length_append, Nat.add_assoc]

end Visited

/-- Splitting off the operands that are taken first. -/
theorem exists_append_of_length_eq_add {α : Type} {xs : List α} {m n : Nat}
    (h : xs.length = m + n) : ∃ ys zs, xs = ys ++ zs ∧ ys.length = m ∧ zs.length = n := by
  refine ⟨xs.take m, xs.drop m, (List.take_append_drop ..).symm, ?_, ?_⟩
  · rw [List.length_take]
    omega
  · rw [List.length_drop]
    omega

/-- **A run of visits.** With the operands of all visits at the front of the streams, every visit
succeeds, and together they take exactly these operands. -/
theorem visitAll_of_fed [Recorder σ] {m : Machine σ} {entries : List DecodedEntry}
    {addresses restAddresses : List UInt64} {data restData : List (List UInt64)}
    (h : m.Fed (addresses ++ restAddresses) (data ++ restData))
    (haddresses : addresses.length = entries.countP (·.takesAddress))
    (hdata : data.length = entries.countP (·.takesData)) (hw : Hardware) (line count : Nat) :
    ∃ m' commands, m.visitAll hw line entries count = (m', .ok (count + entries.length)) ∧
      m'.Fed restAddresses restData ∧ Visited entries addresses data m m' commands := by
  induction entries generalizing m addresses data count with
  | nil =>
    obtain rfl := List.eq_nil_of_length_eq_zero haddresses
    obtain rfl := List.eq_nil_of_length_eq_zero hdata
    exact ⟨m, [], rfl, h, .nil m⟩
  | cons e rest ih =>
    rw [List.countP_cons, Nat.add_comm] at haddresses hdata
    obtain ⟨as, laterAs, rfl, has, hlaterAs⟩ := exists_append_of_length_eq_add haddresses
    obtain ⟨ds, laterDs, rfl, hds, hlaterDs⟩ := exists_append_of_length_eq_add hdata
    rw [List.append_assoc, List.append_assoc] at h
    obtain ⟨m₁, command, hvisit, hfed₁, hvisited₁⟩ := visit_of_fed h has hds hw line
    obtain ⟨m₂, commands, hall, hfed₂, hvisited₂⟩ := ih hfed₁ hlaterAs hlaterDs (count + 1)
    refine ⟨m₂, command :: commands, ?_, hfed₂, hvisited₁.append hvisited₂⟩
    rw [visitAll, hvisit]
    simp only [hall, List.length_cons]
    congr 2
    omega

end Machine

end NearMemory
