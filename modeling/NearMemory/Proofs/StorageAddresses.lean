import NearMemory.Proofs.AddressRoundTrip
import NearMemory.Proofs.DrawnOperands
import NearMemory.Proofs.ScheduleRun
import Mathlib.Data.Nat.Bitwise

/-!
# Register files and storage

The flag of a register file is the top bit of the *first* row entry of the address map. An address
laid out for a register file has that bit set there, an address drawn for storage has it clear, so
the two are never the same. This needs nothing of the map but room for its fields, and holds also
where levels are listed more than once.

Whether an address is *recognised* is another matter, since reading keeps the *last* row entry. An
address drawn for storage is never taken for a register file. An entry of a register file is
recognised exactly if the last row entry has room for the flag as well, and its index is read back
exactly if the last column entry has room for it. The check of the hardware looks at the first
entries only, nor does it notice a field behind the word, where there is no address at all.

## Main results

* `Address.Map.isRegisterFile_eq_testBit` — what is looked at to recognise a register file
* `Address.Map.toLinear_ne_registerFile`, `Address.Map.isRegisterFile_toLinear` — tuples without the
  flag
* `Schedule.exists_drawAddress` — where the address stream of a schedule comes from
* `Hardware.files_apart_from_storage` — no two register file entries share an address, nor does
  storage
* `Hardware.registerFile_read_back` — when the entry of a register file is recognised
-/

namespace NearMemory

namespace Address.Map

variable {m : Map} {t : Tuple}

/-! ### The flag -/

theorem width_le (htotal : totalWidth m.levels ≤ 64) (level : Level) : m.width level ≤ 64 := by
  by_cases hpos : 0 < m.width level
  · exact Nat.le_trans (width_le_totalWidth (mem_levels_of_width_pos hpos)) htotal
  · omega

section Flag

variable (hlow : 1 ≤ m.width .row) (hhigh : m.width .row ≤ 64)

include hlow hhigh

/-- To recognise a register file, one bit of the row is looked at. -/
theorem isRegisterFile_eq_testBit (address : UInt64) :
    m.isRegisterFile address = (m.ofLinear address).row.toNat.testBit (m.width .row - 1) := by
  have hand : ((m.ofLinear address).row &&& m.fileFlag).toNat =
      ((m.ofLinear address).row.toNat.testBit (m.width .row - 1)).toNat *
        2 ^ (m.width .row - 1) := by
    rw [UInt64.toNat_and, toNat_fileFlag hlow hhigh, Nat.and_two_pow]
  rw [isRegisterFile, Bool.eq_iff_iff, bne_iff_ne, ne_eq, ← UInt64.toNat_inj, hand]
  cases (m.ofLinear address).row.toNat.testBit (m.width .row - 1) <;> simp

theorem testBit_fileRow (file : RegisterFile) :
    (m.fileFlag ||| UInt64.ofNat file.number).toNat.testBit (m.width .row - 1) = true := by
  rw [UInt64.toNat_or, Nat.testBit_or, toNat_fileFlag hlow hhigh, Nat.testBit_two_pow_self,
    Bool.true_or]

theorem testBit_and_not_fileFlag (row : UInt64) :
    (row &&& ~~~m.fileFlag).toNat.testBit (m.width .row - 1) = false := by
  have hzero : (row &&& ~~~m.fileFlag &&& m.fileFlag).toNat = 0 := by
    rw [UInt64.and_assoc, UInt64.not_and_self, UInt64.and_zero]
    rfl
  rw [UInt64.toNat_and, toNat_fileFlag hlow hhigh, Nat.and_two_pow] at hzero
  simpa using hzero

end Flag

section Storage

variable (hlow : 1 ≤ m.width .row) (htotal : totalWidth m.levels ≤ 64)
  (hclear : t.row.toNat.testBit (m.width .row - 1) = false)

include hlow htotal hclear

/-- A tuple without the flag differs from every entry of a register file in the first row entry. -/
theorem toLinear_ne_registerFile (file : RegisterFile) (index : Nat) :
    m.toLinear t ≠ m.registerFile file index := by
  intro heq
  have hrow := (toLinear_eq_iff htotal).mp heq _ (mem_levels_of_width_pos hlow)
  have hbit := congrArg (·.testBit (m.width .row - 1)) hrow
  simp only [Nat.testBit_mod_two_pow, Tuple.get, hclear, Bool.and_false,
    testBit_fileRow hlow (width_le htotal .row) file, Bool.and_true] at hbit
  have hlt := of_decide_eq_false hbit.symm
  omega

/-- A tuple without the flag is not taken for an entry of a register file. -/
theorem isRegisterFile_toLinear : m.isRegisterFile (m.toLinear t) = false := by
  have hrow : (m.ofLinear (m.toLinear t)).row.toNat = t.row.toNat % 2 ^ m.lastWidth .row :=
    get_ofLinear_toLinear htotal t .row
  rw [isRegisterFile_eq_testBit hlow (width_le htotal .row), hrow, Nat.testBit_mod_two_pow, hclear,
    Bool.and_false]

end Storage

/-! ### Entries read back -/

theorem row_ofLinear_registerFile (htotal : totalWidth m.levels ≤ 64) (file : RegisterFile)
    (index : Nat) : (m.ofLinear (m.registerFile file index)).row.toNat =
      (m.fileFlag ||| UInt64.ofNat file.number).toNat % 2 ^ m.lastWidth .row :=
  get_ofLinear_toLinear htotal _ .row

theorem column_ofLinear_registerFile (htotal : totalWidth m.levels ≤ 64) (file : RegisterFile)
    (index : Nat) : (m.ofLinear (m.registerFile file index)).column.toNat =
      (UInt64.ofNat index).toNat % 2 ^ m.lastWidth .column :=
  get_ofLinear_toLinear htotal _ .column

/-- The flag is read back exactly if the last row entry has a bit at its place. -/
theorem isRegisterFile_registerFile_iff (hlow : 1 ≤ m.width .row)
    (htotal : totalWidth m.levels ≤ 64) (file : RegisterFile) (index : Nat) :
    m.isRegisterFile (m.registerFile file index) = true ↔ m.width .row ≤ m.lastWidth .row := by
  have hhigh := width_le htotal .row
  rw [isRegisterFile_eq_testBit hlow hhigh, row_ofLinear_registerFile htotal,
    Nat.testBit_mod_two_pow, testBit_fileRow hlow hhigh, Bool.and_true, decide_eq_true_eq]
  omega

/-- So is the whole row, since the number of the file lies below the flag. -/
theorem row_registerFile_iff (hlow : 4 ≤ m.width .row) (htotal : totalWidth m.levels ≤ 64)
    (file : RegisterFile) (index : Nat) :
    (m.ofLinear (m.registerFile file index)).row = m.fileFlag ||| UInt64.ofNat file.number ↔
      m.width .row ≤ m.lastWidth .row := by
  have hhigh := width_le htotal .row
  constructor
  · intro hrow
    rw [← isRegisterFile_registerFile_iff (by omega) htotal file index,
      isRegisterFile_eq_testBit (by omega) hhigh, hrow, testBit_fileRow (by omega) hhigh]
  · intro hle
    have hlt : 2 ^ (m.width .row - 1) + file.number < 2 ^ m.lastWidth .row :=
      Nat.lt_of_lt_of_le (fileRow_lt file hlow) (Nat.pow_le_pow_right Nat.two_pos hle)
    rw [← toNat_fileRow file hlow hhigh] at hlt
    rw [← UInt64.toNat_inj, row_ofLinear_registerFile htotal, Nat.mod_eq_of_lt hlt]

theorem column_registerFile_iff (htotal : totalWidth m.levels ≤ 64) (file : RegisterFile)
    (index : Nat) (hindex : index < 2 ^ 64) :
    (m.ofLinear (m.registerFile file index)).column = UInt64.ofNat index ↔
      index < 2 ^ m.lastWidth .column := by
  rw [← UInt64.toNat_inj, column_ofLinear_registerFile htotal, UInt64.toNat_ofNat',
    Nat.mod_eq_of_lt hindex]
  exact Nat.mod_eq_iff_lt (Nat.two_pow_pos _).ne'

/-! ### Overflow -/

theorem registerFile?_eq (hflagged : m.isFlagged = true) (file : RegisterFile) (index : Nat) :
    m.registerFile? file index =
      if m.isPlaceable then some (m.registerFile file index) else none := by
  rw [registerFile?, fileFlag?, if_pos hflagged]
  rfl

theorem isRegisterFile?_eq (hflagged : m.isFlagged = true) (hreadable : m.isReadable = true)
    (address : UInt64) : m.isRegisterFile? address = some (m.isRegisterFile address) := by
  rw [isRegisterFile?, ofLinear?, if_pos hreadable, fileFlag?, if_pos hflagged]
  rfl

end Address.Map

/-! ### Drawn addresses -/

section Drawn

variable {γ : Type} [RandomWords γ]

/-- A drawn address is that of a tuple without the flag. -/
theorem exists_toLinear_drawAddress {map : Address.Map} (hlow : 1 ≤ map.width .row)
    (hhigh : map.width .row ≤ 64) (g : γ) : ∃ t : Address.Tuple,
      (drawAddress map g).1 = map.toLinear t ∧
      t.row.toNat.testBit (map.width .row - 1) = false :=
  ⟨_, rfl, Address.Map.testBit_and_not_fileFlag hlow hhigh _⟩

namespace Operands

/-- Every address of the stream was drawn. -/
def AllDrawn (map : Address.Map) (o : Operands γ) : Prop :=
  ∀ a ∈ o.addresses.toList, ∃ g : γ, a = (drawAddress map g).1

variable {map : Address.Map} {o : Operands γ}

/-- One instruction. -/
theorem AllDrawn.drawInstruction (h : o.AllDrawn map) (digits : Nat) (i : Instruction) :
    (o.drawInstruction map digits i).AllDrawn map := by
  have haddresses : (o.drawInstruction map digits i).addresses.toList = o.addresses.toList ∨
      (o.drawInstruction map digits i).addresses.toList =
        o.addresses.toList ++ [(drawAddress map o.source).1] := by
    rw [Operands.drawInstruction]
    cases i.readsAddress <;> cases i.readsData <;> simp
  intro a ha
  rcases haddresses with heq | heq
  · exact h a (heq ▸ ha)
  · rw [heq, List.mem_append, List.mem_singleton] at ha
    rcases ha with ha | rfl
    · exact h a ha
    · exact ⟨o.source, rfl⟩

/-- Instructions in turn. -/
theorem AllDrawn.foldl_drawInstruction (h : o.AllDrawn map) (digits : Nat)
    (body : List Instruction) :
    (body.foldl (Operands.drawInstruction map digits) o).AllDrawn map := by
  induction body generalizing o with
  | nil => exact h
  | cons i rest ih => exact ih (h.drawInstruction digits i)

/-- A pass. -/
theorem AllDrawn.drawPass (h : o.AllDrawn map) (digits : Nat) (p : Pass) :
    (o.drawPass map digits p).AllDrawn map := by
  rw [Operands.drawPass]
  induction p.runs with
  | zero => exact h
  | succ n ih => exact ih.foldl_drawInstruction digits p.body

theorem AllDrawn.foldl_drawPass (h : o.AllDrawn map) (digits : Nat) (passes : List Pass) :
    (passes.foldl (Operands.drawPass map digits) o).AllDrawn map := by
  induction passes generalizing o with
  | nil => exact h
  | cons p rest ih => exact ih (h.drawPass digits p)

end Operands

/-- **The address stream of a schedule holds drawn addresses.** -/
theorem Schedule.exists_drawAddress (s : Schedule) (source : γ) {a : UInt64}
    (ha : a ∈ (s.drawOperands source).addresses.toList) :
    ∃ g : γ, a = (drawAddress s.hardware.addressMap g).1 := by
  have hstart : Operands.AllDrawn s.hardware.addressMap { data := #[fullMask], source } := by
    intro a ha
    simp at ha
  exact hstart.foldl_drawPass s.workload.digitLength s.passes a ha

theorem Schedule.hardware_of_ofPlan {hw : Hardware} {w : Workload} {plan : Plan} {s : Schedule}
    (h : ofPlan hw w plan = .ok s) : s.hardware = hw := by
  obtain ⟨-, _, _, _, -, -, -, -, rfl⟩ := ofPlan_eq_ok_iff.mp h
  rfl

end Drawn

namespace Hardware

variable {hw : Hardware}

/-- **Register files and storage never share an address.** Entries of register files have addresses
of their own, and whatever the random words are, no address of the stream that is generated for a
plan is that of an entry, or is taken for one. -/
theorem files_apart_from_storage (hvalid : hw.violation? = none) :
    (∀ file file' index index', index < hw.capacity file → index' < hw.capacity file' →
      (file, index) ≠ (file', index') →
      hw.addressMap.registerFile file index ≠ hw.addressMap.registerFile file' index') ∧
    ∀ (w : Workload) (plan : Plan) (s : Schedule), Schedule.ofPlan hw w plan = .ok s →
      ∀ (γ : Type) [RandomWords γ] (source : γ), ∀ a ∈ (s.drawOperands source).addresses.toList,
        hw.addressMap.isRegisterFile a = false ∧
        ∀ file index, a ≠ hw.addressMap.registerFile file index := by
  have hlow : 1 ≤ hw.addressMap.width .row :=
    Nat.le_trans (by decide) (width_of_violation? hvalid).1
  have htotal := totalWidth_le hvalid
  refine ⟨?_, ?_⟩
  · intro file file' index index' hindex hindex' hne heq
    obtain ⟨rfl, rfl⟩ := (registerFile_eq_iff hvalid hindex hindex').mp heq
    exact hne rfl
  · intro w plan s hplan γ _ source a ha
    obtain ⟨g, rfl⟩ := s.exists_drawAddress source ha
    rw [Schedule.hardware_of_ofPlan hplan]
    obtain ⟨t, heq, hclear⟩ := exists_toLinear_drawAddress hlow
      (Address.Map.width_le htotal .row) g
    rw [heq]
    exact ⟨Address.Map.isRegisterFile_toLinear hlow htotal hclear,
      Address.Map.toLinear_ne_registerFile hlow htotal hclear⟩

/-- A second row entry and a second column entry, both narrow, and a base at the upper end of the
address space. A constant, a row read and a row write take addresses, drawn from a source that
counts in large steps. -/
theorem files_apart_from_storage_repeated :
    let m : Address.Map :=
      ⟨0xFFFFFFFFFFFFFFF0, [(.row, 4), (.column, 6), (.row, 2), (.bank, 3), (.column, 1)]⟩
    let hw : Hardware := { addressMap := m }
    let _ : RandomWords UInt32 := ⟨fun word => (word, word + 0x9E3779B9)⟩
    hw.violation? = none ∧ m.registerFile .mask 3 ≠ m.registerFile .mask 1 ∧
    ∃ plan s, Schedule.ofPlan hw { m := 1, n := 1, q := 1, digitLength := 2 } plan = .ok s ∧
      (s.drawOperands (1 : UInt32)).addresses.toList = [0xA000, 0xD802, 0x77F2] ∧
      m.isRegisterFile 0xD802 = false ∧ 0xD802 ≠ m.registerFile .mask 3 := by
  intro m hw _
  have hvalid : hw.violation? = none := by decide
  obtain ⟨hfiles, hstorage⟩ := files_apart_from_storage hvalid
  have hdrawn : (Plan.make hw { m := 1, n := 1, q := 1, digitLength := 2 }).toOption.bind
      (fun plan =>
        (Schedule.ofPlan hw { m := 1, n := 1, q := 1, digitLength := 2 } plan).toOption.map fun s =>
          (s.drawOperands (1 : UInt32)).addresses.toList) = some [0xA000, 0xD802, 0x77F2] := by
    decide +kernel
  obtain ⟨plan, -, hs⟩ := Option.bind_eq_some_iff.mp hdrawn
  obtain ⟨s, hs, haddresses⟩ := Option.map_eq_some_iff.mp hs
  have hok := toOption_eq_some_iff.mp hs
  obtain ⟨hclear, hne⟩ := hstorage _ plan s hok UInt32 1 0xD802 (by rw [haddresses]; decide)
  exact ⟨hvalid, hfiles .mask .mask 3 1 (by decide) (by decide) (by decide), plan, s, hok,
    haddresses, hclear, hne .mask 3⟩

/-- **When an entry of a register file is recognised.** It has an address unless some field starts
behind the word. Its row is read back and it is recognised if the last row entry has room for the
flag, and only then; its index is read back if the last column entry has room for it. Where no level
is listed twice, all of this is so. -/
theorem registerFile_read_back (hvalid : hw.violation? = none) {file : RegisterFile} {index : Nat}
    (hindex : index < hw.capacity file) :
    let m := hw.addressMap
    ((m.registerFile? file index).isSome ↔
      ∀ before f after, m.levels = before ++ f :: after → Address.totalWidth before < 64) ∧
    ∀ address, m.registerFile? file index = some address →
      ∃ t, m.ofLinear? address = some t ∧
        (t.column = UInt64.ofNat index ↔ index < 2 ^ m.lastWidth .column) ∧
        (t.row = m.fileFlag ||| UInt64.ofNat file.number ↔ m.width .row ≤ m.lastWidth .row) ∧
        m.isRegisterFile? address = some (decide (m.width .row ≤ m.lastWidth .row)) ∧
        ((m.levels.map Prod.fst).Nodup →
          t.column = UInt64.ofNat index ∧ t.row = m.fileFlag ||| UInt64.ofNat file.number ∧
            m.isRegisterFile? address = some true) := by
  intro m
  have htotal := totalWidth_le hvalid
  have hflagged : m.isFlagged = true := decide_eq_true (Address.Map.width_le htotal .row)
  have hreadable : m.isReadable = true := Address.Map.isReadable_iff.mpr (width_lt hvalid)
  rw [Address.Map.registerFile?_eq hflagged]
  refine ⟨by rw [← Address.Map.isPlaceable_iff htotal, Option.isSome_ite], ?_⟩
  intro address haddress
  obtain rfl := Option.some.inj (Option.ite_none_right_eq_some.mp haddress).2
  obtain ⟨hrowWidth, hcolumnWidth⟩ := width_of_violation? hvalid
  have hlow : 1 ≤ m.width .row := Nat.le_trans (by decide) hrowWidth
  have hsmall : index < 2 ^ 6 := Nat.lt_of_lt_of_le hindex (capacity_le hvalid file)
  have hcolumn := Address.Map.column_registerFile_iff htotal file index (by omega)
  have hrow := Address.Map.row_registerFile_iff hrowWidth htotal file index
  have hfile := Address.Map.isRegisterFile_registerFile_iff hlow htotal file index
  rw [Address.Map.isRegisterFile?_eq hflagged hreadable]
  refine ⟨_, Address.Map.ofLinear?_eq_some_iff.mpr ⟨hreadable, rfl⟩, hcolumn, hrow,
    congrArg some (Bool.eq_iff_iff.mpr (hfile.trans decide_eq_true_iff.symm)), fun hlevels => ?_⟩
  -- the first entries, which the check looks at, are then the last ones as well
  have hlastRow : m.lastWidth .row = m.width .row :=
    Address.Map.lastWidth_eq_of_mem hlevels (Address.Map.mem_levels_of_width_pos hlow)
  have hlastColumn : m.lastWidth .column = m.width .column :=
    Address.Map.lastWidth_eq_of_mem hlevels
      (Address.Map.mem_levels_of_width_pos (Nat.lt_of_lt_of_le (by decide) hcolumnWidth))
  have hfits : index < 2 ^ m.lastWidth .column := by
    rw [hlastColumn]
    exact Nat.lt_of_lt_of_le hsmall (Nat.pow_le_pow_right Nat.two_pos hcolumnWidth)
  exact ⟨hcolumn.mpr hfits, hrow.mpr hlastRow.ge, congrArg some (hfile.mpr hlastRow.ge)⟩

/-- Two entries of a map of minimal widths, in an order of its own, at the upper end of the address
space. -/
theorem registerFile_read_back_minimal :
    let m : Address.Map := ⟨0xFFFFFFFFFFFFFFFF, [(.row, 4), (.bank, 0), (.column, 6)]⟩
    let hw : Hardware := { addressMap := m }
    hw.violation? = none ∧ 63 < hw.capacity .instrBuffer ∧
    m.registerFile? .instrBuffer 63 = some 0x3F7 ∧
    ∃ t, m.ofLinear? 0x3F7 = some t ∧ t.column = 63 ∧ t.row = 8 ∧
      m.isRegisterFile? 0x3F7 = some true := by
  intro m hw
  have hvalid : hw.violation? = none := by decide
  have haddress : m.registerFile? .instrBuffer 63 = some 0x3F7 := by decide
  obtain ⟨t, ht, -, -, -, hread⟩ := (registerFile_read_back hvalid
    (show 63 < hw.capacity .instrBuffer by decide)).2 0x3F7 haddress
  obtain ⟨hcolumn, hrow, hfile⟩ := hread (by decide)
  exact ⟨hvalid, by decide, haddress, t, ht, hcolumn, hrow.trans (by decide), hfile⟩

/-- **Hardware may pass its check and yet not recognise its register files.** A second row entry of
one bit has no room for the flag, and a second column entry of one bit none for the index. -/
theorem narrow_repeat_unrecognised :
    let m : Address.Map := ⟨0, [(.column, 6), (.row, 4), (.column, 1), (.row, 1)]⟩
    let hw : Hardware := { addressMap := m }
    hw.violation? = none ∧ 3 < hw.capacity .mask ∧ m.registerFile? .mask 3 = some 0x683 ∧
      m.fileFlag ||| UInt64.ofNat RegisterFile.mask.number = 10 ∧
      m.ofLinear? 0x683 = some { column := 1, row := 0 } ∧
      m.isRegisterFile? 0x683 = some false := by
  decide

end Hardware

end NearMemory
