import NearMemory.Hardware
import NearMemory.Proofs.Rounding

/-!
# Addresses of register files

A linear address is the base of its map plus the number that its fields spell. As long as the fields
do not exceed 64 bits together, that number is exact, so two tuples share an address exactly when
they agree on every listed field. The check of the hardware leaves room in the row field for the
flag and the number of a register file, and in the column field for the index of any entry. So the
entries of register files have addresses of their own.

Levels may be listed more than once, and in any order; nothing here depends on it.

## Main definitions

* `Address.totalWidth` — the bits of a list of fields
* `Address.fieldsValue` — the number that the fields of a tuple spell

## Main results

* `Address.toNat_place` — the fields laid out spell their number
* `Address.Map.toLinear_eq_iff` — tuples with one address agree on every field
* `Hardware.registerFile_eq_iff` — entries of register files have addresses of their own
-/

namespace NearMemory

namespace RegisterFile

theorem number_lt (file : RegisterFile) : file.number < 2 ^ 3 := by
  cases file <;> decide

theorem number_injective {file file' : RegisterFile} (h : file.number = file'.number) :
    file = file' := by
  cases file <;> cases file' <;> first | rfl | contradiction

end RegisterFile

namespace Address

/-- The bits of some fields together. -/
def totalWidth (fields : List (Level × Nat)) : Nat := fields.foldr (·.2 + ·) 0

/-- The number that the fields of a tuple spell, least significant field first. -/
def fieldsValue (t : Tuple) : List (Level × Nat) → Nat
  | [] => 0
  | (level, width) :: rest => (t.get level).toNat % 2 ^ width + 2 ^ width * fieldsValue t rest

theorem totalWidth_cons (level : Level) (width : Nat) (rest : List (Level × Nat)) :
    totalWidth ((level, width) :: rest) = width + totalWidth rest := rfl

theorem width_le_totalWidth {fields : List (Level × Nat)} {f : Level × Nat} (h : f ∈ fields) :
    f.2 ≤ totalWidth fields := by
  induction fields with
  | nil => simp at h
  | cons g rest ih =>
    rw [totalWidth_cons]
    rcases List.mem_cons.mp h with rfl | h
    · exact Nat.le_add_right _ _
    · exact Nat.le_trans (ih h) (Nat.le_add_left _ _)

/-! ### Fields -/

theorem toNat_lowBits {width : Nat} (h : width ≤ 64) : (lowBits width).toNat = 2 ^ width - 1 := by
  have hle : 2 ^ width ≤ 2 ^ 64 := Nat.pow_le_pow_right Nat.two_pos h
  rw [lowBits, Nat.min_eq_left h, Nat.one_shiftLeft, UInt64.toNat_ofNat', Nat.mod_eq_of_lt]
  omega

theorem toNat_and_lowBits (x : UInt64) {width : Nat} (h : width ≤ 64) :
    (x &&& lowBits width).toNat = x.toNat % 2 ^ width := by
  rw [UInt64.toNat_and, toNat_lowBits h, Nat.and_two_pow_sub_one_eq_mod]

/-- A field is moved to its place without a loss. -/
theorem toNat_shiftLeft_ofNat {x : UInt64} {offset width : Nat} (hx : x.toNat < 2 ^ width)
    (h : offset + width ≤ 64) : (x <<< UInt64.ofNat offset).toNat = x.toNat * 2 ^ offset := by
  have hlt : x.toNat * 2 ^ offset < 2 ^ 64 := by
    calc x.toNat * 2 ^ offset
        < 2 ^ width * 2 ^ offset := Nat.mul_lt_mul_of_pos_right hx (Nat.two_pow_pos offset)
      _ = 2 ^ (offset + width) := by rw [Nat.pow_add, Nat.mul_comm]
      _ ≤ 2 ^ 64 := Nat.pow_le_pow_right Nat.two_pos h
  rw [UInt64.toNat_shiftLeft, UInt64.toNat_ofNat', Nat.shiftLeft_eq]
  by_cases hoffset : offset < 64
  · rw [Nat.mod_eq_of_lt (show offset < 2 ^ 64 by omega), Nat.mod_eq_of_lt hoffset,
      Nat.mod_eq_of_lt hlt]
  · -- only an empty field starts at the end of a word
    obtain rfl : width = 0 := by omega
    rw [show x.toNat = 0 by omega, Nat.zero_mul, Nat.zero_mod, Nat.zero_mul]

/-- **Fields are laid out without a loss.** -/
theorem toNat_place (t : Tuple) {offset : Nat} {fields : List (Level × Nat)}
    (h : offset + totalWidth fields ≤ 64) :
    (Map.place t offset fields).toNat = 2 ^ offset * fieldsValue t fields := by
  induction fields generalizing offset with
  | nil => rw [Map.place, fieldsValue, Nat.mul_zero]; rfl
  | cons f rest ih =>
    obtain ⟨level, width⟩ := f
    rw [totalWidth_cons] at h
    have hfield : (t.get level &&& lowBits width).toNat = (t.get level).toNat % 2 ^ width :=
      toNat_and_lowBits _ (by omega)
    have hlt : (t.get level).toNat % 2 ^ width < 2 ^ width := Nat.mod_lt _ (Nat.two_pow_pos width)
    have hplaced : (t.get level).toNat % 2 ^ width * 2 ^ offset < 2 ^ (offset + width) := by
      rw [Nat.pow_add, Nat.mul_comm]
      exact Nat.mul_lt_mul_of_pos_left hlt (Nat.two_pow_pos offset)
    rw [Map.place, UInt64.toNat_or, ih (by omega),
      toNat_shiftLeft_ofNat (hfield ▸ hlt) (show offset + width ≤ 64 by omega), hfield, Nat.or_comm,
      ← Nat.two_pow_add_eq_or_of_lt hplaced, fieldsValue, Nat.pow_add, Nat.mul_add,
      Nat.mul_assoc, Nat.mul_comm (_ % _), Nat.add_comm]

theorem fieldsValue_eq_iff {t t' : Tuple} {fields : List (Level × Nat)} :
    fieldsValue t fields = fieldsValue t' fields ↔
      ∀ f ∈ fields, (t.get f.1).toNat % 2 ^ f.2 = (t'.get f.1).toNat % 2 ^ f.2 := by
  induction fields with
  | nil => simp [fieldsValue]
  | cons f rest ih =>
    obtain ⟨level, width⟩ := f
    have hpos : 0 < 2 ^ width := Nat.two_pow_pos width
    rw [fieldsValue, fieldsValue, List.forall_mem_cons, ← ih]
    constructor
    · intro h
      have hlow := congrArg (· % 2 ^ width) h
      have hhigh := congrArg (· / 2 ^ width) h
      simp only [Nat.add_mul_mod_self_left, Nat.mod_mod] at hlow
      simp only [Nat.add_mul_div_left _ _ hpos, Nat.div_eq_of_lt (Nat.mod_lt _ hpos),
        Nat.zero_add] at hhigh
      exact ⟨hlow, hhigh⟩
    · rintro ⟨hlow, hhigh⟩
      dsimp only at hlow
      rw [hlow, hhigh]

namespace Map

variable {m : Map}

/-- The number that all fields spell, as it stands above the base. -/
theorem toNat_place_levels (t : Tuple) (h : totalWidth m.levels ≤ 64) :
    (place t 0 m.levels).toNat = fieldsValue t m.levels := by
  rw [toNat_place t (by omega), Nat.pow_zero, Nat.one_mul]

/-- **Tuples with one address agree on every field.** -/
theorem toLinear_eq_iff {t t' : Tuple} (h : totalWidth m.levels ≤ 64) :
    m.toLinear t = m.toLinear t' ↔
      ∀ f ∈ m.levels, (t.get f.1).toNat % 2 ^ f.2 = (t'.get f.1).toNat % 2 ^ f.2 := by
  rw [toLinear, toLinear, ← fieldsValue_eq_iff, ← toNat_place_levels t h, ← toNat_place_levels t' h,
    UInt64.toNat_inj]
  exact UInt64.add_right_inj m.base

theorem mem_levels_of_width_pos {level : Level} (h : 0 < m.width level) :
    (level, m.width level) ∈ m.levels := by
  rw [width] at h ⊢
  cases hlookup : m.levels.lookup level with
  | none =>
    rw [hlookup] at h
    contradiction
  | some width =>
    obtain ⟨before, after, heq, -⟩ := List.lookup_eq_some_iff.mp hlookup
    rw [heq]
    simp

theorem toNat_fileFlag (hlow : 1 ≤ m.width .row) (hhigh : m.width .row ≤ 64) :
    m.fileFlag.toNat = 2 ^ (m.width .row - 1) := by
  obtain ⟨w, hw⟩ : ∃ w, m.width .row = w + 1 := ⟨m.width .row - 1, by omega⟩
  rw [fileFlag, hw, Nat.add_sub_cancel]
  exact (toNat_shiftLeft_ofNat (x := 1) (show 1 < 2 ^ 1 by decide) (by omega)).trans
    (Nat.one_mul _)

/-- The row of a register file is its number below the flag. -/
theorem toNat_fileRow (file : RegisterFile) (hlow : 4 ≤ m.width .row) (hhigh : m.width .row ≤ 64) :
    (m.fileFlag ||| UInt64.ofNat file.number).toNat = 2 ^ (m.width .row - 1) + file.number := by
  have hnumber := file.number_lt
  have hle : 2 ^ 3 ≤ 2 ^ (m.width .row - 1) := Nat.pow_le_pow_right Nat.two_pos (by omega)
  have hor := Nat.two_pow_add_eq_or_of_lt (Nat.lt_of_lt_of_le hnumber hle) 1
  rw [UInt64.toNat_or, toNat_fileFlag (by omega) hhigh, UInt64.toNat_ofNat',
    Nat.mod_eq_of_lt (by omega)]
  rw [Nat.mul_one] at hor
  exact hor.symm

theorem fileRow_lt (file : RegisterFile) {width : Nat} (h : 4 ≤ width) :
    2 ^ (width - 1) + file.number < 2 ^ width := by
  obtain ⟨w, rfl⟩ : ∃ w, width = w + 1 := ⟨width - 1, by omega⟩
  have hnumber := file.number_lt
  have hle : 2 ^ 3 ≤ 2 ^ w := Nat.pow_le_pow_right Nat.two_pos (by omega)
  rw [Nat.add_sub_cancel, Nat.pow_succ]
  omega

/-- The index of an entry fits the column field. -/
theorem toNat_index_mod {index width : Nat} (hindex : index < 64) (h : 6 ≤ width) :
    (UInt64.ofNat index).toNat % 2 ^ width = index := by
  have hle : 2 ^ 6 ≤ 2 ^ width := Nat.pow_le_pow_right Nat.two_pos h
  rw [UInt64.toNat_ofNat', Nat.mod_eq_of_lt (show index < 2 ^ 64 by omega)]
  exact Nat.mod_eq_of_lt (by omega)

end Map

end Address

/-! ### Hardware that passes its check -/

namespace Hardware

variable {hw : Hardware}

/-- Room for the flag and the number of a register file, and for the index of an entry. -/
theorem width_of_violation? (h : hw.violation? = none) :
    4 ≤ hw.addressMap.width .row ∧ 6 ≤ hw.addressMap.width .column := by
  have hrow : bitsToIndex RegisterFile.all.length + 1 = 4 := by decide
  have hcolumn : bitsToIndex 64 = 6 := by decide
  simp only [violation?, hrow, hcolumn, ite_eq_iff, reduceCtorEq, and_false, false_or,
    and_true] at h
  omega

/-- The fields fit a word. -/
theorem totalWidth_le (h : hw.violation? = none) :
    Address.totalWidth hw.addressMap.levels ≤ 64 := by
  simp only [violation?, ite_eq_iff, reduceCtorEq, and_false, false_or, and_true] at h
  exact Nat.le_of_not_lt h.2.2.2.2.2.1

theorem capacity_le (h : hw.violation? = none) (file : RegisterFile) : hw.capacity file ≤ 64 := by
  simp only [violation?, ite_eq_iff, reduceCtorEq, and_false, false_or] at h
  cases file <;> simp only [capacity] <;> omega

/-- **Entries of register files have addresses of their own.** -/
theorem registerFile_eq_iff {file file' : RegisterFile} {index index' : Nat}
    (h : hw.violation? = none) (hindex : index < hw.capacity file)
    (hindex' : index' < hw.capacity file') :
    hw.addressMap.registerFile file index = hw.addressMap.registerFile file' index' ↔
      file = file' ∧ index = index' := by
  obtain ⟨hrow, hcolumn⟩ := width_of_violation? h
  have hwidth := totalWidth_le h
  have hindex := Nat.lt_of_lt_of_le hindex (capacity_le h file)
  have hindex' := Nat.lt_of_lt_of_le hindex' (capacity_le h file')
  constructor
  · intro heq
    have hfields := (Address.Map.toLinear_eq_iff hwidth).mp heq
    have hrowMem : (.row, hw.addressMap.width .row) ∈ hw.addressMap.levels :=
      Address.Map.mem_levels_of_width_pos (by omega)
    have hcolumnMem : (.column, hw.addressMap.width .column) ∈ hw.addressMap.levels :=
      Address.Map.mem_levels_of_width_pos (by omega)
    have hrowEq := hfields _ hrowMem
    have hcolumnEq := hfields _ hcolumnMem
    have hrowLe : hw.addressMap.width .row ≤ 64 :=
      Nat.le_trans (Address.width_le_totalWidth hrowMem) hwidth
    simp only [Address.Tuple.get, Address.Map.toNat_fileRow _ hrow hrowLe,
      Nat.mod_eq_of_lt (Address.Map.fileRow_lt _ hrow)] at hrowEq
    simp only [Address.Tuple.get, Address.Map.toNat_index_mod hindex hcolumn,
      Address.Map.toNat_index_mod hindex' hcolumn] at hcolumnEq
    exact ⟨RegisterFile.number_injective (Nat.add_left_cancel hrowEq), hcolumnEq⟩
  · rintro ⟨rfl, rfl⟩
    rfl

end Hardware

end NearMemory
