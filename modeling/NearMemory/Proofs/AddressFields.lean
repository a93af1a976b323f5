import NearMemory.Proofs.RegisterAddresses
import Mathlib.Data.List.Nodup

/-!
# Addresses read back

A linear address is read into a tuple field by field, from its low end. Where no level is listed
twice, the tuple holds every bit that was read, and laying it out again gives the address back, but
for the bits above the fields: only `address - base` modulo `2 ^ T` survives, where `T` is the
number of bits of all fields. Addresses that agree in these bits are read into the same tuple.

Nothing is assumed of the address. It may lie below the base, or beyond what the map spans.

## Main results

* `Address.fieldsValue_extract` — the fields that are read spell the low bits of the word
* `Address.Map.toLinear_ofLinear` — an address read and laid out again
* `Address.Map.ofLinear_toLinear_ofLinear` — reading it once more changes nothing
* `Hardware.width_lt` — hardware that passes its check has no field of a whole word
-/

namespace NearMemory

namespace Address

variable {fields : List (Level × Nat)} {linear linear' : UInt64} {t : Tuple}

theorem toNat_shiftRight_ofNat (x : UInt64) {width : Nat} (h : width < 64) :
    (x >>> UInt64.ofNat width).toNat = x.toNat / 2 ^ width := by
  rw [UInt64.toNat_shiftRight, UInt64.toNat_ofNat', Nat.mod_eq_of_lt (show width < 2 ^ 64 by omega),
    Nat.mod_eq_of_lt h, Nat.shiftRight_eq_div_pow]

/-- A level that is not read keeps its value. -/
theorem get_extract_of_notMem {level : Level} (h : level ∉ fields.map Prod.fst) :
    (Map.extract linear t fields).get level = t.get level := by
  induction fields generalizing linear t with
  | nil => rfl
  | cons f rest ih =>
    rw [List.map_cons, List.mem_cons, not_or] at h
    rw [Map.extract, ih h.2, Tuple.get_set_of_ne _ _ h.1]

/-- **The fields that are read spell the low bits of the word.** -/
theorem fieldsValue_extract (hlevels : (fields.map Prod.fst).Nodup)
    (hwidth : ∀ f ∈ fields, f.2 < 64) :
    fieldsValue (Map.extract linear t fields) fields = linear.toNat % 2 ^ totalWidth fields := by
  induction fields generalizing linear t with
  | nil => rw [fieldsValue, totalWidth, List.foldr_nil, Nat.pow_zero, Nat.mod_one]
  | cons f rest ih =>
    obtain ⟨level, width⟩ := f
    rw [List.map_cons, List.nodup_cons] at hlevels
    obtain ⟨hlt, hrest⟩ := List.forall_mem_cons.mp hwidth
    -- the first field stays as it is read, since its level does not come again
    have hfirst : ((Map.extract linear t ((level, width) :: rest)).get level).toNat =
        linear.toNat % 2 ^ width := by
      rw [Map.extract, get_extract_of_notMem hlevels.1, Tuple.get_set_self,
        toNat_and_lowBits _ (Nat.le_of_lt hlt)]
    rw [fieldsValue, hfirst, Nat.mod_mod, Map.extract, ih hlevels.2 hrest,
      toNat_shiftRight_ofNat _ hlt, totalWidth_cons, Nat.pow_add, Nat.mod_mul]

/-- Words that agree in the bits of all fields are read into the same tuple. -/
theorem extract_congr (hwidth : ∀ f ∈ fields, f.2 < 64)
    (h : linear.toNat % 2 ^ totalWidth fields = linear'.toNat % 2 ^ totalWidth fields) :
    Map.extract linear t fields = Map.extract linear' t fields := by
  induction fields generalizing linear linear' t with
  | nil => rfl
  | cons f rest ih =>
    obtain ⟨level, width⟩ := f
    obtain ⟨hlt, hrest⟩ := List.forall_mem_cons.mp hwidth
    rw [totalWidth_cons, Nat.pow_add] at h
    have hlow : linear &&& lowBits width = linear' &&& lowBits width := by
      rw [← UInt64.toNat_inj, toNat_and_lowBits _ (Nat.le_of_lt hlt),
        toNat_and_lowBits _ (Nat.le_of_lt hlt)]
      have hmod := congrArg (· % 2 ^ width) h
      simpa only [Nat.mod_mul_right_mod] using hmod
    rw [Map.extract, Map.extract, hlow]
    refine ih hrest ?_
    rw [toNat_shiftRight_ofNat _ hlt, toNat_shiftRight_ofNat _ hlt]
    have hdiv := congrArg (· / 2 ^ width) h
    simpa only [Nat.mod_mul_right_div_self] using hdiv

theorem extract_zero (fields : List (Level × Nat)) : Map.extract 0 {} fields = {} := by
  induction fields with
  | nil => rfl
  | cons f rest ih =>
    obtain ⟨level, width⟩ := f
    have hset : Tuple.set {} level (0 &&& lowBits width) = {} := by
      rw [UInt64.zero_and]
      cases level <;> rfl
    rw [Map.extract, hset, UInt64.zero_shiftRight, ih]

namespace Map

variable {m : Map}

theorem ofLinear_base (m : Map) : m.ofLinear m.base = {} := by
  rw [ofLinear, UInt64.sub_self, extract_zero]

/-- **An address read and laid out again** keeps its distance from the base, up to what the fields
can hold. -/
theorem toLinear_ofLinear (hlevels : (m.levels.map Prod.fst).Nodup)
    (hwidth : ∀ f ∈ m.levels, f.2 < 64) (htotal : totalWidth m.levels ≤ 64) (address : UInt64) :
    m.toLinear (m.ofLinear address) =
      m.base + UInt64.ofNat ((address - m.base).toNat % 2 ^ totalWidth m.levels) := by
  have hplace : (place (m.ofLinear address) 0 m.levels).toNat =
      (address - m.base).toNat % 2 ^ totalWidth m.levels := by
    rw [toNat_place_levels _ htotal, ofLinear, fieldsValue_extract hlevels hwidth]
  rw [toLinear, ← hplace, UInt64.ofNat_toNat]

/-- **Reading it once more changes nothing.** -/
theorem ofLinear_toLinear_ofLinear (hlevels : (m.levels.map Prod.fst).Nodup)
    (hwidth : ∀ f ∈ m.levels, f.2 < 64) (htotal : totalWidth m.levels ≤ 64) (address : UInt64) :
    m.ofLinear (m.toLinear (m.ofLinear address)) = m.ofLinear address := by
  rw [toLinear_ofLinear hlevels hwidth htotal, ofLinear, ofLinear]
  refine extract_congr hwidth ?_
  have hlt : (address - m.base).toNat % 2 ^ totalWidth m.levels < 2 ^ 64 :=
    Nat.lt_of_le_of_lt (Nat.mod_le _ _) (UInt64.toNat_lt _)
  rw [UInt64.add_comm, UInt64.add_sub_cancel, UInt64.toNat_ofNat', Nat.mod_eq_of_lt hlt,
    Nat.mod_mod]

end Map

theorem add_width_le_totalWidth {f g : Level × Nat} (hf : f ∈ fields) (hg : g ∈ fields)
    (hne : f ≠ g) : f.2 + g.2 ≤ totalWidth fields := by
  induction fields with
  | nil => simp at hf
  | cons h rest ih =>
    rw [totalWidth_cons]
    rcases List.mem_cons.mp hf with rfl | hfr
    · rcases List.mem_cons.mp hg with rfl | hgr
      · exact absurd rfl hne
      · exact Nat.add_le_add_left (width_le_totalWidth hgr) _
    · rcases List.mem_cons.mp hg with rfl | hgr
      · rw [Nat.add_comm]
        exact Nat.add_le_add_left (width_le_totalWidth hfr) _
      · exact Nat.le_trans (ih hfr hgr) (Nat.le_add_left _ _)

end Address

/-- There is a row field and a column field, so no field takes a whole word. -/
theorem Hardware.width_lt {hw : Hardware} (h : hw.violation? = none) :
    ∀ f ∈ hw.addressMap.levels, f.2 < 64 := by
  intro f hf
  have htotal := hw.totalWidth_le h
  obtain ⟨hrow, hcolumn⟩ := width_of_violation? h
  have hrowMem : (.row, hw.addressMap.width .row) ∈ hw.addressMap.levels :=
    Address.Map.mem_levels_of_width_pos (by omega)
  have hcolumnMem : (.column, hw.addressMap.width .column) ∈ hw.addressMap.levels :=
    Address.Map.mem_levels_of_width_pos (by omega)
  by_cases hlevel : f.1 = .row
  · have hle := Address.add_width_le_totalWidth hf hcolumnMem (by rintro rfl; contradiction)
    dsimp only at hle
    omega
  · have hle := Address.add_width_le_totalWidth hf hrowMem (by rintro rfl; exact hlevel rfl)
    dsimp only at hle
    omega

end NearMemory
