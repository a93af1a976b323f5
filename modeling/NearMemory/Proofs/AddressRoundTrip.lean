import NearMemory.Proofs.AddressFields

/-!
# Tuples read back

A linear address has a field for every entry of its map. A level may be listed more than once: its
value is then laid out in every one of its fields, each time cut to the width of that field, and
reading keeps the last. So a tuple that is laid out and read back holds every level up to the width
of its last entry, and zero where a level is not listed.

Where no level is listed twice, that is all that is lost, in whatever order the levels stand and
whatever the base is. Tuples that fit their fields are read back as they were, so they have
addresses of their own.

A map may fill a word. Then a field that follows, even one without bits, cannot be placed, and a
field that is as wide as the word cannot be read. This is a matter of the map alone: all tuples have
addresses or none has, and all addresses can be read or none can.

## Main definitions

* `Address.Map.lastWidth` — the width of the entry that reading keeps
* `Address.Map.InRange` — the tuples whose values fit their fields

## Main results

* `Address.fieldsValue_div_mod` — what is laid out for an entry
* `Address.toNat_get_extract` — what is read from an entry
* `Address.Map.get_ofLinear_toLinear` — a tuple laid out and read back
* `Address.Map.isPlaceable_iff`, `Address.Map.isReadable_iff` — the maps without overflow
* `Address.Map.linear_round_trip` — both ways around, where no level is listed twice
-/

namespace NearMemory

namespace Address

theorem Tuple.eq_of_get {t t' : Tuple} (h : ∀ level, t.get level = t'.get level) : t = t' := by
  cases t
  cases t'
  rw [Tuple.mk.injEq]
  exact ⟨h .channel, h .column, h .rank, h .bankGroup, h .bank, h .row⟩

variable {before after : List (Level × Nat)} {level : Level} {width : Nat}

/-! ### Fields in the middle -/

theorem totalWidth_append (before after : List (Level × Nat)) :
    totalWidth (before ++ after) = totalWidth before + totalWidth after := by
  induction before with
  | nil => simp [totalWidth]
  | cons f rest ih => rw [List.cons_append, totalWidth_cons, totalWidth_cons, ih, Nat.add_assoc]

theorem fieldsValue_append (t : Tuple) (before after : List (Level × Nat)) :
    fieldsValue t (before ++ after) =
      fieldsValue t before + 2 ^ totalWidth before * fieldsValue t after := by
  induction before with
  | nil => simp [fieldsValue, totalWidth]
  | cons f rest ih =>
    obtain ⟨first, skipped⟩ := f
    rw [List.cons_append, fieldsValue, fieldsValue, ih, totalWidth_cons, Nat.pow_add, Nat.mul_add,
      Nat.mul_assoc, Nat.add_assoc]

theorem fieldsValue_lt (t : Tuple) (fields : List (Level × Nat)) :
    fieldsValue t fields < 2 ^ totalWidth fields := by
  induction fields with
  | nil => simp [fieldsValue, totalWidth]
  | cons f rest ih =>
    obtain ⟨first, skipped⟩ := f
    have hfirst : (t.get first).toNat % 2 ^ skipped < 2 ^ skipped :=
      Nat.mod_lt _ (Nat.two_pow_pos skipped)
    calc fieldsValue t ((first, skipped) :: rest)
        < 2 ^ skipped + 2 ^ skipped * fieldsValue t rest := Nat.add_lt_add_right hfirst _
      _ = 2 ^ skipped * (fieldsValue t rest + 1) := by rw [Nat.mul_add_one, Nat.add_comm]
      _ ≤ 2 ^ skipped * 2 ^ totalWidth rest := Nat.mul_le_mul_left _ ih
      _ = 2 ^ totalWidth ((first, skipped) :: rest) := by rw [totalWidth_cons, Nat.pow_add]

/-- **What is laid out for an entry** is the value of its level, cut to its width. -/
theorem fieldsValue_div_mod (t : Tuple) (before after : List (Level × Nat)) (level : Level)
    (width : Nat) :
    fieldsValue t (before ++ (level, width) :: after) / 2 ^ totalWidth before % 2 ^ width =
      (t.get level).toNat % 2 ^ width := by
  rw [fieldsValue_append, fieldsValue, Nat.add_mul_div_left _ _ (Nat.two_pow_pos _),
    Nat.div_eq_of_lt (fieldsValue_lt t before), Nat.zero_add, Nat.add_mul_mod_self_left,
    Nat.mod_mod]

/-- **What is read from an entry** are the bits at its place. It stays as it is read if its level
does not come again. -/
theorem toNat_get_extract {linear : UInt64} {t : Tuple} (hlast : level ∉ after.map Prod.fst)
    (htotal : totalWidth (before ++ (level, width) :: after) ≤ 64) :
    ((Map.extract linear t (before ++ (level, width) :: after)).get level).toNat =
      linear.toNat / 2 ^ totalWidth before % 2 ^ width := by
  have hwidth : width ≤ totalWidth ((level, width) :: after) :=
    width_le_totalWidth (f := (level, width)) List.mem_cons_self
  induction before generalizing linear t with
  | nil =>
    rw [List.nil_append] at htotal ⊢
    rw [Map.extract, get_extract_of_notMem hlast, Tuple.get_set_self,
      toNat_and_lowBits _ (Nat.le_trans hwidth htotal), totalWidth, List.foldr_nil, Nat.pow_zero,
      Nat.div_one]
  | cons f rest ih =>
    obtain ⟨first, skipped⟩ := f
    rw [List.cons_append, totalWidth_cons] at htotal
    rw [List.cons_append, Map.extract, ih (by omega), totalWidth_cons, Nat.pow_add,
      ← Nat.div_div_eq_div_mul]
    by_cases hlt : skipped < 64
    · rw [toNat_shiftRight_ofNat _ hlt]
    · -- the whole word is taken, so there are no bits to read here
      obtain rfl : width = 0 := by
        rw [totalWidth_append] at htotal
        omega
      rw [Nat.pow_zero, Nat.mod_one, Nat.mod_one]

namespace Map

variable {m : Map} {t t' : Tuple}

/-- The width of the last entry of a level, zero if the level is not listed. -/
def lastWidth (m : Map) (level : Level) : Nat :=
  (m.levels.reverse.lookup level).getD 0

/-- The tuples that fit a map: every value fits the fields of its level, and a level that is not
listed is zero. -/
structure InRange (m : Map) (t : Tuple) : Prop where
  /-- Values fit their fields. -/
  fits : ∀ f ∈ m.levels, (t.get f.1).toNat < 2 ^ f.2
  /-- There is nothing where there is no field. -/
  unlisted : ∀ level, level ∉ m.levels.map Prod.fst → t.get level = 0

theorem lastWidth_of_notMem (h : level ∉ m.levels.map Prod.fst) : m.lastWidth level = 0 := by
  have hlookup : m.levels.reverse.lookup level = none := by
    rw [List.lookup_eq_none_iff]
    intro f hf
    have hne : level ≠ f.1 := by
      rintro rfl
      exact h (List.mem_map_of_mem (List.mem_reverse.mp hf))
    simpa using hne
  rw [lastWidth, hlookup, Option.getD_none]

/-- The last entry of a level that is listed. -/
theorem exists_last_entry (h : level ∈ m.levels.map Prod.fst) :
    ∃ before after, m.levels = before ++ (level, m.lastWidth level) :: after ∧
      level ∉ after.map Prod.fst := by
  cases hlookup : m.levels.reverse.lookup level with
  | none =>
    obtain ⟨f, hf, rfl⟩ := List.mem_map.mp h
    have hne := List.lookup_eq_none_iff.mp hlookup f (List.mem_reverse.mpr hf)
    simp at hne
  | some width =>
    obtain ⟨behind, ahead, hsplit, hbehind⟩ := List.lookup_eq_some_iff.mp hlookup
    refine ⟨ahead.reverse, behind.reverse, ?_, ?_⟩
    · rw [lastWidth, hlookup, Option.getD_some, ← List.reverse_inj, hsplit]
      simp
    · intro hmem
      obtain ⟨f, hf, heq⟩ := List.mem_map.mp hmem
      simpa [heq] using hbehind f (List.mem_reverse.mp hf)

/-- Where no level is listed twice, the only entry is the last. -/
theorem lastWidth_eq_of_mem (hlevels : (m.levels.map Prod.fst).Nodup)
    (h : (level, width) ∈ m.levels) : m.lastWidth level = width := by
  obtain ⟨before, after, hsplit, -⟩ := exists_last_entry (List.mem_map_of_mem h)
  have hmem : (level, m.lastWidth level) ∈ m.levels := by
    rw [hsplit]
    simp
  exact congrArg Prod.snd (List.inj_on_of_nodup_map hlevels hmem h rfl)

/-! ### Both ways around -/

/-- **A tuple laid out and read back** holds every level up to the width of its last entry. -/
theorem get_ofLinear_toLinear (htotal : totalWidth m.levels ≤ 64) (t : Tuple) (level : Level) :
    ((m.ofLinear (m.toLinear t)).get level).toNat =
      (t.get level).toNat % 2 ^ m.lastWidth level := by
  rw [toLinear, ofLinear, UInt64.add_comm, UInt64.add_sub_cancel]
  by_cases hmem : level ∈ m.levels.map Prod.fst
  · obtain ⟨before, after, hsplit, hlast⟩ := exists_last_entry hmem
    have hvalue := toNat_place_levels t htotal
    rw [hsplit] at htotal hvalue ⊢
    rw [toNat_get_extract hlast htotal, hvalue, fieldsValue_div_mod]
  · rw [get_extract_of_notMem hmem, lastWidth_of_notMem hmem, Nat.pow_zero, Nat.mod_one]
    cases level <;> rfl

/-- A tuple in range is read back as it was. -/
theorem InRange.ofLinear_toLinear (h : m.InRange t) (hlevels : (m.levels.map Prod.fst).Nodup)
    (htotal : totalWidth m.levels ≤ 64) : m.ofLinear (m.toLinear t) = t := by
  refine Tuple.eq_of_get fun level => UInt64.toNat_inj.mp ?_
  rw [get_ofLinear_toLinear htotal]
  by_cases hmem : level ∈ m.levels.map Prod.fst
  · obtain ⟨f, hf, rfl⟩ := List.mem_map.mp hmem
    rw [lastWidth_eq_of_mem hlevels hf]
    exact Nat.mod_eq_of_lt (h.fits f hf)
  · rw [h.unlisted level hmem]
    exact Nat.zero_mod _

/-! ### Overflow -/

theorem startWithin_iff {offset : Nat} {fields : List (Level × Nat)}
    (h : offset + totalWidth fields < UInt32.size) :
    startWithin offset fields = true ↔
      ∀ before f after, fields = before ++ f :: after → offset + totalWidth before < 64 := by
  induction fields generalizing offset with
  | nil => simp [startWithin]
  | cons first rest ih =>
    obtain ⟨level, width⟩ := first
    rw [totalWidth_cons] at h
    have hrest : startWithin (offset + width) rest = true ↔ _ := ih (by omega)
    simp only [startWithin, Bool.and_eq_true, decide_eq_true_eq, hrest]
    constructor
    · rintro ⟨⟨hfirst, -⟩, hrest⟩ before f after heq
      cases before with
      | nil => exact hfirst
      | cons first before =>
        obtain ⟨rfl, hlater⟩ := List.cons.inj heq
        rw [totalWidth_cons, ← Nat.add_assoc]
        exact hrest before f after hlater
    · intro hall
      refine ⟨⟨hall [] _ rest rfl, by omega⟩, ?_⟩
      intro before f after heq
      rw [Nat.add_assoc, ← totalWidth_cons level]
      exact hall ((level, width) :: before) f after (heq ▸ rfl)

/-- Tuples can be laid out if every field starts within the word. -/
theorem isPlaceable_iff (htotal : totalWidth m.levels ≤ 64) :
    m.isPlaceable = true ↔
      ∀ before f after, m.levels = before ++ f :: after → totalWidth before < 64 := by
  have hsize : 0 + totalWidth m.levels < UInt32.size := by
    rw [Nat.zero_add]
    exact Nat.lt_of_le_of_lt htotal (by decide)
  rw [isPlaceable, startWithin_iff hsize]
  simp only [Nat.zero_add]

/-- Addresses can be read if every field is narrower than the word. -/
theorem isReadable_iff : m.isReadable = true ↔ ∀ f ∈ m.levels, f.2 < 64 := by
  simp [isReadable]

theorem toLinear?_eq_some_iff {linear : UInt64} :
    m.toLinear? t = some linear ↔ m.isPlaceable = true ∧ m.toLinear t = linear := by
  simp [toLinear?]

theorem ofLinear?_eq_some_iff {address : UInt64} :
    m.ofLinear? address = some t ↔ m.isReadable = true ∧ m.ofLinear address = t := by
  simp [ofLinear?]

/-- **The two directions of a map undo each other** where no level is listed twice: a tuple is read
back up to the widths of its fields, an address is laid out again up to the span of the map, and
tuples in range have addresses of their own. A tuple has an address unless some field starts behind
the word, and an address can be read unless some field takes the whole word. -/
theorem linear_round_trip (m : Map) (hlevels : (m.levels.map Prod.fst).Nodup)
    (htotal : totalWidth m.levels ≤ 64) :
    (∀ t : Tuple, (m.toLinear? t).isSome ↔
      ∀ before f after, m.levels = before ++ f :: after → totalWidth before < 64) ∧
    (∀ address : UInt64, (m.ofLinear? address).isSome ↔ ∀ f ∈ m.levels, f.2 < 64) ∧
    (∀ (t : Tuple) (linear : UInt64) (t' : Tuple),
      m.toLinear? t = some linear → m.ofLinear? linear = some t' →
        (∀ f ∈ m.levels, (t'.get f.1).toNat = (t.get f.1).toNat % 2 ^ f.2) ∧
        ∀ level, level ∉ m.levels.map Prod.fst → t'.get level = 0) ∧
    (∀ (address : UInt64) (t : Tuple) (again : UInt64),
      m.ofLinear? address = some t → m.toLinear? t = some again →
        again = m.base + UInt64.ofNat ((address - m.base).toNat % 2 ^ totalWidth m.levels)) ∧
    ∀ (t t' : Tuple) (linear : UInt64), m.InRange t → m.InRange t' →
      m.toLinear? t = some linear → m.toLinear? t' = some linear → t = t' := by
  refine ⟨fun t => ?_, fun address => ?_, ?_, ?_, ?_⟩
  · rw [← isPlaceable_iff htotal, toLinear?, Option.isSome_ite]
  · rw [← isReadable_iff, ofLinear?, Option.isSome_ite]
  · intro t linear t' hlinear hread
    obtain ⟨-, rfl⟩ := toLinear?_eq_some_iff.mp hlinear
    obtain ⟨-, rfl⟩ := ofLinear?_eq_some_iff.mp hread
    refine ⟨fun f hf => ?_, fun level hlevel => ?_⟩
    · rw [get_ofLinear_toLinear htotal, lastWidth_eq_of_mem hlevels hf]
    · have hvalue := get_ofLinear_toLinear htotal t level
      rw [lastWidth_of_notMem hlevel, Nat.pow_zero, Nat.mod_one] at hvalue
      exact UInt64.toNat_inj.mp hvalue
  · intro address t again hread hagain
    obtain ⟨hreadable, rfl⟩ := ofLinear?_eq_some_iff.mp hread
    obtain ⟨-, rfl⟩ := toLinear?_eq_some_iff.mp hagain
    exact toLinear_ofLinear hlevels (isReadable_iff.mp hreadable) htotal address
  · intro t t' linear ht ht' hlinear hlinear'
    obtain ⟨-, rfl⟩ := toLinear?_eq_some_iff.mp hlinear
    obtain ⟨-, heq⟩ := toLinear?_eq_some_iff.mp hlinear'
    rw [← ht.ofLinear_toLinear hlevels htotal, ← heq, ht'.ofLinear_toLinear hlevels htotal]

/-- A base just below the end of the address space, levels out of order and a field without bits.
The values are too wide for their fields and the address for the span; a bank is not listed. Two
tuples in range differ in one column. -/
theorem linear_round_trip_around_zero :
    let m : Map := ⟨0xFFFFFFFFFFFFFFF0, [(.row, 30), (.rank, 0), (.column, 6)]⟩
    let t : Tuple := { row := 0x40000005, rank := 1, column := 70, bank := 9 }
    m.toLinear? t = some 0x17FFFFFF5 ∧
    (∃ t', m.ofLinear? 0x17FFFFFF5 = some t' ∧ (t'.get .row).toNat = 5 ∧
      (t'.get .rank).toNat = 0 ∧ (t'.get .column).toNat = 6 ∧ t'.get .bank = 0) ∧
    (m.ofLinear? 0x10000000005).bind m.toLinear? = some 5 ∧
    m.toLinear? { row := 5, column := 6 } ≠ m.toLinear? { row := 5, column := 7 } := by
  intro m t
  obtain ⟨-, hreads, htuple, haddress, hinjective⟩ := linear_round_trip m (by decide) (by decide)
  have hlinear : m.toLinear? t = some 0x17FFFFFF5 := by decide
  obtain ⟨t', ht'⟩ := Option.isSome_iff_exists.mp ((hreads 0x17FFFFFF5).mpr (by decide))
  obtain ⟨hlisted, hunlisted⟩ := htuple t _ t' hlinear ht'
  refine ⟨hlinear, ⟨t', ht', ?_, ?_, ?_, hunlisted .bank (by decide)⟩, ?_, ?_⟩
  · exact (hlisted (.row, 30) (by decide)).trans (by decide)
  · exact (hlisted (.rank, 0) (by decide)).trans (by decide)
  · exact (hlisted (.column, 6) (by decide)).trans (by decide)
  · obtain ⟨again, hagain⟩ := Option.isSome_iff_exists.mp
      (show ((m.ofLinear? 0x10000000005).bind m.toLinear?).isSome = true by decide)
    obtain ⟨read, hread, hplaced⟩ := Option.bind_eq_some_iff.mp hagain
    rw [hagain, haddress _ read again hread hplaced]
    decide
  · intro heq
    have hsix : m.InRange { row := 5, column := 6 } :=
      ⟨by decide, fun level => by cases level <;> decide⟩
    have hseven : m.InRange { row := 5, column := 7 } :=
      ⟨by decide, fun level => by cases level <;> decide⟩
    have hplaced : m.toLinear? { row := 5, column := 6 } = some 0x17FFFFFF5 := by decide
    exact absurd (hinjective _ _ _ hsix hseven hplaced (heq ▸ hplaced)) (by decide)

/-- **A map that fills a word may stop a run.** A field of 64 bits is laid out but not read. Behind
fields of 64 bits, one without bits is read but not laid out, on hardware that passes its check. -/
theorem filled_word_overflows :
    (let m : Map := ⟨0, [(.bank, 64)]⟩
    (m.levels.map Prod.fst).Nodup ∧ totalWidth m.levels = 64 ∧
      m.toLinear? { bank := 3 } = some 3 ∧ m.ofLinear? 3 = none) ∧
    (let m : Map := ⟨0, [(.column, 6), (.row, 58), (.rank, 0)]⟩
    ({ addressMap := m } : Hardware).violation? = none ∧ (m.levels.map Prod.fst).Nodup ∧
      totalWidth m.levels = 64 ∧
      m.ofLinear? 3 = some { column := 3 } ∧ m.toLinear? { column := 3 } = none) := by
  decide

end Map

end Address

end NearMemory
