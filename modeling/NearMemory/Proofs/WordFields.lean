import NearMemory.Proofs.PackedWord

/-!
# Words and operations

Packing and unpacking are inverse to each other up to what a word has no room for. On the way out an
operation loses the high bits of its numeric fields (`Operation.decode?_encode`), and it loses
nothing exactly if no field is reported as cut. On the way back a word loses the bits that its
family does not use (`Operation.Reads.testBit_encode`): every word that stands for an operation
agrees with the packed word of that operation on the opcode and on the field group, and the packed
word has no other bits.

## Main definitions

* `Operation.groupWidth` — the bits of the field group of an operation
* `Operation.usesBit` — the bits of a word that belong to an operation
* `Operation.Reads` — what a word says of the operation that it stands for

## Main results

* `Operation.cutFields_eq_nil_iff_asPacked` — nothing is reported as cut exactly if nothing is cut
* `Operation.reads_of_decode?` — a word says all of the operation that it stands for
* `Operation.packed_round_trip` — packing and unpacking
-/

namespace NearMemory

open Word

/-! ### Codes -/

theorem Opcode.number_of_ofNumber? {n : Nat} {o : Opcode} (h : ofNumber? n = some o) :
    o.number = n := by
  have hall : ∀ i : Fin all.length, (all.get i).number = i := by decide
  obtain ⟨hn, rfl⟩ := List.getElem?_eq_some_iff.mp h
  exact hall ⟨n, hn⟩

theorem Opcode.eq_pack_of_family {o : Opcode} (h : o.family = .pack) : o = .pack := by
  cases o with
  | pack => rfl
  | _ => exact absurd h (by decide)

theorem Storage.of_ofCode? {code : Nat} {s : Storage} (h : ofCode? code = some s) :
    s.Legal ∧ s.code = code := by
  rw [ofCode?.eq_def] at h
  split at h
  case h_8 => contradiction
  all_goals
    obtain rfl := Option.some.inj h
    exact ⟨by simp [Legal], rfl⟩

theorem WidthStep.selector_of_ofSelector? {n : Nat} {r : WidthStep} (h : ofSelector? n = some r) :
    r.selector = n := by
  have hall : ∀ i : Fin all.length, (all.get i).selector = i := by decide
  obtain ⟨hn, rfl⟩ := List.getElem?_eq_some_iff.mp h
  exact hall ⟨n, hn⟩

theorem Subword.index?_of_getElem? {n width : Nat} (h : ladder[n]? = some width) :
    width ∈ ladder ∧ (index? width).getD 0 = n := by
  have hladder : ∀ i : Fin ladder.length, (index? (ladder.get i)).getD 0 = i := by decide
  refine ⟨List.mem_of_getElem? h, ?_⟩
  obtain ⟨hn, rfl⟩ := List.getElem?_eq_some_iff.mp h
  exact hladder ⟨n, hn⟩

/-! ### Fields that are cut -/

namespace Word

theorem toNat_cut (value : UInt32) (bits : Nat) :
    (cut value bits).toNat = value.toNat % (1 <<< bits) := by
  rw [cut, UInt32.toNat_ofNat']
  exact Nat.mod_eq_of_lt (Nat.lt_of_le_of_lt (Nat.mod_le _ _) value.toNat_lt)

theorem cut_eq_self_iff {value : UInt32} {bits : Nat} :
    cut value bits = value ↔ value.toNat < 1 <<< bits := by
  rw [← UInt32.toNat_inj, toNat_cut]
  refine ⟨fun h => ?_, Nat.mod_eq_of_lt⟩
  rw [← h, Nat.one_shiftLeft]
  exact Nat.mod_lt _ (Nat.two_pow_pos bits)

/-- A field of a word fits a 32-bit register. -/
theorem toNat_ofNat_field (word : UInt32) (low bits : Nat) :
    (UInt32.ofNat (field word.toNat low bits)).toNat = field word.toNat low bits := by
  rw [UInt32.toNat_ofNat']
  refine Nat.mod_eq_of_lt (Nat.lt_of_le_of_lt ?_ word.toNat_lt)
  exact Nat.le_trans (Nat.mod_le _ _) (Nat.div_le_self _ _)

theorem cut_field (word : UInt32) (low bits : Nat) :
    cut (UInt32.ofNat (field word.toNat low bits)) bits =
      UInt32.ofNat (field word.toNat low bits) := by
  rw [cut_eq_self_iff, toNat_ofNat_field, field, Nat.one_shiftLeft bits]
  exact Nat.mod_lt _ (Nat.two_pow_pos bits)

theorem testBit_field (word low bits bit : Nat) :
    (field word low bits).testBit bit = (decide (bit < bits) && word.testBit (low + bit)) := by
  rw [field, Nat.one_shiftLeft, Nat.one_shiftLeft, Nat.testBit_mod_two_pow,
    Nat.testBit_div_two_pow, Nat.add_comm]

end Word

namespace Operation

theorem asPacked_eq_self_iff {op : Operation} :
    op.asPacked = op ↔ ∀ f ∈ op.numericFields, cut f.value f.bits = f.value := by
  rcases op with ⟨⟨⟩⟩ | ⟨⟨⟩⟩ | ⟨⟨⟩⟩ <;> simp [asPacked, numericFields]

/-- **Nothing is reported as cut exactly if nothing is cut.** -/
theorem cutFields_eq_nil_iff_asPacked {op : Operation} : op.cutFields = [] ↔ op.asPacked = op := by
  rw [cutFields_eq_nil_iff, asPacked_eq_self_iff]
  exact forall₂_congr fun _ _ => cut_eq_self_iff.symm

/-! ### Bits of a word -/

/-- The bits of the field group of an operation. -/
def groupWidth : Operation → Nat
  | .move _ => immBits + 2 * storageBits
  | .arithmetic _ => subwordBits + csdBits + 2 * indexBits + 2 * storageBits
  | .pack _ => stepBits + offsetBits + indexBits + storageBits

/-- Whether a bit of a word belongs to the opcode or to the field group of the operation. -/
def usesBit (op : Operation) (bit : Nat) : Bool :=
  bit < op.groupWidth || (groupBits ≤ bit && bit < groupBits + opcodeBits)

theorem groupWidth_le (op : Operation) : op.groupWidth ≤ groupBits := by
  cases op <;>
    simp [groupWidth, groupBits, immBits, storageBits, subwordBits, csdBits, indexBits, stepBits,
      offsetBits]

/-- What a word says of the operation that it stands for. -/
structure Reads (word : UInt32) (op : Operation) : Prop where
  legal : op.Legal
  asPacked_eq : op.asPacked = op
  number_eq : op.opcode.number = field word.toNat groupBits opcodeBits
  fieldGroup_eq : op.fieldGroup = field word.toNat 0 op.groupWidth

/-- **Every word says all of the operation that it stands for.** -/
theorem reads_of_decode? {word : UInt32} {op : Operation} (h : decode? word = some op) :
    Reads word op := by
  obtain ⟨opcode, hopcode, h⟩ := Option.bind_eq_some_iff.mp h
  have hnumber := Opcode.number_of_ofNumber? hopcode
  split at h
  next hfamily =>
    obtain ⟨src, hsrc, h⟩ := Option.bind_eq_some_iff.mp h
    obtain ⟨dst, hdst, h⟩ := Option.bind_eq_some_iff.mp h
    obtain rfl := Option.some.inj h
    obtain ⟨hsrc_legal, hsrc_code⟩ := Storage.of_ofCode? hsrc
    obtain ⟨hdst_legal, hdst_code⟩ := Storage.of_ofCode? hdst
    refine ⟨⟨hfamily, hdst_legal, hsrc_legal⟩, ?_, hnumber, ?_⟩
    · rw [asPacked, cut_field]
    · simp only [fieldGroup, hsrc_code, hdst_code, toNat_ofNat_field]
      exact pack_cutUp word.toNat [immBits, storageBits, storageBits]
  next hfamily =>
    obtain ⟨src, hsrc, h⟩ := Option.bind_eq_some_iff.mp h
    obtain ⟨dst, hdst, h⟩ := Option.bind_eq_some_iff.mp h
    obtain ⟨width, hwidth, h⟩ := Option.bind_eq_some_iff.mp h
    obtain rfl := Option.some.inj h
    obtain ⟨hsrc_legal, hsrc_code⟩ := Storage.of_ofCode? hsrc
    obtain ⟨hdst_legal, hdst_code⟩ := Storage.of_ofCode? hdst
    obtain ⟨hwidth_mem, hwidth_index⟩ := Subword.index?_of_getElem? hwidth
    refine ⟨⟨hfamily, hwidth_mem, hdst_legal, hsrc_legal⟩, ?_, hnumber, ?_⟩
    · rw [asPacked, cut_field, cut_field, cut_field]
    · simp only [fieldGroup, hsrc_code, hdst_code, hwidth_index, toNat_ofNat_field]
      exact pack_cutUp word.toNat
        [subwordBits, csdBits, indexBits, indexBits, storageBits, storageBits]
  next hfamily =>
    obtain ⟨dst, hdst, h⟩ := Option.bind_eq_some_iff.mp h
    obtain ⟨step, hstep, h⟩ := Option.bind_eq_some_iff.mp h
    obtain rfl := Option.some.inj h
    obtain rfl := Opcode.eq_pack_of_family hfamily
    obtain ⟨hdst_legal, hdst_code⟩ := Storage.of_ofCode? hdst
    have hselector := WidthStep.selector_of_ofSelector? hstep
    refine ⟨hdst_legal, ?_, hnumber, ?_⟩
    · rw [asPacked, cut_field, cut_field]
    · simp only [fieldGroup, hdst_code, hselector, toNat_ofNat_field]
      exact pack_cutUp word.toNat [stepBits, offsetBits, indexBits, storageBits]

/-- The packed word of an operation has the bits of every word that stands for it, and no others. -/
theorem Reads.testBit_encode {word : UInt32} {op : Operation} (h : Reads word op) (bit : Nat) :
    op.encode.toNat.testBit bit = (op.usesBit bit && word.toNat.testBit bit) := by
  have hgroup := op.fieldGroup_lt
  have hwidth := op.groupWidth_le
  rw [Nat.one_shiftLeft] at hgroup
  rw [toNat_encode, Nat.one_shiftLeft, Nat.mul_comm, Nat.testBit_two_pow_mul_add _ hgroup,
    h.number_eq, h.fieldGroup_eq, testBit_field, testBit_field, usesBit]
  by_cases hbit : bit < groupBits
  · rw [if_pos hbit, Nat.zero_add, decide_eq_false (Nat.not_le.mpr hbit), Bool.false_and,
      Bool.or_false]
  · have hunused : ¬ bit < op.groupWidth := by omega
    have hopcode : bit - groupBits < opcodeBits ↔ bit < groupBits + opcodeBits := by omega
    rw [if_neg hbit, Nat.add_sub_cancel' (Nat.le_of_not_lt hbit), decide_eq_false hunused,
      Bool.false_or, decide_eq_true (Nat.le_of_not_lt hbit), Bool.true_and,
      decide_eq_decide.mpr hopcode]

/-- **Packing and unpacking.** A packed operation reads back with its numeric fields cut, and
nothing is cut exactly if no field is reported. An operation that some word stands for packs and
reads back as it is; its packed word agrees with that word on the opcode and on the field group, and
has no other bits. -/
theorem packed_round_trip :
    (∀ op : Operation, op.Legal → decode? op.encode = some op.asPacked) ∧
      (∀ op : Operation, op.cutFields = [] ↔ op.asPacked = op) ∧
      ∀ (word : UInt32) (op : Operation), decode? word = some op →
        op.asPacked = op ∧ decode? op.encode = some op ∧
          ∀ bit, op.encode.toNat.testBit bit = (op.usesBit bit && word.toNat.testBit bit) := by
  refine ⟨fun _ => decode?_encode, fun _ => cutFields_eq_nil_iff_asPacked, ?_⟩
  intro word op h
  have hreads := reads_of_decode? h
  have hback := decode?_encode hreads.legal
  rw [hreads.asPacked_eq] at hback
  exact ⟨hreads.asPacked_eq, hback, hreads.testBit_encode⟩

/-- A multiply whose three numeric fields are cut, and a word whose bits 22 and 27 belong to no
field of the operation that it stands for. -/
theorem packed_round_trip_cut_and_unused :
    (multiply 8 1 40 17).Legal ∧
      decode? (multiply 8 1 40 17).encode = some (multiply 8 1 8 1) ∧
      (multiply 8 1 40 17).cutFields ≠ [] ∧
      decode? 0x08400000 = some nop ∧ decode? nop.encode = some nop ∧
      ∀ bit, nop.encode.toNat.testBit bit =
        (nop.usesBit bit && (0x08400000 : UInt32).toNat.testBit bit) := by
  obtain ⟨hcut, hreported, hword⟩ := packed_round_trip
  have hlegal : (multiply 8 1 40 17).Legal :=
    ⟨rfl, by decide, Nat.one_lt_two, Nat.one_lt_two⟩
  have hnop : decode? 0x08400000 = some nop := by decide
  refine ⟨hlegal, hcut _ hlegal, ?_, hnop, (hword _ _ hnop).2⟩
  rw [ne_eq, hreported]
  decide

end Operation

end NearMemory
