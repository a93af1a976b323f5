import NearMemory.Instruction.Word
import NearMemory.LoopRegister
import NearMemory.Proofs.StatementText
import Mathlib.Algebra.Order.Ring.Nat

/-!
# Packed words read back

A packed word keeps the opcode, the storage classes, the width and the width step of an operation,
and of each numeric field as many bits as the word has for it. So an operation of the right shape
decodes to itself with the numeric fields cut, and a loop register whose fields fit decodes to
itself.

## Main definitions

* `Operation.Legal` — the operations that a packed word can stand for
* `Word.cutUp` — the fields at the low end of a word

## Main results

* `Word.pack_cutUp`, `Word.cutUp_pack` — fields are packed and cut up in place
* `Operation.decode?_encode` — a packed word stands for the operation as packed
* `Instruction.Written.legal` — what a line can say can be packed
* `LoopRegister.decode_encode` — a loop register that fits reads back
-/

namespace NearMemory

open Word

/-- The operations that a packed word can stand for, up to the bits of numeric fields. -/
def Operation.Legal : Operation → Prop
  | .move m => m.opcode.family = .move ∧ m.dst.Legal ∧ m.src.Legal
  | .arithmetic c =>
    c.opcode.family = .arithmetic ∧ c.subword ∈ Subword.ladder ∧ c.dst.Legal ∧ c.src.Legal
  | .pack p => p.dst.Legal

/-! ### Codes -/

theorem Opcode.number_lt (o : Opcode) : o.number < 1 <<< opcodeBits := by
  cases o <;> decide

theorem Opcode.ofNumber?_number (o : Opcode) : ofNumber? o.number = some o := by
  cases o <;> rfl

theorem Storage.code_lt {s : Storage} (hs : s.Legal) : s.code < 1 <<< storageBits := by
  cases s with
  | vwr v =>
    have hv : v < 2 := hs
    show 5 + v < 8
    omega
  | _ => decide

theorem Storage.ofCode?_code {s : Storage} (hs : s.Legal) : ofCode? s.code = some s := by
  cases s with
  | vwr v =>
    obtain rfl | rfl : v = 0 ∨ v = 1 := by simp only [Legal] at hs; omega
    · rfl
    · rfl
  | _ => rfl

theorem WidthStep.selector_lt (r : WidthStep) : r.selector < 1 <<< stepBits := by
  cases r <;> decide

theorem WidthStep.ofSelector?_selector (r : WidthStep) : ofSelector? r.selector = some r := by
  cases r <;> rfl

theorem Subword.getElem?_index? {width : Nat} (h : width ∈ ladder) :
    (index? width).getD 0 < 1 <<< subwordBits ∧ ladder[(index? width).getD 0]? = some width := by
  have hladder : ∀ w ∈ ladder,
      (index? w).getD 0 < 1 <<< subwordBits ∧ ladder[(index? w).getD 0]? = some w := by decide
  exact hladder width h

/-! ### Fields -/

namespace Word

theorem one_shiftLeft_add (m n : Nat) : 1 <<< (m + n) = (1 <<< m) * (1 <<< n) := by
  simp only [Nat.one_shiftLeft, Nat.pow_add]

theorem field_mod (word low bits : Nat) :
    field word low bits % (1 <<< bits) = field word low bits := by
  rw [field, Nat.mod_mod]

/-- Neighbouring fields are one field. -/
theorem field_join (word low bits upper : Nat) :
    field word (low + bits) upper * (1 <<< bits) + field word low bits =
      field word low (bits + upper) := by
  simp only [field, one_shiftLeft_add]
  rw [← Nat.div_div_eq_div_mul, Nat.mod_mul, Nat.add_comm, Nat.mul_comm]

/-- What stands above a group that fits below it is a field of the word. -/
theorem field_above {upper group low bits : Nat} (hgroup : group < 1 <<< low) :
    field (upper * (1 <<< low) + group) low bits = upper % (1 <<< bits) := by
  rw [field, Nat.mul_comm, Nat.mul_add_div (Nat.zero_lt_of_lt hgroup), Nat.div_eq_of_lt hgroup,
    Nat.add_zero]

theorem foldl_pack (acc : Nat) (fields : List (Nat × Nat)) :
    fields.foldl (fun acc field => acc * (1 <<< field.2) + field.1 % (1 <<< field.2)) acc =
      acc * (1 <<< (fields.map Prod.snd).sum) + pack fields := by
  induction fields generalizing acc with
  | nil => simp [pack]
  | cons f rest ih =>
    rw [pack, List.foldl_cons, List.foldl_cons, ih, ih, List.map_cons, List.sum_cons,
      one_shiftLeft_add, Nat.zero_mul, Nat.zero_add, Nat.add_mul, Nat.mul_assoc, Nat.add_assoc]

/-- The first field stands above the others. -/
theorem pack_cons (f : Nat × Nat) (rest : List (Nat × Nat)) :
    pack (f :: rest) =
      f.1 % (1 <<< f.2) * (1 <<< (rest.map Prod.snd).sum) + pack rest := by
  rw [pack, List.foldl_cons, foldl_pack, Nat.zero_mul, Nat.zero_add]

theorem pack_lt (fields : List (Nat × Nat)) : pack fields < 1 <<< (fields.map Prod.snd).sum := by
  induction fields with
  | nil => decide
  | cons f rest ih =>
    have hfield : f.1 % (1 <<< f.2) < 1 <<< f.2 := by
      rw [Nat.one_shiftLeft]
      exact Nat.mod_lt _ (Nat.two_pow_pos _)
    rw [pack_cons, List.map_cons, List.sum_cons, one_shiftLeft_add]
    calc f.1 % (1 <<< f.2) * (1 <<< (rest.map Prod.snd).sum) + pack rest
        < (f.1 % (1 <<< f.2) + 1) * (1 <<< (rest.map Prod.snd).sum) := by
          rw [Nat.succ_mul]
          exact Nat.add_lt_add_left ih _
      _ ≤ (1 <<< f.2) * (1 <<< (rest.map Prod.snd).sum) := Nat.mul_le_mul_right _ hfield

/-- The fields at the low end of a word, given by their bits from the most significant on. -/
def cutUp (word : Nat) : List Nat → List (Nat × Nat)
  | [] => []
  | bits :: rest => (field word rest.sum bits, bits) :: cutUp word rest

theorem map_snd_cutUp (word : Nat) (widths : List Nat) :
    (cutUp word widths).map Prod.snd = widths := by
  induction widths with
  | nil => rfl
  | cons bits rest ih => rw [cutUp, List.map_cons, ih]

/-- Fields that are packed again in place make up the low end of the word. -/
theorem pack_cutUp (word : Nat) (widths : List Nat) :
    pack (cutUp word widths) = field word 0 widths.sum := by
  induction widths with
  | nil => exact (Nat.mod_one _).symm
  | cons bits rest ih =>
    have hjoin := field_join word 0 rest.sum bits
    rw [Nat.zero_add] at hjoin
    rw [cutUp, pack_cons, map_snd_cutUp, ih, field_mod, hjoin, List.sum_cons, Nat.add_comm]

/-- Packed fields are cut to their bits, whatever stands above them. -/
theorem cutUp_pack (upper : Nat) (fields : List (Nat × Nat)) :
    cutUp (upper * (1 <<< (fields.map Prod.snd).sum) + pack fields) (fields.map Prod.snd) =
      fields.map fun f => (f.1 % (1 <<< f.2), f.2) := by
  induction fields generalizing upper with
  | nil => rfl
  | cons f rest ih =>
    have hword : upper * (1 <<< ((f :: rest).map Prod.snd).sum) + pack (f :: rest) =
        (upper * (1 <<< f.2) + f.1 % (1 <<< f.2)) * (1 <<< (rest.map Prod.snd).sum) +
          pack rest := by
      rw [pack_cons, List.map_cons, List.sum_cons, one_shiftLeft_add, Nat.add_mul, Nat.mul_assoc,
        Nat.add_assoc]
    rw [hword, List.map_cons, cutUp, ih, field_above (pack_lt rest), Nat.mul_add_mod_self_right,
      Nat.mod_mod, List.map_cons]

/-- The fields of a group that stands below bit `low`, read back from the word. -/
theorem cutUp_group {word number low : Nat} {fields : List (Nat × Nat)}
    (hword : word = number * (1 <<< low) + pack fields)
    (hlow : (fields.map Prod.snd).sum ≤ low) :
    cutUp word (fields.map Prod.snd) = fields.map fun f => (f.1 % (1 <<< f.2), f.2) := by
  obtain ⟨free, rfl⟩ := Nat.exists_eq_add_of_le' hlow
  rw [hword, one_shiftLeft_add, ← Nat.mul_assoc, cutUp_pack]

end Word

/-- The fields of a packed move. -/
theorem fields_move {w number imm dst src : Nat} (hdst : dst < 1 <<< storageBits)
    (hsrc : src < 1 <<< storageBits)
    (hw : w = number * (1 <<< groupBits) +
      pack [(imm, immBits), (dst, storageBits), (src, storageBits)]) :
    field w 6 immBits = imm % (1 <<< immBits) ∧ field w 3 storageBits = dst ∧
      field w 0 storageBits = src := by
  have hfields := cutUp_group hw (by simp only [List.map]; decide)
  simp only [List.map, cutUp, List.cons.injEq, Prod.mk.injEq, and_true, Nat.mod_eq_of_lt hdst,
    Nat.mod_eq_of_lt hsrc] at hfields
  exact hfields

/-- The fields of a packed arithmetic operation. -/
theorem fields_arithmetic {w number width csd dstIndex srcIndex dst src : Nat}
    (hwidth : width < 1 <<< subwordBits) (hdst : dst < 1 <<< storageBits)
    (hsrc : src < 1 <<< storageBits)
    (hw : w = number * (1 <<< groupBits) + pack [(width, subwordBits), (csd, csdBits),
      (dstIndex, indexBits), (srcIndex, indexBits), (dst, storageBits), (src, storageBits)]) :
    field w 20 subwordBits = width ∧ field w 16 csdBits = csd % (1 <<< csdBits) ∧
      field w 11 indexBits = dstIndex % (1 <<< indexBits) ∧
      field w 6 indexBits = srcIndex % (1 <<< indexBits) ∧ field w 3 storageBits = dst ∧
      field w 0 storageBits = src := by
  have hfields := cutUp_group hw (by simp only [List.map]; decide)
  simp only [List.map, cutUp, List.cons.injEq, Prod.mk.injEq, and_true, Nat.mod_eq_of_lt hwidth,
    Nat.mod_eq_of_lt hdst, Nat.mod_eq_of_lt hsrc] at hfields
  exact hfields

/-- The fields of a packed pack. -/
theorem fields_pack {w number step offset dstIndex dst : Nat} (hstep : step < 1 <<< stepBits)
    (hdst : dst < 1 <<< storageBits)
    (hw : w = number * (1 <<< groupBits) + pack [(step, stepBits), (offset, offsetBits),
      (dstIndex, indexBits), (dst, storageBits)]) :
    field w 12 stepBits = step ∧ field w 8 offsetBits = offset % (1 <<< offsetBits) ∧
      field w 3 indexBits = dstIndex % (1 <<< indexBits) ∧ field w 0 storageBits = dst := by
  have hfields := cutUp_group hw (by simp only [List.map]; decide)
  simp only [List.map, cutUp, List.cons.injEq, Prod.mk.injEq, and_true, Nat.mod_eq_of_lt hstep,
    Nat.mod_eq_of_lt hdst] at hfields
  exact hfields

/-! ### Operations -/

namespace Operation

theorem fieldGroup_lt (op : Operation) : op.fieldGroup < 1 <<< groupBits := by
  cases op with
  | move => exact Nat.lt_of_lt_of_le (pack_lt _) (by simp only [List.map]; decide)
  | arithmetic => exact pack_lt _
  | pack => exact Nat.lt_of_lt_of_le (pack_lt _) (by simp only [List.map]; decide)

/-- The opcode stands above the field group. -/
theorem toNat_encode (op : Operation) :
    op.encode.toNat = op.opcode.number * (1 <<< groupBits) + op.fieldGroup := by
  have hnumber := op.opcode.number_lt
  have hgroup := op.fieldGroup_lt
  rw [encode, Nat.mod_eq_of_lt hnumber, UInt32.toNat_ofNat']
  simp only [opcodeBits, groupBits, Nat.one_shiftLeft] at *
  omega

theorem field_opcode_encode (op : Operation) :
    field op.encode.toNat groupBits opcodeBits = op.opcode.number := by
  rw [toNat_encode, field_above op.fieldGroup_lt, Nat.mod_eq_of_lt op.opcode.number_lt]

section Decode

variable {word : UInt32} {opcode : Opcode} {dst src : Storage}

theorem decode?_move (hfamily : opcode.family = .move)
    (hopcode : field word.toNat groupBits opcodeBits = opcode.number)
    (hdst : Storage.ofCode? (field word.toNat 3 storageBits) = some dst)
    (hsrc : Storage.ofCode? (field word.toNat 0 storageBits) = some src) :
    decode? word = some (.move ⟨opcode, UInt32.ofNat (field word.toNat 6 immBits), dst, src⟩) := by
  simp only [decode?, hopcode, Opcode.ofNumber?_number, Option.bind_eq_bind, Option.bind_some,
    hfamily]
  rw [hsrc, Option.bind_some, hdst, Option.bind_some]
  rfl

theorem decode?_arithmetic {width : Nat} (hfamily : opcode.family = .arithmetic)
    (hopcode : field word.toNat groupBits opcodeBits = opcode.number)
    (hwidth : Subword.ladder[field word.toNat 20 subwordBits]? = some width)
    (hdst : Storage.ofCode? (field word.toNat 3 storageBits) = some dst)
    (hsrc : Storage.ofCode? (field word.toNat 0 storageBits) = some src) :
    decode? word = some (.arithmetic ⟨opcode, width, UInt32.ofNat (field word.toNat 16 csdBits),
      UInt32.ofNat (field word.toNat 11 indexBits), UInt32.ofNat (field word.toNat 6 indexBits),
      dst, src⟩) := by
  simp only [decode?, hopcode, Opcode.ofNumber?_number, Option.bind_eq_bind, Option.bind_some,
    hfamily]
  rw [hsrc, Option.bind_some, hdst, Option.bind_some, hwidth, Option.bind_some]
  rfl

theorem decode?_pack {step : WidthStep}
    (hopcode : field word.toNat groupBits opcodeBits = Opcode.number .pack)
    (hstep : WidthStep.ofSelector? (field word.toNat 12 stepBits) = some step)
    (hdst : Storage.ofCode? (field word.toNat 0 storageBits) = some dst) :
    decode? word = some (.pack ⟨step, UInt32.ofNat (field word.toNat 8 offsetBits),
      UInt32.ofNat (field word.toNat 3 indexBits), dst⟩) := by
  simp only [decode?, hopcode, Opcode.ofNumber?_number, Option.bind_eq_bind, Option.bind_some,
    Opcode.family]
  rw [hdst, Option.bind_some, hstep, Option.bind_some]
  rfl

end Decode

/-- **A packed word stands for the operation as packed.** -/
theorem decode?_encode {op : Operation} (h : op.Legal) : decode? op.encode = some op.asPacked := by
  have hw := op.toNat_encode
  have hopcode := op.field_opcode_encode
  cases op with
  | move m =>
    rw [opcode, fieldGroup] at hw
    obtain ⟨hfamily, hdst, hsrc⟩ := h
    obtain ⟨himm, hdst', hsrc'⟩ := fields_move (Storage.code_lt hdst) (Storage.code_lt hsrc) hw
    rw [decode?_move hfamily hopcode (by rw [hdst', Storage.ofCode?_code hdst])
      (by rw [hsrc', Storage.ofCode?_code hsrc]), himm, asPacked, cut]
  | arithmetic c =>
    rw [opcode, fieldGroup] at hw
    obtain ⟨hfamily, hwidth, hdst, hsrc⟩ := h
    obtain ⟨hwidth_lt, hladder⟩ := Subword.getElem?_index? hwidth
    obtain ⟨hwidth', hcsd, hdstIndex, hsrcIndex, hdst', hsrc'⟩ := fields_arithmetic hwidth_lt
      (Storage.code_lt hdst) (Storage.code_lt hsrc) hw
    rw [decode?_arithmetic hfamily hopcode (by rw [hwidth', hladder])
      (by rw [hdst', Storage.ofCode?_code hdst]) (by rw [hsrc', Storage.ofCode?_code hsrc]), hcsd,
      hdstIndex, hsrcIndex, asPacked, cut, cut, cut]
  | pack p =>
    rw [opcode, fieldGroup] at hw
    obtain ⟨hstep, hoffset, hdstIndex, hdst⟩ := fields_pack p.step.selector_lt
      (Storage.code_lt h) hw
    rw [decode?_pack hopcode (by rw [hstep, WidthStep.ofSelector?_selector])
      (by rw [hdst, Storage.ofCode?_code h]), hoffset, hdstIndex, asPacked, cut, cut]

theorem opcode_asPacked (op : Operation) : op.asPacked.opcode = op.opcode := by
  cases op <;> rfl

end Operation

namespace LoopRegister

/-- **A loop register whose fields fit reads back.** -/
theorem decode_encode {r : LoopRegister} (hstart : r.start < 64) (hfinish : r.finish < 64)
    (hiterations : r.iterations < 1 <<< countBits) : decode r.encode = r := by
  obtain ⟨start, finish, iterations⟩ := r
  simp only [countBits, Nat.one_shiftLeft] at *
  simp only [decode, encode, UInt64.toNat_ofNat', Nat.one_shiftLeft, mk.injEq]
  omega

end LoopRegister

/-! ### What a line can say -/

theorem Instruction.Written.legal {i : Instruction} (h : i.Written) : i.op.Legal := by
  cases h with
  | nop | exit => exact ⟨rfl, trivial, trivial⟩
  | readRow hv => exact ⟨rfl, hv, trivial⟩
  | writeRow hv => exact ⟨rfl, trivial, hv⟩
  | loadConstant => exact ⟨rfl, trivial, trivial⟩
  | loadWord hreg _ hv => exact ⟨rfl, Storage.legal_of_not_isVwr hreg, hv⟩
  | storeWord hreg _ hv => exact ⟨rfl, hv, Storage.legal_of_not_isVwr hreg⟩
  | moveRegister hdst hsrc =>
    exact ⟨rfl, Storage.legal_of_not_isVwr hdst, Storage.legal_of_not_isVwr hsrc⟩
  | permute hv => exact ⟨rfl, hv, hv⟩
  | pack _ _ _ hv => exact hv
  | arithmetic hc => exact ⟨hc.opcode_family, hc.width_mem, hc.dst_legal, hc.src_legal⟩

end NearMemory
