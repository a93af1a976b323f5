import NearMemory.Proofs.AcceptedLines
import NearMemory.Proofs.LinePieces
import NearMemory.Proofs.StagedPrograms
import NearMemory.Proofs.WordFields

/-!
# Numbers of a line and fields of a word

A number of an instruction line goes through two places that are too small for it: the operation
keeps 32 bits of it, and the packed word three to five. What packing cuts is reported. What the
operation does not keep is not: shifts, patterns and offsets are operands of their own, of up to 64
bits, and only their lowest 32 bits count. Indices inside words are read with a bound, so that the
line fails if they are too large.

The numbers of a line are read from its pieces here, by the place of the operand and without any
bound, and compared with the fields of the word that is staged.

## Main definitions

* `NumberForm`, `NumberPlace`, `Mnemonic.numberPlaces` — where an instruction has its numbers
* `writtenNumbers` — the numbers of a line, without a bound
* `LineReader.Takes` — a reader that takes one piece
* `Operation.Spelled` — the fields of an operation are these numbers, as far as 32 bits go

## Main results

* `Statement.spelled_of_ofLine` — a line says its numbers, as far as 32 bits go
* `Assembler.staged_numbers` — the fields of a word that is staged without a remark
* `Assembler.staged_number_wrapped` — a number that is cut and not reported
-/

namespace NearMemory

open Token (Stands)

/-! ### Numbers in operands -/

/-- How a number is written in an operand. -/
inductive NumberForm where
  /-- As an operand of its own. -/
  | plain
  /-- In brackets, after a very wide register. -/
  | bracket
  /-- After the name of the constant store. -/
  | constant
  deriving DecidableEq, Repr

/-- The number of an operand in the given form, however large. -/
def NumberForm.read? (form : NumberForm) (piece : List Char) : Option Nat :=
  match form with
  | .plain => Numeral.written? piece
  | .bracket =>
    match piece.dropWhile (· != '[') with
    | '[' :: inner => Numeral.unbounded? 10 inner.dropLast
    | _ => none
  | .constant =>
    match splitStem piece with
    | (['C', 'S', 'D'], rest) => Numeral.unbounded? 10 rest
    | _ => none

/-- An operand that can have a number for a field. -/
structure NumberPlace where
  /-- The field. -/
  field : FieldName
  /-- The operands before it. -/
  operand : Nat
  /-- The form of the number. -/
  form : NumberForm
  deriving DecidableEq, Repr

/-- A number of a line. -/
structure WrittenNumber where
  /-- The field it is written for. -/
  field : FieldName
  /-- Its form. -/
  form : NumberForm
  /-- Its value. -/
  value : Nat
  deriving DecidableEq, Repr

/-- The number at a place, if there is one. -/
def NumberPlace.number? (p : NumberPlace) (operands : List (List Char)) : Option WrittenNumber :=
  (operands[p.operand]?.bind p.form.read?).map fun n => ⟨p.field, p.form, n⟩

/-- The places of the numbers of an instruction. A word move has its index on the side of the very
wide register, and the last operand of an arithmetic operation is a constant or a shift amount. -/
def Mnemonic.numberPlaces : Mnemonic → List NumberPlace
  | .vmv => [⟨.immediate, 0, .bracket⟩, ⟨.immediate, 1, .bracket⟩]
  | .rmv => [⟨.immediate, 2, .plain⟩]
  | .glmv => [⟨.immediate, 0, .constant⟩]
  | .perm => [⟨.immediate, 1, .plain⟩]
  | .pack => [⟨.packOffset, 1, .plain⟩, ⟨.dstIndex, 2, .bracket⟩]
  | .vfux => [⟨.csd, 4, .constant⟩, ⟨.csd, 4, .plain⟩, ⟨.dstIndex, 2, .bracket⟩,
      ⟨.srcIndex, 3, .bracket⟩]
  | _ => []

/-- The numbers of the operands of an instruction. -/
def Mnemonic.numbers (mnemonic : Mnemonic) (operands : List (List Char)) : List WrittenNumber :=
  mnemonic.numberPlaces.filterMap (·.number? operands)

/-- The numbers of the pieces of a line. -/
def writtenNumbers (pieces : List (List Char)) : List WrittenNumber :=
  match pieces with
  | [] => []
  | head :: operands =>
    match Mnemonic.ofWord? (String.ofList head) with
    | none => []
    | some mnemonic => mnemonic.numbers operands

/-! ### Words that have a number -/

theorem dropWhile_splitStem (word : List Char) :
    (splitStem word).2.dropWhile (· != '[') = word.dropWhile (· != '[') := by
  have hstem : word.dropWhile (· != '[') =
      (word.dropWhile (!endsStem ·)).dropWhile (· != '[') := by
    nth_rewrite 1 [← List.takeWhile_append_dropWhile (p := (!endsStem ·)) (l := word)]
    refine List.dropWhile_append_of_pos ?_
    intro c hc
    have hends := List.all_eq_true.mp List.all_takeWhile c hc
    rw [bne_iff_ne]
    rintro rfl
    exact absurd hends (by decide)
  rw [hstem, splitStem]
  split
  next rest heq =>
    rw [heq, List.dropWhile_cons_of_pos (by decide)]
  next => rfl

theorem fst_splitStem (word : List Char) : (splitStem word).1 = word.takeWhile (!endsStem ·) := by
  rw [splitStem]
  split <;> rfl

theorem NumberForm.read?_bracket_of_cons {piece inner : List Char}
    (h : piece.dropWhile (· != '[') = '[' :: inner) :
    NumberForm.bracket.read? piece = Numeral.unbounded? 10 inner.dropLast := by
  rw [read?, h]
  rfl

theorem NumberForm.read?_bracket_of_ne {piece : List Char}
    (h : ∀ inner, piece.dropWhile (· != '[') ≠ '[' :: inner) :
    NumberForm.bracket.read? piece = none := by
  rw [read?]
  split
  next inner heq => exact absurd heq (h inner)
  next => rfl

/-- The bracket of a word, read without a bound. -/
theorem bracket_of_splitBracket? {word number : List Char} {bracket : Option (List Char)}
    (h : splitBracket? (splitStem word).2 = some (number, bracket)) :
    NumberForm.bracket.read? word = bracket.bind (Numeral.unbounded? 10) := by
  rw [splitBracket?, dropWhile_splitStem] at h
  split at h
  next inner heq =>
    rw [NumberForm.read?_bracket_of_cons heq]
    split at h
    · obtain ⟨-, rfl⟩ := Prod.mk.inj (Option.some.inj h)
      rfl
    · contradiction
  next hne =>
    rw [NumberForm.read?_bracket_of_ne hne]
    obtain ⟨-, rfl⟩ := Prod.mk.inj (Option.some.inj h)
    rfl

/-- A word that names storage has its index in brackets. -/
theorem bracket_of_resolve? {word : List Char} {s : Storage} {index : Option UInt32}
    (h : Storage.resolve? word = some (s, index)) :
    NumberForm.bracket.read? word = index.map UInt32.toNat := by
  rw [Storage.resolve?] at h
  split at h
  next hpair =>
    obtain ⟨-, rfl⟩ := Prod.mk.inj (Option.some.inj h)
    rw [hpair]
    rfl
  obtain ⟨⟨number, bracket⟩, hbracket, h⟩ := Option.bind_eq_some_iff.mp h
  rw [bracket_of_splitBracket? hbracket]
  dsimp only at h
  have hread : ∃ given, bracket.bind (Numeral.unbounded? 10) = given.map UInt32.toNat ∧
      index = given := by
    cases bracket
    all_goals
      obtain ⟨given, hgiven, h⟩ := Option.bind_eq_some_iff.mp h
      refine ⟨given, ?_, ?_⟩
      rotate_left
      · -- a register has no index, and a very wide register has the one that is given
        split at h
        · split at h
          · contradiction
          next hnone =>
            rw [Option.not_isSome_iff_eq_none] at hnone
            rw [hnone]
            split at h
            all_goals cases h
            all_goals rfl
        · obtain ⟨v, -, h⟩ := Option.bind_eq_some_iff.mp h
          exact (Prod.mk.inj (Option.some.inj h)).2.symm
        · contradiction
    · obtain rfl := Option.some.inj hgiven
      rfl
    · obtain ⟨n, hn, rfl⟩ := Option.map_eq_some_iff.mp hgiven
      obtain ⟨hnumber, hlt⟩ := Numeral.read?_eq_some_iff.mp hn
      rw [Option.map_some, UInt32.toNat_ofNat_of_lt' hlt]
      exact hnumber
  obtain ⟨given, hgiven, rfl⟩ := hread
  exact hgiven

/-- A word that names an entry of the constant store has its number after the name, and is no number
itself. -/
theorem constant_of_resolveConstant? {word : List Char} {k : UInt32}
    (h : resolveConstant? word = some k) :
    NumberForm.constant.read? word = some k.toNat ∧ NumberForm.plain.read? word = none := by
  rw [resolveConstant?] at h
  split at h
  next rest heq =>
    obtain ⟨n, hn, rfl⟩ := Option.map_eq_some_iff.mp h
    obtain ⟨hnumber, hlt⟩ := Numeral.read?_eq_some_iff.mp hn
    constructor
    · rw [NumberForm.read?, heq, UInt32.toNat_ofNat_of_lt' hlt]
      exact hnumber
    · have hstem := congrArg Prod.fst heq
      rw [fst_splitStem] at hstem
      obtain ⟨after, hword⟩ := List.takeWhile_prefix (l := word) (!endsStem ·)
      rw [← hword, hstem]
      rfl
  next => contradiction

/-- A number names no entry of the constant store. -/
theorem constant_of_isDigit {c : Char} (hc : Token.isDigit c = true) (cs : List Char) :
    NumberForm.constant.read? (c :: cs) = none := by
  have hstem : (splitStem (c :: cs)).1 = [] := by
    have hends : endsStem c = true := by
      rw [endsStem, hc]
      rfl
    rw [fst_splitStem]
    exact List.takeWhile_cons_of_neg (by simp [hends])
  rw [NumberForm.read?]
  split
  next rest heq =>
    rw [heq] at hstem
    contradiction
  next => rfl

/-! ### Fields that hold a number -/

namespace Operation

/-- The fields of an operation are the numbers, as far as 32 bits go. -/
structure Spelled (op : Operation) (numbers : List WrittenNumber) : Prop where
  /-- Every number is in its field. -/
  held : ∀ w ∈ numbers, ∃ f ∈ op.numericFields, f.field = w.field ∧
    f.value.toNat = w.value % 2 ^ 32
  /-- A field without a number is zero. -/
  spelled : ∀ f ∈ op.numericFields, f.value ≠ 0 → ∃ w ∈ numbers, w.field = f.field ∧
    f.value.toNat = w.value % 2 ^ 32
  /-- Only an operand of its own can be larger. -/
  lt_of_ne_plain : ∀ w ∈ numbers, w.form ≠ .plain → w.value < 2 ^ 32

/-- A field has the number that is written for it, as far as 32 bits go, or else zero. -/
def Fills (form : NumberForm) (number : Option Nat) (value : UInt32) : Prop :=
  match number with
  | none => value = 0
  | some n => value.toNat = n % 2 ^ 32 ∧ (form ≠ .plain → n < 2 ^ 32)

/-- One number for each field, or none. -/
theorem spelled_of_fills {op : Operation}
    (fields : List (NumericField × NumberForm × Option Nat))
    (hop : op.numericFields = fields.map (·.1))
    (h : ∀ f ∈ fields, Fills f.2.1 f.2.2 f.1.value) :
    op.Spelled (fields.filterMap fun f => f.2.2.map fun n => ⟨f.1.field, f.2.1, n⟩) where
  held := by
    intro w hw
    obtain ⟨⟨f, form, number⟩, hf, hw⟩ := List.mem_filterMap.mp hw
    obtain ⟨n, rfl, rfl⟩ := Option.map_eq_some_iff.mp hw
    refine ⟨f, ?_, rfl, (h _ hf).1⟩
    rw [hop]
    exact List.mem_map_of_mem hf
  spelled := by
    intro f hf hne
    rw [hop] at hf
    obtain ⟨⟨f, form, number⟩, hmem, rfl⟩ := List.mem_map.mp hf
    have hfills := h _ hmem
    cases number with
    | none => exact absurd hfills hne
    | some n => exact ⟨⟨f.field, form, n⟩, List.mem_filterMap.mpr ⟨_, hmem, rfl⟩, rfl, hfills.1⟩
  lt_of_ne_plain := by
    intro w hw hne
    obtain ⟨⟨f, form, number⟩, hf, hw⟩ := List.mem_filterMap.mp hw
    obtain ⟨n, rfl, rfl⟩ := Option.map_eq_some_iff.mp hw
    exact (h _ hf).2 hne

theorem spelled_move {m : MoveOp} (form : NumberForm) (number : Option Nat)
    (h : Fills form number m.imm) :
    (move m).Spelled (number.map fun n => ⟨.immediate, form, n⟩).toList := by
  have hspelled : (move m).Spelled _ :=
    spelled_of_fills [(⟨.immediate, m.imm, Word.immBits⟩, form, number)] rfl
      (List.forall_mem_singleton.mpr h)
  cases number <;> exact hspelled

theorem fills_toNat (form : NumberForm) (k : UInt32) : Fills form (some k.toNat) k :=
  ⟨(Nat.mod_eq_of_lt k.toNat_lt).symm, fun _ => k.toNat_lt⟩

theorem fills_index (form : NumberForm) (index : Option UInt32) :
    Fills form (index.map UInt32.toNat) (index.getD 0) := by
  cases index with
  | none => rfl
  | some k => exact fills_toNat form k

theorem fills_toUInt32 (n : UInt64) : Fills .plain (some n.toNat) n.toUInt32 :=
  ⟨UInt64.toNat_toUInt32 n, fun hne => absurd rfl hne⟩

end Operation

/-! ### Readers and pieces -/

namespace LineReader

variable {α β : Type}

theorem bind_eq_ok {x : LineReader α} {f : α → LineReader β} {ts rest : List Token} {b : β}
    (h : (x >>= f) ts = .ok (b, rest)) :
    ∃ a mid, x ts = .ok (a, mid) ∧ f a mid = .ok (b, rest) := by
  cases hfirst : x ts with
  | error e =>
    change (x ts >>= fun p => f p.1 p.2) = _ at h
    rw [hfirst] at h
    cases h
  | ok p =>
    rw [bind_eq hfirst] at h
    exact ⟨p.1, p.2, rfl, h⟩

theorem resolved_eq_ok {w : String} {value : Option α} {ts rest : List Token} {a : α}
    (h : resolved w value ts = .ok (a, rest)) : value = some a ∧ rest = ts := by
  cases value with
  | none => cases h
  | some b =>
    obtain ⟨rfl, rfl⟩ := Prod.mk.inj (Except.ok.inj h)
    exact ⟨rfl, rfl⟩

/-- The reader takes one piece, and relates it to its value. -/
def Takes (x : LineReader α) (P : List Char → α → Prop) : Prop :=
  ∀ ⦃pieces : List (List Char)⦄ ⦃ts : List Token⦄ ⦃a : α⦄ ⦃rest : List Token⦄,
    List.Forall₂ Stands pieces ts → x ts = .ok (a, rest) →
    ∃ p more, pieces = p :: more ∧ List.Forall₂ Stands more rest ∧ P p a

theorem takes_word (role : Role) : (word role).Takes fun p w => p = w.toList := by
  intro pieces ts w rest hpieces h
  cases hpieces with
  | nil => cases h
  | cons hfirst hmore =>
    cases hfirst with
    | word w' =>
      obtain ⟨rfl, rfl⟩ := Prod.mk.inj (Except.ok.inj h)
      exact ⟨_, _, rfl, hmore, rfl⟩
    | number => cases h

/-- A word that stands for a value. -/
theorem takes_resolved {P : List Char → α → Prop} (role : Role) {value : String → Option α}
    (h : ∀ w a, value w = some a → P w.toList a) :
    Takes (word role >>= fun w => resolved w (value w)) P := by
  intro pieces ts a rest hpieces hread
  obtain ⟨w, mid, hw, hread⟩ := bind_eq_ok hread
  obtain ⟨_, more, rfl, hmore, rfl⟩ := takes_word role hpieces hw
  obtain ⟨hvalue, rfl⟩ := resolved_eq_ok hread
  exact ⟨_, more, rfl, hmore, h w a hvalue⟩

theorem takes_storage : storage.Takes fun p s =>
    NumberForm.bracket.read? p = s.2.map UInt32.toNat ∧ (s.1.isVwr = false → s.2 = none) :=
  takes_resolved .storage fun _ _ h => ⟨bracket_of_resolve? h, (Storage.of_resolve? h).2⟩

theorem takes_register : register.Takes fun _ _ => True :=
  takes_resolved .register fun _ _ _ => trivial

theorem takes_vwr : vwr.Takes fun _ _ => True := takes_resolved .vwr fun _ _ _ => trivial

theorem takes_constant : constant.Takes fun p k =>
    Operation.Fills .constant (NumberForm.constant.read? p) k ∧
      NumberForm.plain.read? p = none := by
  refine takes_resolved .constant fun w k h => ?_
  obtain ⟨hconstant, hplain⟩ := constant_of_resolveConstant? h
  rw [hconstant]
  exact ⟨Operation.fills_toNat .constant k, hplain⟩

/-- The lowest 32 bits of a number count. -/
theorem takes_field (role : Role) : (field role).Takes fun p v =>
    Operation.Fills .plain (NumberForm.plain.read? p) v ∧ NumberForm.constant.read? p = none := by
  intro pieces ts v rest hpieces h
  obtain ⟨n, mid, hn, h⟩ := bind_eq_ok h
  obtain ⟨rfl, rfl⟩ := Prod.mk.inj (Except.ok.inj h)
  cases hpieces with
  | nil => cases hn
  | cons hfirst hmore =>
    cases hfirst with
    | word w => cases hn
    | number hdigit hwritten =>
      obtain ⟨rfl, rfl⟩ := Prod.mk.inj (Except.ok.inj hn)
      refine ⟨_, _, rfl, hmore, ?_, constant_of_isDigit hdigit _⟩
      rw [NumberForm.read?, hwritten]
      exact Operation.fills_toUInt32 _

end LineReader

/-! ### Instructions -/

theorem NumberPlace.number?_of_getElem? {p : NumberPlace} {operands : List (List Char)}
    {piece : List Char} (h : operands[p.operand]? = some piece) :
    p.number? operands = (p.form.read? piece).map fun n => ⟨p.field, p.form, n⟩ := by
  rw [number?, h]
  rfl

theorem Mnemonic.numbers_singleton {mnemonic : Mnemonic} {p : NumberPlace}
    (h : mnemonic.numberPlaces = [p]) (operands : List (List Char)) :
    mnemonic.numbers operands = (p.number? operands).toList := by
  rw [numbers, h, List.filterMap_cons]
  cases p.number? operands <;> rfl

theorem Mnemonic.numbers_wordMove (p₁ p₂ : List Char) (more : List (List Char)) :
    Mnemonic.vmv.numbers (p₁ :: p₂ :: more) =
      ((NumberForm.bracket.read? p₁).map fun n => ⟨.immediate, .bracket, n⟩).toList ++
        ((NumberForm.bracket.read? p₂).map fun n => ⟨.immediate, .bracket, n⟩).toList := by
  rw [numbers, List.filterMap_eq_flatMap_toList]
  exact congrArg _ (List.append_nil _)

theorem Mnemonic.numbers_arithmetic (p₁ p₂ p₃ p₄ : List Char) (more : List (List Char)) :
    Mnemonic.vfux.numbers (p₁ :: p₂ :: p₃ :: p₄ :: more) =
      ((NumberPlace.number? ⟨.csd, 0, .constant⟩ more).toList ++
        (NumberPlace.number? ⟨.csd, 0, .plain⟩ more).toList) ++
      (((NumberForm.bracket.read? p₃).map fun n => ⟨.dstIndex, .bracket, n⟩).toList ++
        ((NumberForm.bracket.read? p₄).map fun n => ⟨.srcIndex, .bracket, n⟩).toList) := by
  rw [numbers, List.filterMap_eq_flatMap_toList, List.append_assoc]
  exact congrArg _ (congrArg _ (congrArg _ (List.append_nil _)))

namespace Statement

open LineReader Operation

variable {operands : List (List Char)} {ts : List Token} {i : Instruction}

/-- A word move has one index, on the side of the very wide register. -/
theorem spelled_wordMove (hp : List.Forall₂ Stands operands ts)
    (h : wordMoveReader ts = .ok (.instruction i, [])) :
    i.op.Spelled (Mnemonic.vmv.numbers operands) := by
  obtain ⟨⟨dst, dstIndex⟩, _, hdst, h₁⟩ := bind_eq_ok h
  obtain ⟨p₁, _, rfl, hp₁, hread₁, hnone₁⟩ := takes_storage hp hdst
  obtain ⟨⟨src, srcIndex⟩, mid, hsrc, h₂⟩ := bind_eq_ok h₁
  obtain ⟨p₂, more, rfl, -, hread₂, hnone₂⟩ := takes_storage hp₁ hsrc
  dsimp only at h₂ hread₁ hread₂ hnone₁ hnone₂
  have hmove : ∀ imm, (if dst = .r1r2 ∨ src = .r1r2 then fault .movePair
      else pure (ofOperation (.move ⟨.vmv, imm, dst, src⟩)) : LineReader Statement) mid =
        .ok (.instruction i, []) → i.op = .move ⟨.vmv, imm, dst, src⟩ := by
    intro imm hend
    split at hend
    · cases hend
    · obtain ⟨rfl⟩ := hend
      rfl
  rw [Mnemonic.numbers_wordMove, hread₁, hread₂]
  cases hdstVwr : dst.isVwr with
  | true =>
    cases hsrcVwr : src.isVwr with
    | true =>
      rw [hdstVwr, hsrcVwr] at h₂
      cases h₂
    | false =>
      rw [hdstVwr, hsrcVwr] at h₂
      rw [hnone₂ hsrcVwr]
      cases dstIndex with
      | none => cases h₂
      | some imm =>
        rw [hmove imm h₂]
        exact spelled_move .bracket (some imm.toNat) (fills_toNat .bracket imm)
  | false =>
    cases hsrcVwr : src.isVwr with
    | true =>
      rw [hdstVwr, hsrcVwr] at h₂
      rw [hnone₁ hdstVwr]
      cases srcIndex with
      | none => cases h₂
      | some imm =>
        rw [hmove imm h₂]
        exact spelled_move .bracket (some imm.toNat) (fills_toNat .bracket imm)
    | false =>
      rw [hdstVwr, hsrcVwr] at h₂
      cases h₂

/-- A register move has a shift, or none. -/
theorem spelled_registerMove (hp : List.Forall₂ Stands operands ts)
    (h : registerMoveReader ts = .ok (.instruction i, [])) :
    i.op.Spelled (Mnemonic.rmv.numbers operands) := by
  obtain ⟨dst, _, hdst, h⟩ := bind_eq_ok h
  obtain ⟨p₁, _, rfl, hp₁, -⟩ := takes_register hp hdst
  obtain ⟨src, _, hsrc, h⟩ := bind_eq_ok h
  obtain ⟨p₂, _, rfl, hp₂, -⟩ := takes_register hp₁ hsrc
  obtain ⟨_, _, hmore, h⟩ := bind_eq_ok h
  obtain ⟨rfl, rfl⟩ := Prod.mk.inj (Except.ok.inj hmore)
  rw [Mnemonic.numbers_singleton rfl]
  cases hp₂ with
  | nil =>
    obtain ⟨rfl⟩ := h
    exact spelled_move .plain none rfl
  | @cons p₃ t _ _ hfirst hrest =>
    obtain ⟨shift, _, hshift, h⟩ := bind_eq_ok h
    obtain ⟨rfl⟩ := h
    obtain ⟨_, _, ⟨⟩, -, hfills, -⟩ := takes_field .shift (.cons hfirst hrest) hshift
    exact spelled_move _ _ hfills

theorem spelled_permute (hp : List.Forall₂ Stands operands ts)
    (h : operandReader .perm ts = .ok (.instruction i, [])) :
    i.op.Spelled (Mnemonic.perm.numbers operands) := by
  obtain ⟨v, _, hv, h⟩ := bind_eq_ok h
  obtain ⟨p₁, _, rfl, hp₁, -⟩ := takes_vwr hp hv
  obtain ⟨pattern, _, hpattern, h⟩ := bind_eq_ok h
  obtain ⟨p₂, _, rfl, -, hfills, -⟩ := takes_field .pattern hp₁ hpattern
  obtain ⟨rfl⟩ := h
  rw [Mnemonic.numbers_singleton rfl]
  exact spelled_move _ _ hfills

theorem spelled_loadConstant (hp : List.Forall₂ Stands operands ts)
    (h : operandReader .glmv ts = .ok (.instruction i, [])) :
    i.op.Spelled (Mnemonic.glmv.numbers operands) := by
  obtain ⟨k, _, hk, h⟩ := bind_eq_ok h
  obtain ⟨p₁, _, rfl, -, hfills, -⟩ := takes_constant hp hk
  obtain ⟨target, _, htarget, h⟩ := bind_eq_ok h
  obtain ⟨d, _, hd, h⟩ := bind_eq_ok h
  obtain ⟨rfl⟩ := h
  rw [Mnemonic.numbers_singleton rfl]
  exact spelled_move _ _ hfills

theorem spelled_pack (hp : List.Forall₂ Stands operands ts)
    (h : packReader ts = .ok (.instruction i, [])) :
    i.op.Spelled (Mnemonic.pack.numbers operands) := by
  obtain ⟨w, _, hw, h₁⟩ := bind_eq_ok h
  obtain ⟨p₁, _, rfl, hp₁, -⟩ := takes_word .step hp hw
  obtain ⟨step, _, hstep, h₂⟩ := bind_eq_ok h₁
  obtain rfl := (resolved_eq_ok hstep).2
  obtain ⟨offset, _, hoffset, h₃⟩ := bind_eq_ok h₂
  obtain ⟨p₂, _, rfl, hp₂, hfills, -⟩ := takes_field .packOffset hp₁ hoffset
  obtain ⟨⟨dst, index⟩, _, hdst, h₄⟩ := bind_eq_ok h₃
  obtain ⟨p₃, more, rfl, -, hread, -⟩ := takes_storage hp₂ hdst
  dsimp only at h₄ hread
  split at h₄
  · obtain ⟨rfl⟩ := h₄
    refine spelled_of_fills [(⟨.packOffset, offset, Word.offsetBits⟩, .plain, _),
      (⟨.dstIndex, index.getD 0, Word.indexBits⟩, .bracket, NumberForm.bracket.read? p₃)] rfl ?_
    rw [List.forall_mem_cons, List.forall_mem_singleton, hread]
    exact ⟨hfills, fills_index .bracket index⟩
  · cases h₄

/-- The last operand of an arithmetic operation is a constant, a shift amount, or absent. -/
theorem exists_csd {opcode : Opcode} (hfamily : opcode.family = .arithmetic) {csd : UInt32}
    {more : List (List Char)} (hp : List.Forall₂ Stands more ts)
    (h : csdReader opcode ts = .ok (csd, [])) :
    ∃ form number, Fills form number csd ∧
      (NumberPlace.number? ⟨.csd, 0, .constant⟩ more).toList ++
          (NumberPlace.number? ⟨.csd, 0, .plain⟩ more).toList =
        (number.map fun n => ⟨.csd, form, n⟩).toList := by
  cases opcode with
  | add | sub =>
    obtain ⟨rfl, rfl⟩ := Prod.mk.inj (Except.ok.inj h)
    cases hp
    exact ⟨.plain, none, rfl, rfl⟩
  | mul =>
    obtain ⟨p, rest, rfl, -, hfills, hplain⟩ := takes_constant hp h
    refine ⟨.constant, _, hfills, ?_⟩
    rw [NumberPlace.number?_of_getElem? (p := ⟨.csd, 0, .plain⟩) rfl, hplain, Option.map_none,
      Option.toList_none, List.append_nil]
    rfl
  | shl | shr =>
    obtain ⟨p, rest, rfl, -, hfills, hconstant⟩ := takes_field .shiftAmount hp h
    refine ⟨.plain, _, hfills, ?_⟩
    rw [NumberPlace.number?_of_getElem? (p := ⟨.csd, 0, .constant⟩) rfl, hconstant, Option.map_none,
      Option.toList_none, List.nil_append]
    rfl
  | _ => exact nomatch hfamily

theorem spelled_arithmetic (hp : List.Forall₂ Stands operands ts)
    (h : arithmeticReader ts = .ok (.instruction i, [])) :
    i.op.Spelled (Mnemonic.vfux.numbers operands) := by
  obtain ⟨name, _, hname, h₁⟩ := bind_eq_ok h
  obtain ⟨p₁, _, rfl, hp₁, -⟩ := takes_word .arithmetic hp hname
  dsimp only at h₁
  cases hopcode : Opcode.ofArithmeticName? name with
  | none =>
    rw [hopcode] at h₁
    cases h₁
  | some opcode =>
    rw [hopcode] at h₁
    dsimp only at h₁
    rw [pure_bind] at h₁
    obtain ⟨w, _, hw, h₂⟩ := bind_eq_ok h₁
    obtain ⟨p₂, _, rfl, hp₂, -⟩ := takes_word .width hp₁ hw
    obtain ⟨width, _, hwidth, h₃⟩ := bind_eq_ok h₂
    obtain rfl := (resolved_eq_ok hwidth).2
    obtain ⟨⟨dst, dstIndex⟩, _, hdst, h₄⟩ := bind_eq_ok h₃
    obtain ⟨p₃, _, rfl, hp₃, hread₃, -⟩ := takes_storage hp₂ hdst
    obtain ⟨⟨src, srcIndex⟩, mid, hsrc, h₅⟩ := bind_eq_ok h₄
    obtain ⟨p₄, more, rfl, hp₄, hread₄, -⟩ := takes_storage hp₃ hsrc
    dsimp only at h₅ hread₃ hread₄
    have hcsd : (csdReader opcode >>= fun csd => pure (ofOperation (.arithmetic
        ⟨opcode, width, csd, dstIndex.getD 0, srcIndex.getD 0, dst, src⟩)) :
          LineReader Statement) mid = .ok (.instruction i, []) := by
      cases opcode <;> exact h₅
    obtain ⟨csd, _, hcsd, hend⟩ := bind_eq_ok hcsd
    obtain ⟨rfl⟩ := hend
    obtain ⟨form, number, hfills, hnumbers⟩ :=
      exists_csd (Opcode.family_of_ofArithmeticName? hopcode) hp₄ hcsd
    rw [Mnemonic.numbers_arithmetic, hnumbers, hread₃, hread₄]
    have hspelled : (Operation.arithmetic
        ⟨opcode, width, csd, dstIndex.getD 0, srcIndex.getD 0, dst, src⟩).Spelled _ :=
      spelled_of_fills
      [(⟨.csd, csd, Word.csdBits⟩, form, number),
        (⟨.dstIndex, dstIndex.getD 0, Word.indexBits⟩, .bracket, dstIndex.map UInt32.toNat),
        (⟨.srcIndex, srcIndex.getD 0, Word.indexBits⟩, .bracket, srcIndex.map UInt32.toNat)] rfl
      (by
        rw [List.forall_mem_cons, List.forall_mem_cons, List.forall_mem_singleton]
        exact ⟨hfills, fills_index .bracket dstIndex, fills_index .bracket srcIndex⟩)
    simpa only [List.filterMap_eq_flatMap_toList, List.flatMap_cons, List.flatMap_nil,
      List.append_nil] using hspelled

/-- The statements of the other mnemonics have no numbers for a field. -/
theorem gives_spelled_nil {mnemonic : Mnemonic} (h : mnemonic.numberPlaces = []) :
    (operandReader mnemonic).Gives fun s => ∀ i, s = .instruction i → i.op.Spelled [] := by
  have hzero : ∀ {m : MoveOp}, m.imm = 0 → (Operation.move m).Spelled [] :=
    fun himm => spelled_move .plain none himm
  cases mnemonic with
  | wrf =>
    refine .bind_any fun w => .bind_any fun file => .bind_any fun index => .ite (fun _ => ?_) ?_
    · exact .pure (by rintro _ ⟨⟩)
    · refine fun _ => .bind_any fun more => .ite (fun _ => .bind_any fun d => ?_) (fun _ => ?_)
      · exact .pure (by rintro _ ⟨⟩)
      · exact .fault _ _
  | loop =>
    exact .bind_any fun _ => .bind_any fun _ => .bind_any fun _ => .pure (by rintro _ ⟨⟩)
  | exec => exact .pure (by rintro _ ⟨⟩)
  | nop =>
    refine .bind_any fun more => .ite (fun _ => .bind_any fun w => ?_) (fun _ => ?_)
    · exact .ite (fun _ => .pure (by rintro _ ⟨⟩; exact hzero rfl)) (fun _ => .fault _ _)
    · exact .pure (by rintro _ ⟨⟩; exact hzero rfl)
  | rlb | wlb =>
    exact .bind_any fun v => .bind_any fun a => .pure (by rintro _ ⟨⟩; exact hzero rfl)
  | vmv | rmv | glmv | perm | pack | vfux => cases h

/-- **An instruction says the numbers of its operands.** -/
theorem spelled_operandReader {mnemonic : Mnemonic} (hp : List.Forall₂ Stands operands ts)
    (h : operandReader mnemonic ts = .ok (.instruction i, [])) :
    i.op.Spelled (mnemonic.numbers operands) := by
  cases mnemonic with
  | vmv => exact spelled_wordMove hp h
  | rmv => exact spelled_registerMove hp h
  | glmv => exact spelled_loadConstant hp h
  | perm => exact spelled_permute hp h
  | pack => exact spelled_pack hp h
  | vfux => exact spelled_arithmetic hp h
  | wrf | nop | loop | rlb | wlb | exec => exact gives_spelled_nil rfl h i rfl

theorem spelled_reader {pieces : List (List Char)} {rest : List Token}
    (hp : List.Forall₂ Stands pieces ts) (h : reader ts = .ok (.instruction i, rest)) :
    i.op.Spelled (writtenNumbers pieces) := by
  obtain ⟨head, _, hhead, h₁⟩ := bind_eq_ok h
  obtain ⟨_, operands, rfl, hoperands, rfl⟩ := takes_word .mnemonic hp hhead
  rw [writtenNumbers, String.ofList_toList]
  cases hmnemonic : Mnemonic.ofWord? head with
  | none =>
    rw [hmnemonic] at h₁
    cases h₁
  | some mnemonic =>
    rw [hmnemonic] at h₁
    obtain ⟨statement, left, hread, h₂⟩ := bind_eq_ok h₁
    obtain ⟨_, _, hleft, h₃⟩ := bind_eq_ok h₂
    obtain ⟨rfl, rfl⟩ := Prod.mk.inj (Except.ok.inj hleft)
    split at h₃
    next hempty =>
      obtain ⟨rfl, rfl⟩ := Prod.mk.inj (Except.ok.inj h₃)
      obtain rfl := List.isEmpty_iff.mp hempty
      exact spelled_operandReader hoperands hread
    next => cases h₃

/-- **A line says its numbers,** as far as 32 bits go. -/
theorem spelled_of_ofLine {number : Nat} {text : String}
    (h : ofLine number text = .ok (some (.instruction i))) :
    i.op.Spelled (writtenNumbers (Token.pieces text)) := by
  rw [ofLine] at h
  split at h
  · contradiction
  next tokens hscan =>
    have hp := Token.stands_of_scan hscan
    split at h
    · contradiction
    next hread =>
      obtain rfl := Except.ok.inj h
      rw [ofTokens] at hread
      split at hread
      · cases hread
      · cases hrun : reader.run tokens with
        | error fault =>
          rw [hrun] at hread
          cases hread
        | ok result =>
          rw [hrun] at hread
          obtain ⟨statement, rest⟩ := result
          obtain rfl : statement = .instruction i := Option.some.inj (Except.ok.inj hread)
          exact spelled_reader hp hrun

end Statement

namespace Assembler

variable {σ : Type} [Recorder σ]

/-- A line that says an instruction and succeeds has staged it. -/
theorem line_of_instruction {a : Assembler σ} {number : Nat} {text : String} {i : Instruction}
    (hline : Statement.ofLine number text = .ok (some (.instruction i)))
    (hok : (a.line number text).2 = .ok ()) :
    ∃ next, a.mode = .staging next ∧ next < a.hardware.bufferEntries ∧
      (a.line number text).1 = a.entered number next i := by
  have hstage : a.line number text =
      ((a.stage number i).1, (a.stage number i).2.mapError (.atLine number)) := by
    rw [line, hline]
    rfl
  rw [hstage, stage_eq] at hok ⊢
  cases hmode : a.mode with
  | idle =>
    rw [hmode] at hok
    cases hok
  | staging next =>
    rw [hmode] at hok
    dsimp only at hok ⊢
    by_cases hnext : next < a.hardware.bufferEntries
    · rw [if_pos hnext]
      exact ⟨next, rfl, hnext, rfl⟩
    · rw [if_neg hnext] at hok
      cases hok

/-- Without a remark nothing is cut by packing. -/
theorem cutFields_of_quiet {a : Assembler σ} {number next : Nat} {i : Instruction}
    (h : (a.entered number next i).diagnostics = a.diagnostics) : i.op.cutFields = [] := by
  have happend : a.diagnostics ++ ((i.op.cutFields.map (.fieldCut next)).map
      fun n => (⟨some number, n⟩ : Diagnostic)).toArray = a.diagnostics := h
  simpa using happend

/-- **What is not kept is reported, but for numbers of more than 32 bits.** Take any lines, and then
a line that stages an instruction without a remark. The word decodes to an operation whose fields
are the numbers that the line has for them, and zero where it has none. Of a number the lowest 32
bits count, so that field and number are equal exactly if it has no more; a word index or a constant
always is, as only an operand of its own can be larger. -/
theorem staged_numbers (hw : Hardware) (streams : OperandStreams) (trace : σ)
    (ls : List (Nat × String)) (number : Nat) (text : String) {i : Instruction}
    (hline : Statement.ofLine number text = .ok (some (.instruction i))) :
    let a := (start hw streams trace).feed ls
    (a.line number text).2 = .ok () → (a.line number text).1.diagnostics = a.diagnostics →
    ∃ next entry op, a.mode = .staging next ∧
      (a.line number text).1.buffer[next]? = some (some entry) ∧
      Operation.decode? entry.word = some op ∧
      (∀ w ∈ writtenNumbers (Token.pieces text), ∃ f ∈ op.numericFields, f.field = w.field ∧
        f.value.toNat = w.value % 2 ^ 32 ∧ (f.value.toNat = w.value ↔ w.value < 2 ^ 32) ∧
        (w.form ≠ .plain → f.value.toNat = w.value)) ∧
      ∀ f ∈ op.numericFields, f.value ≠ 0 →
        ∃ w ∈ writtenNumbers (Token.pieces text), w.field = f.field ∧
          f.value.toNat = w.value % 2 ^ 32 := by
  intro a hok hquiet
  obtain ⟨next, hmode, hnext, hentered⟩ := line_of_instruction hline hok
  have hspelled := Statement.spelled_of_ofLine hline
  have hlegal := (Instruction.written_of_ofLine hline).legal
  rw [hentered] at hquiet ⊢
  have hpacked := Operation.cutFields_eq_nil_iff_asPacked.mp (cutFields_of_quiet hquiet)
  refine ⟨next, .ofInstruction i, i.op, hmode, ?_, ?_, ?_, hspelled.spelled⟩
  · exact Array.getElem?_setIfInBounds_self_of_lt
      (hnext.trans_eq (size_buffer_feed hw streams trace ls).symm)
  · rw [← hpacked]
    exact Operation.decode?_encode hlegal
  · intro w hw
    obtain ⟨f, hf, hfield, hvalue⟩ := hspelled.held w hw
    have hlt := f.value.toNat_lt
    refine ⟨f, hf, hfield, hvalue, ⟨by omega, ?_⟩, ?_⟩
    · intro hsmall
      rw [hvalue, Nat.mod_eq_of_lt hsmall]
    · intro hform
      rw [hvalue, Nat.mod_eq_of_lt (hspelled.lt_of_ne_plain w hw hform)]

/-- A multiplication with leading zeros in an index and a comment behind it. -/
theorem staged_numbers_multiply :
    let text := "VFUX MUL SW8 VWR_1[0007] VWR_0[31] CSD_15 ; 16"
    let a : Assembler (Array MemoryAccess) := (start {} (.ofText "" "") #[]).feed [(1, "WRF IB0")]
    writtenNumbers (Token.pieces text) =
        [⟨.csd, .constant, 15⟩, ⟨.dstIndex, .bracket, 7⟩, ⟨.srcIndex, .bracket, 31⟩] ∧
      ∃ next entry op, a.mode = .staging next ∧
        (a.line 2 text).1.buffer[next]? = some (some entry) ∧
        Operation.decode? entry.word = some op ∧
        ∀ w ∈ writtenNumbers (Token.pieces text),
          ∃ f ∈ op.numericFields, f.field = w.field ∧ f.value.toNat = w.value := by
  intro text a
  have hnumbers : writtenNumbers (Token.pieces text) =
      [⟨.csd, .constant, 15⟩, ⟨.dstIndex, .bracket, 7⟩, ⟨.srcIndex, .bracket, 31⟩] := by
    decide +kernel
  have hline : Statement.ofLine 2 text =
      .ok (some (.instruction { op := .arithmetic ⟨.mul, 8, 15, 7, 31, .vwr 1, .vwr 0⟩ })) := by
    decide +kernel
  obtain ⟨next, entry, op, hmode, hentry, hop, hfields, -⟩ :=
    staged_numbers {} (.ofText "" "") (#[] : Array MemoryAccess) [(1, "WRF IB0")] 2 text hline
      (by decide +kernel) (by decide +kernel)
  have hforms : ∀ w ∈ writtenNumbers (Token.pieces text), w.form ≠ .plain := by
    rw [hnumbers]
    decide
  refine ⟨hnumbers, next, entry, op, hmode, hentry, hop, ?_⟩
  intro w hw
  obtain ⟨f, hf, hfield, -, -, hequal⟩ := hfields w hw
  exact ⟨f, hf, hfield, hequal (hforms w hw)⟩

/-- **A number that is cut and not reported.** The pattern has 33 bits; one is left of it, in the
operation and in the word. -/
theorem staged_number_wrapped :
    let text := "PERM VWR_0 4294967297"
    let a : Assembler (Array MemoryAccess) := (start {} (.ofText "" "") #[]).feed [(1, "WRF IB0")]
    (a.line 2 text).2 = .ok () ∧ (a.line 2 text).1.diagnostics = a.diagnostics ∧
      writtenNumbers (Token.pieces text) = [⟨.immediate, .plain, 4294967297⟩] ∧
      ∃ entry, (a.line 2 text).1.buffer[0]? = some (some entry) ∧
        Operation.decode? entry.word = some (.permute 0 1) := by
  intro text a
  refine ⟨by decide +kernel, by decide +kernel, by decide +kernel,
    .ofInstruction { op := .permute 0 1 }, ?_, by decide +kernel⟩
  decide +kernel

end Assembler

end NearMemory
