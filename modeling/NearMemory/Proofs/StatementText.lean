import NearMemory.Proofs.OperandText
import NearMemory.Proofs.StreamText
import NearMemory.Statement.Reader

/-!
# Statements read back

The reader accepts the statements of a certain shape: very wide registers that exist, widths of the
ladder, word indices only where the text shows them. `Statement.Written` lists them, and the line of
each of them reads back as the statement it was written for.

## Main definitions

* `Instruction.Written`, `Statement.Written` — what a line can say
* `Statement.ReadsBack` — the line of a statement reads as this statement

## Main results

* `Statement.Written.readsBack` — every statement that a line can say reads back
* `Statement.ReadsBack.ofLine` — as the statement of its line, whatever the number of the line
-/

namespace NearMemory

open Numeral

/-! ### What a line can say -/

/-- Data in the text of a line, if any: at least one word. -/
def DataOperand.Written (d : DataOperand) : Prop := d ≠ .literal []

theorem DataOperand.written_stream : DataOperand.Written .stream := by
  rw [Written]
  exact nofun

theorem DataOperand.written_literal (w : UInt64) (ws : List UInt64) :
    DataOperand.Written (.literal (w :: ws)) := by
  rw [Written]
  exact nofun

/-- An arithmetic operation that a line can say. What the line does not show is zero. -/
structure ArithmeticOp.Written (c : ArithmeticOp) : Prop where
  opcode_family : c.opcode.family = .arithmetic
  width_mem : c.subword ∈ Subword.ladder
  dst_legal : c.dst.Legal
  src_legal : c.src.Legal
  dstIndex_eq : c.dst.isVwr = false → c.dstIndex = 0
  srcIndex_eq : c.src.isVwr = false → c.srcIndex = 0
  csd_eq : c.opcode = .add ∨ c.opcode = .sub → c.csd = 0

/-- An instruction that a line can say. -/
inductive Instruction.Written : Instruction → Prop
  | nop : Written { op := .nop }
  | exit : Written { op := .exit }
  | readRow {v : Nat} (hv : v < 2) (a : AddressOperand) :
    Written { op := .readRow v, address := some a }
  | writeRow {v : Nat} (hv : v < 2) (a : AddressOperand) :
    Written { op := .writeRow v, address := some a }
  | loadConstant (k : UInt32) (a : AddressOperand) {d : DataOperand} (hd : d.Written) :
    Written { op := .loadConstant k, address := some a, data := some d }
  | loadWord {reg : Storage} {v : Nat} (hreg : reg.isVwr = false) (hpair : reg ≠ .r1r2) (hv : v < 2)
    (imm : UInt32) : Written { op := .move ⟨.vmv, imm, reg, .vwr v⟩ }
  | storeWord {reg : Storage} {v : Nat} (hreg : reg.isVwr = false) (hpair : reg ≠ .r1r2)
    (hv : v < 2) (imm : UInt32) : Written { op := .move ⟨.vmv, imm, .vwr v, reg⟩ }
  | moveRegister {dst src : Storage} (hdst : dst.isVwr = false) (hsrc : src.isVwr = false)
    (shift : UInt32) : Written { op := .moveRegister dst src shift }
  | permute {v : Nat} (hv : v < 2) (pattern : UInt32) : Written { op := .permute v pattern }
  | pack (step : WidthStep) (offset index : UInt32) {v : Nat} (hv : v < 2) :
    Written { op := .pack ⟨step, offset, index, .vwr v⟩ }
  | arithmetic {c : ArithmeticOp} (hc : c.Written) : Written { op := .arithmetic c }

/-- A statement that a line can say. -/
inductive Statement.Written : Statement → Prop
  | select {index : Nat} (hindex : index < UInt64.size) :
    Written (.writeFile .instrBuffer index none)
  | writeFile {file : RegisterFile} {index : Nat} {d : DataOperand} (hfile : file ≠ .instrBuffer)
    (hindex : index < UInt64.size) (hd : d.Written) : Written (.writeFile file index (some d))
  | writeLoop {loop : LoopRegister} (hstart : loop.start < UInt64.size)
    (hfinish : loop.finish < UInt64.size) (hiterations : loop.iterations < UInt64.size) :
    Written (.writeLoop loop)
  | execute : Written .execute
  | instruction {i : Instruction} (hi : i.Written) : Written (.instruction i)

/-! ### Addresses and data -/

/-- The token of an address. -/
def AddressOperand.token : AddressOperand → Token
  | .literal w => .number w
  | .stream => .word "AddrFile"

theorem AddressOperand.spells (a : AddressOperand) : a.token.Spells a.text.toList := by
  cases a with
  | literal w => exact Token.spells_hex w
  | stream => exact Token.spells_word (by decide)

/-- The tokens of data. -/
def DataOperand.tokens : DataOperand → List Token
  | .literal ws => ws.map .number
  | .stream => [.word "DataFile"]

theorem spellsLine_hexWords {ws : List UInt64} (h : ws ≠ []) :
    Token.SpellsLine (ws.map .number) (hexWords ws).toList := by
  match ws with
  | [w] =>
    rw [toList_hexWords_singleton]
    exact .single (Token.spells_hex w)
  | w :: w' :: rest =>
    rw [toList_hexWords_cons_cons]
    exact .cons (Token.spells_hex w) (spellsLine_hexWords (List.cons_ne_nil w' rest))

theorem DataOperand.Written.tokens_ne_nil {d : DataOperand} (hd : d.Written) : d.tokens ≠ [] := by
  match d with
  | .stream => exact List.cons_ne_nil _ _
  | .literal [] => exact absurd rfl hd
  | .literal (w :: ws) => exact List.cons_ne_nil _ _

theorem DataOperand.Written.spellsLine {d : DataOperand} (hd : d.Written) :
    Token.SpellsLine d.tokens d.text.toList := by
  cases d with
  | literal ws => exact spellsLine_hexWords fun h => hd (congrArg _ h)
  | stream => exact .single (Token.spells_word (by decide))

/-! ### Readers on tokens -/

namespace LineReader

variable {α β : Type}

theorem bind_eq {x : LineReader α} {f : α → LineReader β} {ts rest : List Token} {a : α}
    (h : x ts = .ok (a, rest)) : (x >>= f) ts = f a rest := by
  show (x ts >>= fun p => f p.1 p.2) = f a rest
  rw [h]
  rfl

theorem word_eq (role : Role) (w : String) (rest : List Token) :
    word role (.word w :: rest) = .ok (w, rest) := rfl

theorem resolved_eq {α : Type} (w : String) (value : α) (ts : List Token) :
    resolved w (some value) ts = .ok (value, ts) := rfl

theorem number_eq (role : Role) (n : UInt64) (rest : List Token) :
    number role (.number n :: rest) = .ok (n, rest) := rfl

theorem field_eq (role : Role) (n : UInt32) (rest : List Token) :
    field role (.number (UInt64.ofNat n.toNat) :: rest) = .ok (n, rest) := by
  rw [field, bind_eq (number_eq ..)]
  have hcut : (UInt64.ofNat n.toNat).toUInt32 = n := by
    rw [← UInt32.toNat_inj, UInt64.toNat_toUInt32, UInt64.toNat_ofNat']
    have hlt := n.toNat_lt
    omega
  show Except.ok ((UInt64.ofNat n.toNat).toUInt32, rest) = _
  rw [hcut]

theorem hasMore_eq {ts : List Token} (h : ts ≠ []) : hasMore ts = .ok (true, ts) := by
  obtain ⟨t, rest, rfl⟩ := List.exists_cons_of_ne_nil h
  rfl

theorem storage_eq {s : Storage} (hs : s.Legal) (index : UInt32) (rest : List Token) :
    storage (.word (s.indexed index) :: rest) =
      .ok ((s, if s.isVwr then some index else none), rest) := by
  rw [storage, bind_eq (word_eq ..), Storage.resolve?_indexed hs]
  rfl

theorem register_eq {s : Storage} (hs : s.isVwr = false) (rest : List Token) :
    register (.word s.text :: rest) = .ok (s, rest) := by
  rw [register, bind_eq (word_eq ..), Storage.resolve?_text (Storage.legal_of_not_isVwr hs)]
  simp only [hs]
  rfl

theorem vwr_eq {v : Nat} (hv : v < 2) (rest : List Token) :
    vwr (.word (Storage.vwr v).text :: rest) = .ok (v, rest) := by
  rw [vwr, bind_eq (word_eq ..), Storage.resolve?_text (s := .vwr v) hv]
  rfl

theorem constant_eq (k : UInt32) (rest : List Token) :
    constant (.word ("CSD_" ++ decimal k.toNat) :: rest) = .ok (k, rest) := by
  rw [constant, bind_eq (word_eq ..), resolveConstant?_text]
  rfl

theorem address_eq (a : AddressOperand) (rest : List Token) :
    address (a.token :: rest) = .ok (a, rest) := by
  cases a with
  | literal w => rfl
  | stream => rfl

theorem leadingNumbers_map (ws : List UInt64) : leadingNumbers (ws.map .number) = (ws, []) := by
  induction ws with
  | nil => rfl
  | cons w rest ih => rw [List.map_cons, leadingNumbers, ih]

theorem data_eq {d : DataOperand} (hd : d.Written) : data d.tokens = .ok (d, []) := by
  match d with
  | .stream => rfl
  | .literal [] => exact absurd rfl hd
  | .literal (w :: ws) =>
    show Except.ok (DataOperand.literal (w :: (leadingNumbers (ws.map .number)).1),
      (leadingNumbers (ws.map .number)).2) = _
    rw [leadingNumbers_map]

end LineReader

/-! ### Lines -/

namespace Statement

open LineReader Token

/-- The line of the statement is spelled, and its tokens read as the statement. -/
def ReadsBack (s : Statement) : Prop :=
  ∃ ts, SpellsLine ts s.text.toList ∧ ofTokens ts = .ok (some s)

theorem ReadsBack.oneLine {s : Statement} (h : s.ReadsBack) : OneLine s.text.toList := by
  obtain ⟨ts, hspells, -⟩ := h
  exact hspells.oneLine

/-- **A statement that reads back is the statement of its line.** -/
theorem ReadsBack.ofLine {s : Statement} (h : s.ReadsBack) (number : Nat) :
    Statement.ofLine number s.text = .ok (some s) := by
  obtain ⟨ts, hspells, htokens⟩ := h
  simp only [Statement.ofLine, hspells.scan, htokens]

/-- A line of a mnemonic and its operands. -/
theorem readsBack_of_operands {s : Statement} (head : String) {mnemonic : Mnemonic}
    {ts : List Token} {operands : List Char} (hhead : Mnemonic.ofWord? head = some mnemonic)
    (hword : isWord head.toList = true) (hspells : SpellsLine ts operands)
    (htext : s.text.toList = head.toList ++ ' ' :: operands)
    (hread : operandReader mnemonic ts = .ok (s, [])) : s.ReadsBack := by
  refine ⟨.word head :: ts, ?_, ?_⟩
  · rw [htext]
    exact .cons (spells_word hword) hspells
  · have hrun : reader (.word head :: ts) = .ok (s, []) := by
      rw [reader, bind_eq (word_eq ..), hhead]
      show (operandReader mnemonic >>= _) ts = _
      rw [bind_eq hread]
      rfl
    show (reader (.word head :: ts)).map (some ·.1) = _
    rw [hrun]
    rfl

/-! ### Register files and the loop register -/

theorem spells_entry (file : RegisterFile) (index : Nat) :
    (Token.word (file.tag ++ decimal index)).Spells (file.tag ++ decimal index).toList :=
  spells_word (isWord_append_decimal file.isWord_tag index)

/-- The front of a register-file write. -/
theorem writeFileReader_eq {file : RegisterFile} {index : Nat} (hindex : index < UInt64.size)
    (rest : List Token) :
    writeFileReader (.word (file.tag ++ decimal index) :: rest) =
      (if file = .instrBuffer then return .writeFile file index none
        else do
          if ← hasMore then return .writeFile file index (some (← data))
          else fault (.needsValue (file.tag ++ decimal index)) : LineReader Statement) rest := by
  have hread := read?_digits (show 2 ≤ 10 by decide) (by decide) hindex
  rw [writeFileReader, bind_eq (word_eq ..), file.splitStem_entry]
  simp only [String.ofList_toList, file.ofTag?_tag, hread]
  rfl

theorem readsBack_select {index : Nat} (hindex : index < UInt64.size) :
    ReadsBack (.writeFile .instrBuffer index none) := by
  refine readsBack_of_operands "WRF" rfl (by decide)
    (.single (spells_entry .instrBuffer index)) ?_ ?_
  · simp only [text, String.toList_append, String.append_empty, List.append_assoc]
    rfl
  · exact writeFileReader_eq hindex []

theorem readsBack_writeFile {file : RegisterFile} {index : Nat} {d : DataOperand}
    (hfile : file ≠ .instrBuffer) (hindex : index < UInt64.size) (hd : d.Written) :
    ReadsBack (.writeFile file index (some d)) := by
  refine readsBack_of_operands "WRF" rfl (by decide)
    (.cons (spells_entry file index) hd.spellsLine) ?_ ?_
  · simp only [text, String.toList_append, List.append_assoc]
    rfl
  · show writeFileReader _ = _
    rw [writeFileReader_eq hindex, if_neg hfile, bind_eq (hasMore_eq hd.tokens_ne_nil)]
    show (data >>= _) _ = _
    rw [bind_eq (data_eq hd)]
    rfl

theorem readsBack_writeLoop {loop : LoopRegister} (hstart : loop.start < UInt64.size)
    (hfinish : loop.finish < UInt64.size) (hiterations : loop.iterations < UInt64.size) :
    ReadsBack (.writeLoop loop) := by
  refine readsBack_of_operands "LOOP" rfl (by decide)
    (.cons (spells_decimal hstart) (.cons (spells_decimal hfinish)
      (.single (spells_decimal hiterations)))) ?_ ?_
  · simp only [text, LoopRegister.text, String.toList_append, List.append_assoc]
    rfl
  · show writeLoopReader _ = _
    rw [writeLoopReader, bind_eq (number_eq ..), bind_eq (number_eq ..), bind_eq (number_eq ..),
      UInt64.toNat_ofNat_of_lt' hstart, UInt64.toNat_ofNat_of_lt' hfinish,
      UInt64.toNat_ofNat_of_lt' hiterations]
    rfl

theorem readsBack_execute : ReadsBack .execute :=
  ⟨[.word "EXEC"], .single (spells_word (by decide)), rfl⟩

/-! ### Instructions -/

theorem readsBack_nop : ReadsBack (.instruction { op := .nop }) :=
  ⟨[.word "NOP"], .single (spells_word (by decide)), rfl⟩

theorem readsBack_exit : ReadsBack (.instruction { op := .exit }) :=
  readsBack_of_operands "NOP" rfl (by decide) (.single (spells_word (w := "EXIT") (by decide))) rfl
    rfl

theorem spells_vwr {v : Nat} (hv : v < 2) :
    (Token.word (Storage.vwr v).text).Spells (Storage.vwr v).text.toList :=
  Storage.spells_text hv

theorem readsBack_readRow {v : Nat} (hv : v < 2) (a : AddressOperand) :
    ReadsBack (.instruction { op := .readRow v, address := some a }) := by
  refine readsBack_of_operands "RLB" rfl (by decide)
    (.cons (spells_vwr hv) (.single a.spells)) ?_ ?_
  · simp only [text, Instruction.text, Operation.text, Operation.readRow, String.toList_append,
      String.append_empty, List.append_assoc]
    rfl
  · show (vwr >>= _) _ = _
    rw [bind_eq (vwr_eq hv _), bind_eq (address_eq ..)]
    rfl

theorem readsBack_writeRow {v : Nat} (hv : v < 2) (a : AddressOperand) :
    ReadsBack (.instruction { op := .writeRow v, address := some a }) := by
  refine readsBack_of_operands "WLB" rfl (by decide)
    (.cons (spells_vwr hv) (.single a.spells)) ?_ ?_
  · simp only [text, Instruction.text, Operation.text, Operation.writeRow, String.toList_append,
      String.append_empty, List.append_assoc]
    rfl
  · show (vwr >>= _) _ = _
    rw [bind_eq (vwr_eq hv _), bind_eq (address_eq ..)]
    rfl

theorem spells_constant (k : UInt32) :
    (Token.word ("CSD_" ++ decimal k.toNat)).Spells ("CSD_" ++ decimal k.toNat).toList :=
  spells_word (isWord_append_decimal (by decide) _)

theorem readsBack_loadConstant (k : UInt32) (a : AddressOperand) {d : DataOperand}
    (hd : d.Written) :
    ReadsBack (.instruction { op := .loadConstant k, address := some a, data := some d }) := by
  refine readsBack_of_operands "GLMV" rfl (by decide)
    (.cons (spells_constant k) (.cons a.spells hd.spellsLine)) ?_ ?_
  · simp only [text, Instruction.text, Operation.text, Operation.loadConstant, String.toList_append,
      List.append_assoc]
    rfl
  · show (constant >>= _) _ = _
    rw [bind_eq (constant_eq ..), bind_eq (address_eq ..), bind_eq (data_eq hd)]
    rfl

theorem spells_field (n : UInt32) :
    (Token.number (UInt64.ofNat n.toNat)).Spells (decimal n.toNat).toList :=
  spells_decimal (Nat.lt_trans n.toNat_lt (by decide))

theorem readsBack_permute {v : Nat} (hv : v < 2) (pattern : UInt32) :
    ReadsBack (.instruction { op := .permute v pattern }) := by
  refine readsBack_of_operands "PERM" rfl (by decide)
    (.cons (spells_vwr hv) (.single (spells_field pattern))) ?_ ?_
  · simp only [text, Instruction.text, Operation.text, Operation.permute, String.toList_append,
      String.append_empty, List.append_assoc]
    rfl
  · show (vwr >>= _) _ = _
    rw [bind_eq (vwr_eq hv _), bind_eq (field_eq ..)]
    rfl

/-- A word move, in either direction. -/
theorem readsBack_wordMove {dst src : Storage} (hdst : dst.Legal) (hsrc : src.Legal)
    (hsides : dst.isVwr = !src.isVwr) (hpair : dst ≠ .r1r2 ∧ src ≠ .r1r2) (imm : UInt32) :
    ReadsBack (.instruction { op := .move ⟨.vmv, imm, dst, src⟩ }) := by
  refine readsBack_of_operands "VMV" rfl (by decide)
    (.cons (Storage.spells_indexed hdst imm) (.single (Storage.spells_indexed hsrc imm))) ?_ ?_
  · simp only [text, Instruction.text, Operation.text, String.toList_append, String.append_empty,
      List.append_assoc]
    rfl
  · show wordMoveReader _ = _
    rw [wordMoveReader, bind_eq (storage_eq hdst ..)]
    dsimp only
    rw [bind_eq (storage_eq hsrc ..)]
    dsimp only
    have hregisters : ¬(dst = .r1r2 ∨ src = .r1r2) := not_or.mpr hpair
    cases hvwr : src.isVwr with
    | true =>
      rw [hvwr] at hsides
      simp only [hsides, Bool.not_true, if_true, pure_bind, if_neg hregisters]
      rfl
    | false =>
      rw [hvwr] at hsides
      simp only [hsides, Bool.not_false, if_true, pure_bind, if_neg hregisters]
      rfl

theorem readsBack_moveRegister {dst src : Storage} (hdst : dst.isVwr = false)
    (hsrc : src.isVwr = false) (shift : UInt32) :
    ReadsBack (.instruction { op := .moveRegister dst src shift }) := by
  refine readsBack_of_operands "RMV" rfl (by decide)
    (.cons (Storage.spells_text (Storage.legal_of_not_isVwr hdst))
      (.cons (Storage.spells_text (Storage.legal_of_not_isVwr hsrc))
        (.single (spells_field shift)))) ?_ ?_
  · simp only [text, Instruction.text, Operation.text, Operation.moveRegister, String.toList_append,
      String.append_empty, List.append_assoc]
    rfl
  · show registerMoveReader _ = _
    rw [registerMoveReader, bind_eq (register_eq hdst _), bind_eq (register_eq hsrc _),
      bind_eq (hasMore_eq (List.cons_ne_nil _ _))]
    show (field _ >>= _) _ = _
    rw [bind_eq (field_eq ..)]
    rfl

theorem readsBack_pack (step : WidthStep) (offset index : UInt32) {v : Nat} (hv : v < 2) :
    ReadsBack (.instruction { op := .pack ⟨step, offset, index, .vwr v⟩ }) := by
  refine readsBack_of_operands "PACK" rfl (by decide)
    (.cons (spells_word step.isWord_text)
      (.cons (spells_field offset) (.single (Storage.spells_indexed (s := .vwr v) hv index)))) ?_ ?_
  · simp only [text, Instruction.text, Operation.text, String.toList_append, String.append_empty,
      List.append_assoc]
    rfl
  · show packReader _ = _
    rw [packReader, bind_eq (word_eq ..), step.resolve?_text, bind_eq (resolved_eq ..),
      bind_eq (field_eq ..), bind_eq (storage_eq (s := .vwr v) hv ..)]
    rfl

/-- The reader of the constant of an arithmetic operation. -/
def csdReader : Opcode → LineReader UInt32
  | .mul => constant
  | .shl | .shr => field .shiftAmount
  | _ => pure 0

/-- The operands of an arithmetic operation up to the constant. -/
theorem arithmeticReader_eq {c : ArithmeticOp} (hc : c.Written) {name : String}
    (hname : Opcode.ofArithmeticName? name = some c.opcode) (rest : List Token) :
    arithmeticReader (.word name :: .word ("SW" ++ decimal c.subword)
        :: .word (c.dst.indexed c.dstIndex) :: .word (c.src.indexed c.srcIndex) :: rest) =
      (csdReader c.opcode >>= fun csd => pure (ofOperation (.arithmetic { c with csd }))) rest := by
  have hdst : (if c.dst.isVwr then some c.dstIndex else none).getD 0 = c.dstIndex := by
    cases hvwr : c.dst.isVwr with
    | true => rfl
    | false => exact (hc.dstIndex_eq hvwr).symm
  have hsrc : (if c.src.isVwr then some c.srcIndex else none).getD 0 = c.srcIndex := by
    cases hvwr : c.src.isVwr with
    | true => rfl
    | false => exact (hc.srcIndex_eq hvwr).symm
  rw [arithmeticReader, bind_eq (word_eq ..), hname]
  dsimp only
  rw [pure_bind, bind_eq (word_eq ..), resolveWidth?_text hc.width_mem, bind_eq (resolved_eq ..),
    bind_eq (storage_eq hc.dst_legal ..)]
  dsimp only
  rw [bind_eq (storage_eq hc.src_legal ..)]
  dsimp only
  rw [hdst, hsrc]
  cases c.opcode <;> rfl

theorem spells_width (width : Nat) :
    (Token.word ("SW" ++ decimal width)).Spells ("SW" ++ decimal width).toList :=
  spells_word (isWord_append_decimal (by decide) _)

/-- An arithmetic operation whose line ends with `tail`, which reads as its constant. -/
theorem readsBack_arithmetic_of_tail {c : ArithmeticOp} (hc : c.Written) (name : String)
    (hname : Opcode.ofArithmeticName? name = some c.opcode) (hword : isWord name.toList = true)
    {ts : List Token} {tail : List Char}
    (hspells : SpellsLine (.word (c.src.indexed c.srcIndex) :: ts)
      ((c.src.indexed c.srcIndex).toList ++ tail))
    (htext : (Operation.arithmetic c).text.toList = "VFUX".toList ++ ' ' :: (name.toList ++ ' ' ::
      (("SW" ++ decimal c.subword).toList ++ ' ' :: ((c.dst.indexed c.dstIndex).toList ++ ' ' ::
        ((c.src.indexed c.srcIndex).toList ++ tail)))))
    (hcsd : csdReader c.opcode ts = .ok (c.csd, [])) :
    ReadsBack (.instruction { op := .arithmetic c }) := by
  refine readsBack_of_operands "VFUX" rfl (by decide)
    (.cons (spells_word hword) (.cons (spells_width c.subword)
      (.cons (Storage.spells_indexed hc.dst_legal c.dstIndex) hspells))) ?_ ?_
  · rw [← htext]
    simp only [text, Instruction.text, String.append_empty]
  · show arithmeticReader _ = _
    rw [arithmeticReader_eq hc hname, bind_eq hcsd]
    rfl

theorem readsBack_arithmetic {c : ArithmeticOp} (hc : c.Written) :
    ReadsBack (.instruction { op := .arithmetic c }) := by
  have hsrc := Storage.spells_indexed hc.src_legal c.srcIndex
  have hfamily := hc.opcode_family
  obtain ⟨opcode, width, csd, dstIndex, srcIndex, dst, src⟩ := c
  have hplain :
      SpellsLine [.word (src.indexed srcIndex)] ((src.indexed srcIndex).toList ++ []) := by
    rw [List.append_nil]
    exact .single hsrc
  cases opcode with
  | mul =>
    refine readsBack_arithmetic_of_tail hc "MUL" rfl (by decide)
      (.cons hsrc (.single (spells_constant csd))) ?_ (constant_eq csd [])
    simp only [Operation.text, Opcode.arithmeticName?, String.toList_append, List.append_assoc]
    rfl
  | shl =>
    refine readsBack_arithmetic_of_tail hc "SHL" rfl (by decide)
      (.cons hsrc (.single (spells_field csd))) ?_ (field_eq _ csd [])
    simp only [Operation.text, Opcode.arithmeticName?, String.toList_append, List.append_assoc]
    rfl
  | shr =>
    refine readsBack_arithmetic_of_tail hc "SHR" rfl (by decide)
      (.cons hsrc (.single (spells_field csd))) ?_ (field_eq _ csd [])
    simp only [Operation.text, Opcode.arithmeticName?, String.toList_append, List.append_assoc]
    rfl
  | add =>
    obtain rfl := hc.csd_eq (.inl rfl)
    refine readsBack_arithmetic_of_tail hc "ADD" rfl (by decide) hplain ?_ rfl
    simp only [Operation.text, Opcode.arithmeticName?, String.toList_append, List.append_assoc]
    rfl
  | sub =>
    obtain rfl := hc.csd_eq (.inr rfl)
    refine readsBack_arithmetic_of_tail hc "SUB" rfl (by decide) hplain ?_ rfl
    simp only [Operation.text, Opcode.arithmeticName?, String.toList_append, List.append_assoc]
    rfl
  | _ => exact nomatch hfamily

/-- **Every statement that a line can say reads back.** -/
theorem Written.readsBack {s : Statement} (h : s.Written) : s.ReadsBack := by
  cases h with
  | select hindex => exact readsBack_select hindex
  | writeFile hfile hindex hd => exact readsBack_writeFile hfile hindex hd
  | writeLoop hstart hfinish hiterations => exact readsBack_writeLoop hstart hfinish hiterations
  | execute => exact readsBack_execute
  | instruction hi =>
    cases hi with
    | nop => exact readsBack_nop
    | exit => exact readsBack_exit
    | readRow hv a => exact readsBack_readRow hv a
    | writeRow hv a => exact readsBack_writeRow hv a
    | loadConstant k a hd => exact readsBack_loadConstant k a hd
    | @loadWord reg v hreg hpair hv imm =>
      have hvwr : (Storage.vwr v).Legal := hv
      exact readsBack_wordMove (Storage.legal_of_not_isVwr hreg) hvwr hreg ⟨hpair, nofun⟩ imm
    | @storeWord reg v hreg hpair hv imm =>
      have hvwr : (Storage.vwr v).Legal := hv
      exact readsBack_wordMove hvwr (Storage.legal_of_not_isVwr hreg) (by rw [hreg]; rfl)
        ⟨nofun, hpair⟩ imm
    | moveRegister hdst hsrc shift => exact readsBack_moveRegister hdst hsrc shift
    | permute hv pattern => exact readsBack_permute hv pattern
    | pack step offset index hv => exact readsBack_pack step offset index hv
    | arithmetic hc => exact readsBack_arithmetic hc

end Statement

end NearMemory
