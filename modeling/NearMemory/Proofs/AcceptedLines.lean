import NearMemory.Proofs.StatementText
import NearMemory.Proofs.TreeWidths

/-!
# What a line can say

`Statement.Written` lists statements whose lines read back. That list is complete: whatever the text
of a line looks like, with its own blanks, comments, number notations and defaults, the statement
that the reader takes from it is on the list.

Readers are composed, and so is what is known of them. `LineReader.Gives` states a property of every
value that a reader can give; a reader that is built from others inherits its property from theirs,
so that no proof looks at the tokens that the readers before it have left.

## Main definitions

* `LineReader.Gives` — a property of all values that a reader gives

## Main results

* `Storage.of_resolve?`, `Numeral.lt_of_read?` — what the words of operands can name
* `Statement.gives_reader` — the reader gives only statements that can be written
* `Statement.written_of_ofLine` — so every line that is accepted says such a statement
-/

namespace NearMemory

/-! ### Words of operands -/

theorem Numeral.lt_of_read? {base bound n : Nat} {cs : List Char}
    (h : read? base bound cs = some n) : n < bound := by
  simp only [read?, Option.filter_eq_some_iff, decide_eq_true_iff] at h
  exact h.2

theorem Opcode.family_of_ofArithmeticName? {name : String} {opcode : Opcode}
    (h : ofArithmeticName? name = some opcode) : opcode.family = .arithmetic := by
  unfold ofArithmeticName? at h
  split at h
  all_goals cases h
  all_goals rfl

theorem mem_ladder_of_resolveWidth? {word : List Char} {width : Nat}
    (h : resolveWidth? word = some width) : width ∈ Subword.ladder := by
  unfold resolveWidth? at h
  split at h
  · rw [Option.filter_eq_some_iff] at h
    exact Subword.isSome_index?_iff.mp h.2
  · contradiction

namespace Storage

theorem exists_vwr_of_isVwr {s : Storage} (h : s.isVwr = true) : ∃ v, s = .vwr v := by
  cases s with
  | vwr v => exact ⟨v, rfl⟩
  | _ => simp [isVwr] at h

/-- A word names storage that exists, and an index only together with a very wide register. -/
theorem of_resolve? {word : List Char} {s : Storage} {index : Option UInt32}
    (h : resolve? word = some (s, index)) : s.Legal ∧ (s.isVwr = false → index = none) := by
  rw [resolve?] at h
  split at h
  · obtain ⟨rfl, rfl⟩ := Prod.mk.inj (Option.some.inj h)
    exact ⟨trivial, fun _ => rfl⟩
  obtain ⟨⟨number, bracket⟩, -, h⟩ := Option.bind_eq_some_iff.mp h
  dsimp only at h
  -- with a bracket or without one, the class decides
  cases bracket
  all_goals
    obtain ⟨given, -, h⟩ := Option.bind_eq_some_iff.mp h
    split at h
    · split at h
      · contradiction
      · split at h
        all_goals cases h
        all_goals exact ⟨trivial, fun _ => rfl⟩
    · obtain ⟨v, hv, h⟩ := Option.bind_eq_some_iff.mp h
      obtain ⟨rfl, rfl⟩ := Prod.mk.inj (Option.some.inj h)
      exact ⟨Numeral.lt_of_read? hv, by rintro ⟨⟩⟩
    · contradiction

end Storage

/-! ### Properties of readers -/

namespace LineReader

variable {α β : Type}

/-- Every value that the reader gives has the property, whatever the tokens are. -/
def Gives (x : LineReader α) (P : α → Prop) : Prop :=
  ∀ ⦃ts : List Token⦄ ⦃a : α⦄ ⦃rest : List Token⦄, x ts = .ok (a, rest) → P a

theorem Gives.any (x : LineReader α) : x.Gives fun _ => True := fun _ _ _ _ => trivial

theorem Gives.pure {P : α → Prop} {a : α} (h : P a) : Gives (pure a) P := by
  intro ts b rest heq
  obtain ⟨rfl, -⟩ := Prod.mk.inj (Except.ok.inj heq)
  exact h

theorem Gives.throw (P : α → Prop) (f : LineFault) : Gives (throw f) P := by
  intro ts b rest heq
  cases heq

theorem Gives.fault (P : α → Prop) (f : GrammarFault) : Gives (fault f) P :=
  .throw P (.grammar f)

theorem Gives.bind {x : LineReader α} {f : α → LineReader β} {P : α → Prop} {Q : β → Prop}
    (hx : x.Gives P) (hf : ∀ a, P a → (f a).Gives Q) : (x >>= f).Gives Q := by
  intro ts b rest h
  cases hfirst : x ts with
  | error e =>
    change (x ts >>= fun p => f p.1 p.2) = _ at h
    rw [hfirst] at h
    cases h
  | ok p =>
    rw [bind_eq hfirst] at h
    exact hf p.1 (hx hfirst) h

/-- A reader that goes on with a value of which nothing is known. -/
theorem Gives.bind_any {x : LineReader α} {f : α → LineReader β} {Q : β → Prop}
    (hf : ∀ a, (f a).Gives Q) : (x >>= f).Gives Q :=
  (Gives.any x).bind fun a _ => hf a

theorem Gives.ite {c : Prop} [Decidable c] {x y : LineReader α} {P : α → Prop}
    (hx : c → x.Gives P) (hy : ¬c → y.Gives P) : (if c then x else y).Gives P := by
  split
  next h => exact hx h
  next h => exact hy h

theorem gives_resolved {P : α → Prop} (w : String) {value : Option α} (h : ∀ a ∈ value, P a) :
    (resolved w value).Gives P := by
  cases value with
  | none => exact .throw P _
  | some a => exact .pure (h a rfl)

theorem gives_storage : storage.Gives fun p => p.1.Legal ∧ (p.1.isVwr = false → p.2 = none) :=
  .bind_any fun w => gives_resolved w fun _ h => Storage.of_resolve? h

theorem gives_register : register.Gives (·.isVwr = false) := by
  refine .bind_any fun w => gives_resolved w fun s h => ?_
  split at h
  · split at h
    · contradiction
    next hs =>
      obtain rfl := Option.some.inj h
      exact Bool.eq_false_of_not_eq_true hs
  · contradiction

theorem gives_vwr : vwr.Gives (· < 2) := by
  refine .bind_any fun w => gives_resolved w fun v h => ?_
  split at h
  next hresolve =>
    obtain rfl := Option.some.inj h
    exact (Storage.of_resolve? hresolve).1
  next => contradiction

/-- Data that is read is never empty. -/
theorem gives_data : data.Gives DataOperand.Written := by
  intro ts d rest h
  match ts with
  | [] => cases h
  | .number n :: more =>
    obtain ⟨rfl, -⟩ := Prod.mk.inj (Except.ok.inj h)
    exact DataOperand.written_literal _ _
  | .word w :: more =>
    change (if w = "DataFile" then _ else _ : LineReader DataOperand) _ = _ at h
    split at h
    · obtain ⟨rfl, -⟩ := Prod.mk.inj (Except.ok.inj h)
      exact DataOperand.written_stream
    · cases h

end LineReader

/-! ### Statements -/

namespace Statement

open LineReader

theorem written_ofOperation {op : Operation} (h : Instruction.Written { op }) :
    (ofOperation op).Written :=
  .instruction h

theorem gives_writeFileReader : writeFileReader.Gives Written := by
  refine .bind_any fun w => .bind_any fun file => ?_
  refine .bind (gives_resolved w fun _ h => Numeral.lt_of_read? h) fun index hindex => ?_
  refine .ite (fun hfile => ?_) (fun hfile => .bind_any fun more => ?_)
  · subst hfile
    exact .pure (.select hindex)
  · refine .ite (fun _ => ?_) (fun _ => .fault _ _)
    exact .bind gives_data fun d hd => .pure (.writeFile hfile hindex hd)

theorem gives_writeLoopReader : writeLoopReader.Gives Written :=
  .bind_any fun start => .bind_any fun finish => .bind_any fun iterations =>
    .pure (.writeLoop start.toNat_lt finish.toNat_lt iterations.toNat_lt)

theorem gives_nopReader : nopReader.Gives Written := by
  refine .bind_any fun more => .ite (fun _ => .bind_any fun w => ?_) (fun _ => ?_)
  · exact .ite (fun _ => .pure (written_ofOperation .exit)) (fun _ => .fault _ _)
  · exact .pure (written_ofOperation .nop)

/-- A word move between a very wide register and a register, which is not the pair. -/
theorem written_wordMove {dst src : Storage} (hdst : dst.Legal) (hsrc : src.Legal)
    (hsides : dst.isVwr = !src.isVwr) (hpair : ¬(dst = .r1r2 ∨ src = .r1r2)) (imm : UInt32) :
    (ofOperation (.move ⟨.vmv, imm, dst, src⟩)).Written := by
  rw [not_or] at hpair
  cases hvwr : src.isVwr with
  | true =>
    obtain ⟨v, rfl⟩ := Storage.exists_vwr_of_isVwr hvwr
    exact written_ofOperation (.loadWord (by simpa [hvwr] using hsides) hpair.1 hsrc imm)
  | false =>
    obtain ⟨v, rfl⟩ := Storage.exists_vwr_of_isVwr (by simpa [hvwr] using hsides)
    exact written_ofOperation (.storeWord hvwr hpair.2 hdst imm)

theorem gives_wordMoveReader : wordMoveReader.Gives Written := by
  refine .bind gives_storage fun ⟨dst, dstIndex⟩ hdst => ?_
  refine .bind gives_storage fun ⟨src, srcIndex⟩ hsrc => ?_
  have hend : dst.isVwr = (!src.isVwr) → ∀ imm,
      Gives (if dst = .r1r2 ∨ src = .r1r2 then fault .movePair
        else pure (ofOperation (.move ⟨.vmv, imm, dst, src⟩))) Written := by
    intro hsides imm
    exact .ite (fun _ => .fault _ _)
      (fun hpair => .pure (written_wordMove hdst.1 hsrc.1 hsides hpair imm))
  dsimp only
  -- the index is taken from the side of the very wide register; it does not matter here
  split
  next hvwr hreg =>
    refine .bind_any fun index => ?_
    cases index <;> exact .bind_any (hend (by rw [hvwr, hreg]; rfl))
  next hreg hvwr =>
    refine .bind_any fun index => ?_
    cases index <;> exact .bind_any (hend (by rw [hvwr, hreg]; rfl))
  next => exact .bind (.fault (fun _ => False) _) fun _ h => h.elim

theorem gives_registerMoveReader : registerMoveReader.Gives Written := by
  refine .bind gives_register fun dst hdst => .bind gives_register fun src hsrc => ?_
  have hend : ∀ shift, Gives (pure (ofOperation (.moveRegister dst src shift))) Written :=
    fun shift => .pure (written_ofOperation (.moveRegister hdst hsrc shift))
  exact .bind_any fun more => .ite (fun _ => .bind_any hend) (fun _ => .bind_any hend)

theorem gives_packReader : packReader.Gives Written := by
  refine .bind_any fun w => .bind_any fun step => .bind_any fun offset => ?_
  refine .bind gives_storage fun ⟨dst, index⟩ hdst => ?_
  refine .ite (fun hvwr => ?_) (fun _ => .fault _ _)
  obtain ⟨v, rfl⟩ := Storage.exists_vwr_of_isVwr hvwr
  exact .pure (written_ofOperation (.pack step offset _ hdst.1))

/-- Only the operations that show a constant have one. -/
theorem gives_csdReader {opcode : Opcode} (hfamily : opcode.family = .arithmetic) :
    (csdReader opcode).Gives fun csd => opcode = .add ∨ opcode = .sub → csd = 0 := by
  cases opcode with
  | add | sub => exact .pure fun _ => rfl
  | mul | shl | shr => exact fun _ _ _ _ h => by simp at h
  | _ => exact nomatch hfamily

theorem gives_arithmeticReader : arithmeticReader.Gives Written := by
  refine .bind_any fun name => ?_
  dsimp only
  split
  next opcode hname =>
    have hfamily := Opcode.family_of_ofArithmeticName? hname
    rw [pure_bind]
    refine .bind_any fun w => ?_
    refine .bind (gives_resolved w fun _ h => mem_ladder_of_resolveWidth? h) fun width hwidth => ?_
    refine .bind gives_storage fun ⟨dst, dstIndex⟩ hdst => ?_
    refine .bind gives_storage fun ⟨src, srcIndex⟩ hsrc => ?_
    have hend : ∀ csd, (opcode = .add ∨ opcode = .sub → csd = 0) → Gives (pure (ofOperation
        (.arithmetic ⟨opcode, width, csd, dstIndex.getD 0, srcIndex.getD 0, dst, src⟩)))
          Written := by
      intro csd hcsd
      refine .pure (written_ofOperation
        (.arithmetic ⟨hfamily, hwidth, hdst.1, hsrc.1, ?_, ?_, hcsd⟩))
      · exact fun hvwr => congrArg (·.getD 0) (hdst.2 hvwr)
      · exact fun hvwr => congrArg (·.getD 0) (hsrc.2 hvwr)
    have hread := (gives_csdReader hfamily).bind hend
    cases opcode <;> exact hread
  next => exact .bind (.throw (fun _ => False) _) fun _ h => h.elim

/-- The operands of every mnemonic. -/
theorem gives_operandReader (mnemonic : Mnemonic) : (operandReader mnemonic).Gives Written := by
  cases mnemonic with
  | wrf => exact gives_writeFileReader
  | loop => exact gives_writeLoopReader
  | exec => exact .pure .execute
  | nop => exact gives_nopReader
  | rlb =>
    exact .bind gives_vwr fun v hv => .bind_any fun a => .pure (.instruction (.readRow hv a))
  | wlb =>
    exact .bind gives_vwr fun v hv => .bind_any fun a => .pure (.instruction (.writeRow hv a))
  | glmv =>
    exact .bind_any fun k => .bind_any fun a => .bind gives_data fun d hd =>
      .pure (.instruction (.loadConstant k a hd))
  | vmv => exact gives_wordMoveReader
  | rmv => exact gives_registerMoveReader
  | perm =>
    exact .bind gives_vwr fun v hv => .bind_any fun pattern =>
      .pure (written_ofOperation (.permute hv pattern))
  | pack => exact gives_packReader
  | vfux => exact gives_arithmeticReader

/-- **The reader gives only statements that can be written.** -/
theorem gives_reader : reader.Gives Written := by
  refine .bind_any fun head => ?_
  split
  · exact .throw _ _
  next mnemonic _ =>
    refine .bind (gives_operandReader mnemonic) fun s hs => .bind_any fun left => ?_
    exact .ite (fun _ => .pure hs) (fun _ => .fault _ _)

theorem written_of_ofTokens {tokens : List Token} {s : Statement}
    (h : ofTokens tokens = .ok (some s)) : s.Written := by
  rw [ofTokens] at h
  split at h
  · simp at h
  · cases hrun : reader.run tokens with
    | error fault =>
      rw [hrun] at h
      cases h
    | ok result =>
      rw [hrun] at h
      obtain rfl := Option.some.inj (Except.ok.inj h)
      exact gives_reader hrun

/-- **Every line that is accepted says a statement that can be written.** -/
theorem written_of_ofLine {number : Nat} {text : String} {s : Statement}
    (h : ofLine number text = .ok (some s)) : s.Written := by
  rw [ofLine] at h
  split at h
  · contradiction
  next tokens _ =>
    split at h
    · contradiction
    next hread =>
      obtain rfl := Except.ok.inj h
      exact written_of_ofTokens hread

end Statement

end NearMemory
