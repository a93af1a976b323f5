import NearMemory.OperandStream

/-!
# What a stream supplies

Programs see an operand stream only through the records they take from it. `Supplies` says which
records these are without saying how the text spells them: it is the contract between whoever writes
a stream and whoever runs a program on it.

A record does not depend on the source line that asks for it; the line shows up in faults only.

## Main definitions

* `OperandStream.Supplies` — the records that a stream gives in turn

## Main results

* `OperandStream.consumed_takeRecord` — every record taken is counted
* `OperandStream.Supplies.takeRecord`, `OperandStream.Supplies.takeWord` — taking the first of the
  records supplied
-/

namespace NearMemory

namespace OperandStream

/-- The stream gives these records, in this order, when they are taken one by one. It may hold
more. -/
def Supplies : OperandStream → List (List UInt64) → Prop
  | _, [] => True
  | c, record :: records =>
    ∃ next : OperandStream, (∀ asmLine, c.takeRecord asmLine = (next, .ok record)) ∧
      next.Supplies records

/-! ### The count of records -/

theorem consumed_takeFrom {kind : OperandKind} {consumed asmLine line : Nat}
    {ls : List StreamLine} {next : OperandStream} {record : List UInt64}
    (h : takeFrom kind consumed asmLine line ls = (next, .ok record)) :
    next.consumed = consumed + 1 := by
  induction ls generalizing line with
  | nil => simp [takeFrom] at h
  | cons l rest ih =>
    cases l with
    | notText => simp [takeFrom] at h
    | text cs =>
      rw [takeFrom] at h
      split at h
      · exact ih h
      · exact ih h
      · split at h
        · obtain ⟨rfl, -⟩ := Prod.mk.inj h
          rfl
        · simp at h

theorem consumed_takeRecord {c next : OperandStream} {asmLine : Nat} {record : List UInt64}
    (h : c.takeRecord asmLine = (next, .ok record)) : next.consumed = c.consumed + 1 :=
  consumed_takeFrom h

/-! ### Taking what is supplied -/

namespace Supplies

variable {c : OperandStream}

theorem takeRecord {record : List UInt64} {records : List (List UInt64)}
    (h : c.Supplies (record :: records)) (asmLine : Nat) :
    ∃ next : OperandStream, c.takeRecord asmLine = (next, .ok record) ∧
      next.Supplies records ∧ next.consumed = c.consumed + 1 := by
  obtain ⟨next, htake, hnext⟩ := h
  exact ⟨next, htake asmLine, hnext, consumed_takeRecord (htake asmLine)⟩

/-- A record of one word can be taken as that word. -/
theorem takeWord {word : UInt64} {records : List (List UInt64)}
    (h : c.Supplies ([word] :: records)) (asmLine : Nat) :
    ∃ next : OperandStream, c.takeWord asmLine = (next, .ok word) ∧
      next.Supplies records ∧ next.consumed = c.consumed + 1 := by
  obtain ⟨next, htake, hnext, hcount⟩ := h.takeRecord asmLine
  exact ⟨next, by rw [OperandStream.takeWord, htake], hnext, hcount⟩

end Supplies

end OperandStream

end NearMemory
