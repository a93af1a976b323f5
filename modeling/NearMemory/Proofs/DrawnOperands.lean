import NearMemory.Schedule.Operands
import Mathlib.Algebra.Order.Ring.Nat

/-!
# How many operands are drawn

Whatever the source of random words gives, an instruction gets one address if it reads the address
stream and one constant if it reads the data stream. So the streams of a schedule have as many
records as its passes take, and one more for the mask.

## Main definitions

* `Operands.Grown` — records were added to the streams

## Main results

* `Schedule.length_addresses_drawOperands`, `Schedule.exists_data_drawOperands` — the streams of a
  schedule
-/

namespace NearMemory

variable {γ : Type}

/-- This many addresses and data records were added, and every record is a single word. -/
structure Operands.Grown (addresses data : Nat) (o o' : Operands γ) : Prop where
  addresses_eq : ∃ as, o'.addresses.toList = o.addresses.toList ++ as ∧ as.length = addresses
  data_eq : ∃ ds, o'.data.toList = o.data.toList ++ ds ∧ ds.length = data ∧ ∀ d ∈ ds, d.length = 1

namespace Operands

theorem Grown.refl (o : Operands γ) : Grown 0 0 o o :=
  ⟨⟨[], by simp⟩, ⟨[], by simp⟩⟩

theorem Grown.trans {addresses₁ addresses₂ data₁ data₂ : Nat} {o₀ o₁ o₂ : Operands γ}
    (h₁ : Grown addresses₁ data₁ o₀ o₁) (h₂ : Grown addresses₂ data₂ o₁ o₂) :
    Grown (addresses₁ + addresses₂) (data₁ + data₂) o₀ o₂ := by
  obtain ⟨⟨as₁, has₁, haslen₁⟩, ⟨ds₁, hds₁, hdslen₁, hne₁⟩⟩ := h₁
  obtain ⟨⟨as₂, has₂, haslen₂⟩, ⟨ds₂, hds₂, hdslen₂, hne₂⟩⟩ := h₂
  refine ⟨⟨as₁ ++ as₂, ?_, ?_⟩, ⟨ds₁ ++ ds₂, ?_, ?_, ?_⟩⟩
  · rw [has₂, has₁, List.append_assoc]
  · rw [List.length_append, haslen₁, haslen₂]
  · rw [hds₂, hds₁, List.append_assoc]
  · rw [List.length_append, hdslen₁, hdslen₂]
  · intro d hd
    rcases List.mem_append.mp hd with hd | hd
    · exact hne₁ d hd
    · exact hne₂ d hd

variable [RandomWords γ]

/-- One instruction. -/
theorem grown_drawInstruction (map : Address.Map) (digits : Nat) (o : Operands γ)
    (i : Instruction) :
    Grown (if i.readsAddress then 1 else 0) (if i.readsData then 1 else 0) o
      (o.drawInstruction map digits i) := by
  refine ⟨?_, ?_⟩
  · refine ⟨if i.readsAddress then [(drawAddress map o.source).1] else [], ?_, ?_⟩
    · rw [drawInstruction]
      cases i.readsAddress <;> cases i.readsData <;> simp
    · split <;> rfl
  · rw [drawInstruction]
    cases hdata : i.readsData with
    | false => cases i.readsAddress <;> exact ⟨[], by simp⟩
    | true => cases i.readsAddress <;> exact ⟨[[_]], Array.toList_push, rfl, by simp⟩

/-- Instructions in turn. -/
theorem grown_foldl_drawInstruction (map : Address.Map) (digits : Nat) (body : List Instruction)
    (o : Operands γ) :
    Grown (body.countP (·.readsAddress)) (body.countP (·.readsData)) o
      (body.foldl (drawInstruction map digits) o) := by
  induction body generalizing o with
  | nil => exact .refl o
  | cons i rest ih =>
    rw [List.countP_cons, List.countP_cons, List.foldl_cons, Nat.add_comm (rest.countP _),
      Nat.add_comm (rest.countP _)]
    exact (grown_drawInstruction map digits o i).trans (ih _)

/-- A pass, which draws for every run of its body. -/
theorem grown_drawPass (map : Address.Map) (digits : Nat) (o : Operands γ) (p : Pass) :
    Grown p.addressReads p.dataReads o (o.drawPass map digits p) := by
  rw [drawPass, Pass.addressReads, Pass.dataReads]
  induction p.runs with
  | zero =>
    rw [Nat.zero_mul, Nat.zero_mul]
    exact .refl o
  | succ n ih =>
    rw [Nat.succ_mul, Nat.succ_mul]
    exact ih.trans (grown_foldl_drawInstruction map digits p.body _)

theorem grown_foldl_drawPass (map : Address.Map) (digits : Nat) (passes : List Pass)
    (o : Operands γ) :
    Grown (passes.map (·.addressReads)).sum (passes.map (·.dataReads)).sum o
      (passes.foldl (drawPass map digits) o) := by
  induction passes generalizing o with
  | nil => exact .refl o
  | cons p rest ih =>
    rw [List.map_cons, List.map_cons, List.sum_cons, List.sum_cons, List.foldl_cons]
    exact (grown_drawPass map digits o p).trans (ih _)

end Operands

namespace Schedule

variable [RandomWords γ]

theorem addressReads_eq_sum (s : Schedule) :
    s.addressReads = (s.passes.map (·.addressReads)).sum := by
  rw [addressReads, List.sum_eq_foldr, List.foldr_map]

/-- **The address stream has a record for every address taken.** -/
theorem length_addresses_drawOperands (s : Schedule) (source : γ) :
    (s.drawOperands source).addresses.toList.length = s.addressReads := by
  obtain ⟨⟨as, has, hlength⟩, -⟩ := Operands.grown_foldl_drawPass s.hardware.addressMap
    s.workload.digitLength s.passes { data := #[fullMask], source }
  rw [drawOperands, has, List.nil_append, hlength, addressReads_eq_sum]

/-- **The data stream has the mask, and a record for every constant taken.** -/
theorem exists_data_drawOperands (s : Schedule) (source : γ) :
    ∃ constants, (s.drawOperands source).data.toList = fullMask :: constants ∧
      constants.length = (s.passes.map (·.dataReads)).sum ∧ ∀ record ∈ constants, record ≠ [] := by
  obtain ⟨-, ⟨ds, hds, hlength, hone⟩⟩ := Operands.grown_foldl_drawPass s.hardware.addressMap
    s.workload.digitLength s.passes { data := #[fullMask], source }
  refine ⟨ds, hds, hlength, fun d hd => List.ne_nil_of_length_pos ?_⟩
  rw [hone d hd]
  exact Nat.one_pos

/-- The records of the data stream: the mask has a word for every core, and a constant is a single
word. -/
theorem map_length_data_drawOperands (s : Schedule) (source : γ) :
    (s.drawOperands source).data.toList.map List.length =
      fullMask.length :: List.replicate (s.passes.map (·.dataReads)).sum 1 := by
  obtain ⟨-, ⟨ds, hds, hlength, hone⟩⟩ := Operands.grown_foldl_drawPass s.hardware.addressMap
    s.workload.digitLength s.passes { data := #[fullMask], source }
  rw [drawOperands, hds, List.map_append, List.map_eq_replicate_iff.mpr hone, hlength]
  rfl

end Schedule

end NearMemory
