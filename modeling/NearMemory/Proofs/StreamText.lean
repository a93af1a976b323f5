import NearMemory.Proofs.LineText
import NearMemory.Proofs.NumeralText
import NearMemory.Proofs.StreamSupply

/-!
# The text of a stream supplies its records

Records that are written one a line, as words in hexadecimal, are supplied in that order by the
stream with this text. A record needs at least one word, since a blank line holds no record.

## Main definitions

* `OperandStream.ofRecords` — the stream of some records

## Main results

* `OperandStream.supplies_recordsText` — the records of a data stream
* `OperandStream.supplies_addressesText` — the words of an address stream
-/

namespace NearMemory

open Numeral

/-! ### Words in hexadecimal -/

theorem isBlank_of_mem_hex {n : Nat} {c : Char} (h : c ∈ (hex n).toList) : isBlank c = false := by
  have hdigit : ∀ d < 16, isBlank (digitChar d) = false := by decide
  rw [toList_hex, List.mem_cons, List.mem_cons] at h
  rcases h with rfl | rfl | h
  · decide
  · decide
  · obtain ⟨d, hd, rfl⟩ := exists_of_mem_digits (by decide) h
    exact hdigit d hd

theorem readHex?_hex (w : UInt64) : readHex? (hex w.toNat).toList = some w := by
  rw [toList_hex]
  show (read? 16 UInt64.size (digits 16 w.toNat)).map UInt64.ofNat = some w
  rw [read?_digits (by decide) (by decide) w.toNat_lt, Option.map_some, UInt64.ofNat_toNat]

theorem readRecord_hex (record : List UInt64) :
    readRecord (record.map fun w => (hex w.toNat).toList) = .ok record := by
  induction record with
  | nil => rfl
  | cons w rest ih => rw [List.map_cons, readRecord, readHex?_hex, ih]

theorem words_hexWords (record : List UInt64) :
    words (hexWords record).toList = record.map fun w => (hex w.toNat).toList := by
  rw [hexWords, String.toList_intercalate, List.map_map]
  refine words_intercalate fun w hw => ?_
  obtain ⟨word, -, rfl⟩ := List.mem_map.mp hw
  refine ⟨?_, fun c hc => isBlank_of_mem_hex hc⟩
  rw [Function.comp_apply, toList_hex]
  exact List.cons_ne_nil _ _

/-- Words with nothing but spaces between them stay on one line. -/
theorem oneLine_of_isBlank {cs : List Char} (h : ∀ c ∈ cs, c = ' ' ∨ isBlank c = false) :
    OneLine cs := by
  intro c hc
  rcases h c hc with rfl | hblank
  · decide
  · constructor
    · rintro rfl
      exact absurd hblank (by decide)
    · rintro rfl
      exact absurd hblank (by decide)

theorem oneLine_hex (n : Nat) : OneLine (hex n).toList :=
  oneLine_of_isBlank fun _ hc => .inr (isBlank_of_mem_hex hc)

theorem toList_hexWords_singleton (w : UInt64) : (hexWords [w]).toList = (hex w.toNat).toList := by
  rw [hexWords, String.toList_intercalate, List.map_singleton, List.map_singleton,
    List.intercalate_singleton]

theorem toList_hexWords_cons_cons (w w' : UInt64) (rest : List UInt64) :
    (hexWords (w :: w' :: rest)).toList =
      (hex w.toNat).toList ++ ' ' :: (hexWords (w' :: rest)).toList := by
  simp only [hexWords, String.toList_intercalate, List.map_cons, List.intercalate_cons_cons,
    List.append_assoc]
  rfl

theorem eq_space_or_of_mem_hexWords (record : List UInt64) :
    ∀ c ∈ (hexWords record).toList, c = ' ' ∨ isBlank c = false := by
  match record with
  | [] => exact nofun
  | [w] =>
    rw [toList_hexWords_singleton]
    exact fun _ hc => .inr (isBlank_of_mem_hex hc)
  | w :: w' :: rest =>
    intro c hc
    rw [toList_hexWords_cons_cons, List.mem_append, List.mem_cons] at hc
    rcases hc with hc | hc | hc
    · exact .inr (isBlank_of_mem_hex hc)
    · exact .inl hc
    · exact eq_space_or_of_mem_hexWords (w' :: rest) c hc

theorem oneLine_hexWords (record : List UInt64) : OneLine (hexWords record).toList :=
  oneLine_of_isBlank (eq_space_or_of_mem_hexWords record)

/-! ### Records -/

namespace OperandStream

theorem takeFrom_hexWords {record : List UInt64} (h : record ≠ []) (kind : OperandKind)
    (consumed asmLine line : Nat) (rest : List StreamLine) :
    takeFrom kind consumed asmLine line (.text (hexWords record).toList :: rest) =
      (⟨kind, rest, line + 1, consumed + 1⟩, .ok record) := by
  obtain ⟨w, ws, rfl⟩ := List.exists_cons_of_ne_nil h
  have hread := readRecord_hex (w :: ws)
  rw [takeFrom, words_hexWords]
  rw [List.map_cons, toList_hex] at hread ⊢
  split
  next heq => simp at heq
  next heq => simp at heq
  next => rw [hread]

/-- The stream of some records, one a line, of which some were taken before. -/
def ofRecords (kind : OperandKind) (line consumed : Nat) (records : List (List UInt64)) :
    OperandStream :=
  ⟨kind, records.map fun r => .text (hexWords r).toList, line, consumed⟩

theorem supplies_ofRecords {records : List (List UInt64)} (h : ∀ record ∈ records, record ≠ [])
    (kind : OperandKind) (line consumed : Nat) :
    (ofRecords kind line consumed records).Supplies records := by
  induction records generalizing line consumed with
  | nil => trivial
  | cons record rest ih =>
    refine ⟨ofRecords kind (line + 1) (consumed + 1) rest, ?_, ?_⟩
    · intro asmLine
      exact takeFrom_hexWords (h record (List.mem_cons_self ..)) kind consumed asmLine line _
    · exact ih (fun r hr => h r (List.mem_cons_of_mem _ hr)) _ _

theorem ofText_recordsText (records : List (List UInt64)) (kind : OperandKind) :
    ofText kind (recordsText records) = ofRecords kind 0 0 records := by
  have hlines : ∀ l ∈ records.map hexWords, OneLine l.toList := by
    intro l hl
    obtain ⟨record, -, rfl⟩ := List.mem_map.mp hl
    exact oneLine_hexWords record
  rw [ofText, recordsText, terminatedBy_unlines hlines, List.map_map, List.map_map]
  rfl

/-- Addresses are records of one word. -/
theorem addressesText_eq (addresses : List UInt64) :
    addressesText addresses = recordsText (addresses.map ([·])) := by
  rw [addressesText, recordsText, List.map_map]
  rfl

theorem ofText_addressesText (addresses : List UInt64) (kind : OperandKind) :
    ofText kind (addressesText addresses) = ofRecords kind 0 0 (addresses.map ([·])) := by
  rw [addressesText_eq, ofText_recordsText]

/-- **A data stream supplies the records it was written from.** -/
theorem supplies_recordsText {records : List (List UInt64)} (h : ∀ record ∈ records, record ≠ [])
    (kind : OperandKind) : (ofText kind (recordsText records)).Supplies records := by
  rw [ofText_recordsText]
  exact supplies_ofRecords h kind 0 0

theorem ne_nil_of_mem_singletons {addresses : List UInt64} :
    ∀ record ∈ addresses.map ([·]), record ≠ [] := by
  intro record hrecord
  obtain ⟨a, -, rfl⟩ := List.mem_map.mp hrecord
  exact List.cons_ne_nil _ _

/-- **An address stream supplies the words it was written from,** one a record. -/
theorem supplies_addressesText (addresses : List UInt64) (kind : OperandKind) :
    (ofText kind (addressesText addresses)).Supplies (addresses.map ([·])) := by
  rw [ofText_addressesText]
  exact supplies_ofRecords ne_nil_of_mem_singletons kind 0 0

end OperandStream

end NearMemory
