import NearMemory.Proofs.TokenText
import NearMemory.Statement.Operand
import NearMemory.RegisterFile

/-!
# Operand words read back

The words that name storage, constants, widths, width steps and register files are read by their
class and their number. Each of them is spelled, in the sense of the scanner, and names what it was
written for.

## Main definitions

* `Storage.Legal` — the storage that the hardware has

## Main results

* `Storage.resolve?_text`, `Storage.resolve?_indexed` — storage, without and with a word index
* `resolveConstant?_text`, `resolveWidth?_text`, `WidthStep.resolve?_text` — the other operands
* `RegisterFile.splitStem_entry` — an entry of a register file
-/

namespace NearMemory

open Numeral

/-! ### Class and number -/

theorem splitStem_underscore {stem : List Char} (hstem : stem.all (!endsStem ·) = true)
    (rest : List Char) : splitStem (stem ++ '_' :: rest) = (stem, rest) := by
  obtain ⟨htake, hdrop⟩ := Token.takeWhile_append_stop (List.all_eq_true.mp hstem) ('_' :: rest)
    (by rintro _ ⟨⟩; decide)
  rw [splitStem]
  simp only [htake, hdrop]

/-- A class right before a number: no digit is dropped. -/
theorem splitStem_digits {stem : List Char} (hstem : stem.all (!endsStem ·) = true) (n : Nat) :
    splitStem (stem ++ digits 10 n) = (stem, digits 10 n) := by
  have hdigit : ∀ c ∈ digits 10 n, Token.isDigit c = true := fun c hc =>
    isDigit_of_mem_digits (by decide) (by decide) hc
  obtain ⟨htake, hdrop⟩ := Token.takeWhile_append_stop (List.all_eq_true.mp hstem) (digits 10 n) (by
    intro c hc
    simp [endsStem, hdigit c (List.mem_of_head? hc)])
  rw [splitStem]
  simp only [htake, hdrop]
  split
  next rest heq => exact absurd (hdigit '_' (heq ▸ List.mem_cons_self ..)) (by decide)
  next => rfl

/-- A number with an index in brackets. -/
theorem splitBracket?_bracketed {number : List Char} (h : number.all (· != '[') = true)
    (inner : List Char) :
    splitBracket? (number ++ '[' :: (inner ++ [']'])) = some (number, some inner) := by
  obtain ⟨htake, hdrop⟩ := Token.takeWhile_append_stop (List.all_eq_true.mp h)
    ('[' :: (inner ++ [']'])) (by rintro _ ⟨⟩; decide)
  rw [splitBracket?, htake, hdrop]
  simp

/-! ### Storage -/

namespace Storage

/-- The storage that the hardware has: there are two very wide registers. -/
def Legal : Storage → Prop
  | .vwr v => v < 2
  | _ => True

theorem legal_of_not_isVwr {s : Storage} (hs : s.isVwr = false) : s.Legal := by
  cases s with
  | vwr v => simp [isVwr] at hs
  | _ => trivial

theorem toList_text_vwr {v : Nat} (hv : v < 2) :
    (vwr v).text.toList = ['V', 'W', 'R', '_', digitChar v] := by
  simp only [text, String.toList_append, toList_decimal, digits_of_lt (show v < 10 by omega)]
  rfl

theorem isWord_text {s : Storage} (hs : s.Legal) : Token.isWord s.text.toList = true := by
  cases s with
  | vwr v =>
    obtain rfl | rfl : v = 0 ∨ v = 1 := by simp only [Legal] at hs; omega
    · decide +kernel
    · decide +kernel
  | _ => decide

/-- Storage without an index reads back. -/
theorem resolve?_text {s : Storage} (hs : s.Legal) : resolve? s.text.toList = some (s, none) := by
  cases s with
  | vwr v =>
    obtain rfl | rfl : v = 0 ∨ v = 1 := by simp only [Legal] at hs; omega
    · decide +kernel
    · decide +kernel
  | _ => decide +kernel

theorem resolve?_bracketed {v : Nat} (hv : v < 2) (index : UInt32) :
    resolve? ('V' :: 'W' :: 'R' :: '_' :: digitChar v :: '[' :: (digits 10 index.toNat ++ [']'])) =
      some (.vwr v, some index) := by
  have hstem : splitStem (['V', 'W', 'R'] ++
      '_' :: ([digitChar v] ++ '[' :: (digits 10 index.toNat ++ [']']))) = _ :=
    splitStem_underscore (by decide) _
  have hnumber : ∀ v < 2, [digitChar v].all (· != '[') = true := by decide
  have hv10 : read? 10 2 [digitChar v] = some v := by
    rw [← digits_of_lt (show v < 10 by omega), read?_digits (by decide) (by decide) hv]
  have hindex := read?_digits (show 2 ≤ 10 by decide) (by decide) index.toNat_lt
  rw [resolve?, if_neg (by simp)]
  simp only [List.cons_append, List.nil_append] at hstem
  simp only [hstem]
  have hbracket := splitBracket?_bracketed (hnumber v hv) (digits 10 index.toNat)
  simp only [List.cons_append, List.nil_append] at hbracket
  rw [hbracket]
  simp [hindex, hv10]

/-- **Storage reads back**, with its index if the text shows one. -/
theorem resolve?_indexed {s : Storage} (hs : s.Legal) (index : UInt32) :
    resolve? (s.indexed index).toList = some (s, if s.isVwr then some index else none) := by
  cases s with
  | vwr v =>
    have htext := Token.toList_bracketed (vwr v).text index.toNat
    rw [toList_text_vwr hs] at htext
    exact (congrArg resolve? htext).trans (resolve?_bracketed hs index)
  | _ => exact resolve?_text hs

theorem spells_text {s : Storage} (hs : s.Legal) : (Token.word s.text).Spells s.text.toList :=
  Token.spells_word (isWord_text hs)

theorem spells_indexed {s : Storage} (hs : s.Legal) (index : UInt32) :
    (Token.word (s.indexed index)).Spells (s.indexed index).toList := by
  cases s with
  | vwr v => exact Token.spells_indexed (isWord_text hs) index.toNat
  | _ => exact spells_text hs

end Storage

/-! ### Constants, widths and width steps -/

theorem isWord_append_decimal {stem : String} (h : Token.isWord stem.toList = true) (n : Nat) :
    Token.isWord (stem ++ decimal n).toList = true := by
  rw [String.toList_append, toList_decimal]
  exact Token.isWord_append h Token.isWordPart_of_mem_digits

theorem resolveConstant?_text (k : UInt32) :
    resolveConstant? ("CSD_" ++ decimal k.toNat).toList = some k := by
  have hstem : splitStem (['C', 'S', 'D'] ++ '_' :: digits 10 k.toNat) = _ :=
    splitStem_underscore (by decide) _
  have hread := read?_digits (show 2 ≤ 10 by decide) (by decide) k.toNat_lt
  have htext : ("CSD_" ++ decimal k.toNat).toList =
      ['C', 'S', 'D'] ++ '_' :: digits 10 k.toNat := by
    rw [String.toList_append, toList_decimal]
    rfl
  rw [htext, resolveConstant?, hstem]
  simp only [hread, Option.map_some, UInt32.ofNat_toNat]

theorem resolveWidth?_text {width : Nat} (h : width ∈ Subword.ladder) :
    resolveWidth? ("SW" ++ decimal width).toList = some width := by
  have hladder : ∀ w ∈ Subword.ladder, w < UInt32.size ∧ (Subword.index? w).isSome = true := by
    decide
  have hstem : splitStem (['S', 'W'] ++ digits 10 width) = _ := splitStem_digits (by decide) _
  have hread := read?_digits (show 2 ≤ 10 by decide) (by decide) (hladder width h).1
  have htext : ("SW" ++ decimal width).toList = ['S', 'W'] ++ digits 10 width := by
    rw [String.toList_append, toList_decimal]
    rfl
  rw [htext, resolveWidth?, hstem]
  simp only [hread, Option.filter_some_pos (p := fun w => (Subword.index? w).isSome)
    (hladder width h).2]

namespace WidthStep

theorem isWord_text (r : WidthStep) : Token.isWord r.text.toList = true := by
  cases r <;> decide +kernel

theorem resolve?_text (r : WidthStep) : resolve? r.text.toList = some r := by
  cases r <;> decide +kernel

end WidthStep

/-! ### Register files -/

namespace RegisterFile

theorem ofTag?_tag (f : RegisterFile) : ofTag? f.tag = some f := by
  cases f <;> rfl

theorem isWord_tag (f : RegisterFile) : Token.isWord f.tag.toList = true := by
  cases f <;> decide

theorem splitStem_entry (f : RegisterFile) (index : Nat) :
    splitStem (f.tag ++ decimal index).toList = (f.tag.toList, digits 10 index) := by
  rw [String.toList_append, toList_decimal]
  exact splitStem_digits (by cases f <;> decide) index

end RegisterFile

end NearMemory
