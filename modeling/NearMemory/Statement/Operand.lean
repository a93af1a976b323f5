import NearMemory.Instruction
import NearMemory.Token

/-!
# Operand words

A word that names storage has a class and a number, such as `VWR_1[7]`: the class ends before the
first digit, underscore or bracket, and one underscore after it is dropped.

## Main definitions

* `splitStem` — class and remainder of a word
* `Storage.resolve?` — the storage, and the word index, that a word names
* `WidthStep.resolve?` — the width step that a word names
-/

namespace NearMemory

/-- Characters that end the class of a word. -/
def endsStem (c : Char) : Bool := Token.isDigit c || c == '_' || c == '['

/-- The class of a word and what follows it, one underscore after the class dropped. -/
def splitStem (word : List Char) : List Char × List Char :=
  let stem := word.takeWhile (!endsStem ·)
  match word.dropWhile (!endsStem ·) with
  | '_' :: rest => (stem, rest)
  | rest => (stem, rest)

/-- A number and the text of a bracketed index after it. A bracket that the text does not end with
is refused. -/
def splitBracket? (rest : List Char) : Option (List Char × Option (List Char)) :=
  match rest.dropWhile (· != '[') with
  | '[' :: inner =>
    if inner.getLast? = some ']' then some (rest.takeWhile (· != '['), some inner.dropLast)
    else none
  | _ => some (rest, none)

/-- The storage that a word names, and its word index if one is given. Only a very wide register
may have an index. -/
def Storage.resolve? (word : List Char) : Option (Storage × Option UInt32) :=
  if word = ['R', '1', 'R', '2'] then some (.r1r2, none)
  else do
    let (stem, rest) := splitStem word
    let (number, bracket) ← splitBracket? rest
    let index ← match bracket with
      | some inner => (Numeral.read? 10 UInt32.size inner).map (some <| UInt32.ofNat ·)
      | none => some none
    match stem with
    | ['R'] =>
      if index.isSome then none
      else match number with
        | ['0'] => some (.r0, none)
        | ['1'] => some (.r1, none)
        | ['2'] => some (.r2, none)
        | ['3'] => some (.r3, none)
        | _ => none
    | ['V', 'W', 'R'] =>
      let v ← Numeral.read? 10 2 number
      return (.vwr v, index)
    | _ => none

/-- The text before and after the first `TO` of a word. -/
def splitAtTo? : List Char → Option (List Char × List Char)
  | 'T' :: 'O' :: rest => some ([], rest)
  | c :: rest => (splitAtTo? rest).map fun (before, after) => (c :: before, after)
  | [] => none

/-- The width step that a word names. -/
def WidthStep.resolve? (word : List Char) : Option WidthStep :=
  match word with
  | 'P' :: 'K' :: body => do
    let (source, target) ← splitAtTo? body
    WidthStep.between? (← Numeral.read? 10 UInt32.size source)
      (← Numeral.read? 10 UInt32.size target)
  | _ => none

/-- The entry of the constant store that a word names. -/
def resolveConstant? (word : List Char) : Option UInt32 :=
  match splitStem word with
  | (['C', 'S', 'D'], rest) => (Numeral.read? 10 UInt32.size rest).map UInt32.ofNat
  | _ => none

/-- The subword width that a word names. Only widths of the ladder count. -/
def resolveWidth? (word : List Char) : Option Nat :=
  match splitStem word with
  | (['S', 'W'], rest) =>
    (Numeral.read? 10 UInt32.size rest).filter fun w => (Subword.index? w).isSome
  | _ => none

end NearMemory
