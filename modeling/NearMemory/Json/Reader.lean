import NearMemory.Json.Value
import NearMemory.Text.Numeral

/-!
# Reading JSON

A strict reader: exactly the texts of the grammar of RFC 8259 are read, with no mark of byte order
in front and nothing but blanks after the value.

A reader takes characters from the front of the text and gives what is left. The readers of values
and of lists of values call each other; their first argument bounds the depth of these calls, and
the length of the text is always enough.

## Main definitions

* `Json.value?` — a value at the front of a text
* `Json.parse?` — the value of a whole text
-/

namespace NearMemory

namespace Json

/-- Blanks between the parts of a JSON text. -/
def isSpace (c : Char) : Bool := c == ' ' || c == '\t' || c == '\r' || c == '\n'

/-- The text without the blanks in front. -/
def skipSpace (cs : List Char) : List Char := cs.dropWhile isSpace

/-- Decimal digits. -/
def isDigit (c : Char) : Bool := '0' ≤ c && c ≤ '9'

/-- The rest after a literal at the front of a text. -/
def expect? : List Char → List Char → Option (List Char)
  | [], rest => some rest
  | c :: cs, d :: rest => if c = d then expect? cs rest else none
  | _ :: _, [] => none

/-! ### Numbers -/

/-- At least one digit, and the rest. -/
def digits? (cs : List Char) : Option (List Char × List Char) :=
  let run := cs.takeWhile isDigit
  if run.isEmpty then none else some (run, cs.dropWhile isDigit)

/-- The integer part of a number: a zero, or digits that do not start with one. -/
def integerPart? : List Char → Option (List Char × List Char)
  | '0' :: rest => if rest.head?.any isDigit then none else some (['0'], rest)
  | cs => digits? cs

/-- The fraction of a number, which may be empty. -/
def fraction? : List Char → Option (List Char × List Char)
  | '.' :: rest => (digits? rest).map fun (run, rest) => ('.' :: run, rest)
  | cs => some ([], cs)

/-- The exponent of a number, which may be empty. -/
def exponent? (cs : List Char) : Option (List Char × List Char) :=
  match cs with
  | e :: rest =>
    if e = 'e' ∨ e = 'E' then
      let (sign, rest) := match rest with
        | '+' :: rest => (['+'], rest)
        | '-' :: rest => (['-'], rest)
        | _ => ([], rest)
      (digits? rest).map fun (run, rest) => (e :: sign ++ run, rest)
    else some ([], cs)
  | [] => some ([], [])

/-- A number, as it is written. -/
def number? (cs : List Char) : Option (String × List Char) := do
  let (sign, cs) := match cs with
    | '-' :: rest => (['-'], rest)
    | _ => ([], cs)
  let (whole, cs) ← integerPart? cs
  let (fraction, cs) ← fraction? cs
  let (exponent, cs) ← exponent? cs
  return (String.ofList (sign ++ whole ++ fraction ++ exponent), cs)

/-! ### Strings -/

/-- A character of a JSON string, or the number of an escaped code unit. -/
inductive Unit16 where
  /-- A character that stands for itself, or a short escape. -/
  | char (c : Char)
  /-- A code unit given by its number. -/
  | unit (n : Nat)

/-- The character of a short escape. -/
def shortEscape? : Char → Option Char
  | '"' => some '"'
  | '\\' => some '\\'
  | '/' => some '/'
  | 'b' => some '\x08'
  | 'f' => some '\x0c'
  | 'n' => some '\n'
  | 'r' => some '\r'
  | 't' => some '\t'
  | _ => none

/-- The parts of a string whose opening quote was taken, and the rest after its closing quote.
Control characters have to be escaped. -/
def stringUnits? : List Char → Option (List Unit16 × List Char)
  | '"' :: rest => some ([], rest)
  | '\\' :: 'u' :: a :: b :: c :: d :: rest => do
    let n ← Numeral.value? 16 [a, b, c, d]
    let (units, rest) ← stringUnits? rest
    return (.unit n :: units, rest)
  | '\\' :: e :: rest => do
    let c ← shortEscape? e
    let (units, rest) ← stringUnits? rest
    return (.char c :: units, rest)
  | c :: rest =>
    if c.toNat < 0x20 ∨ c = '\\' then none
    else do
      let (units, rest) ← stringUnits? rest
      return (.char c :: units, rest)
  | [] => none

/-- The text of a string. Two escaped surrogates, a high one and a low one, stand for one character;
a surrogate without its partner stands for none. -/
def unitsText? : List Unit16 → Option (List Char)
  | [] => some []
  | .char c :: rest => (unitsText? rest).map (c :: ·)
  | .unit n :: rest =>
    if n < 0xd800 ∨ 0xdfff < n then (unitsText? rest).map (Char.ofNat n :: ·)
    else match rest with
      | .unit low :: rest =>
        if n ≤ 0xdbff ∧ 0xdc00 ≤ low ∧ low ≤ 0xdfff then
          (unitsText? rest).map (Char.ofNat (0x10000 + (n - 0xd800) * 0x400 + (low - 0xdc00)) :: ·)
        else none
      | _ => none

/-- A string whose opening quote was taken. -/
def string? (cs : List Char) : Option (Json.Text × List Char) :=
  (stringUnits? cs).map fun (units, rest) => ((unitsText? units).map String.ofList, rest)

/-! ### Values -/

mutual

/-- A value at the front of a text, after blanks. -/
def value? (depth : Nat) (cs : List Char) : Option (Json × List Char) :=
  match depth with
  | 0 => none
  | depth + 1 =>
    match skipSpace cs with
    | 'n' :: rest => (expect? ['u', 'l', 'l'] rest).map (.null, ·)
    | 't' :: rest => (expect? ['r', 'u', 'e'] rest).map (.bool true, ·)
    | 'f' :: rest => (expect? ['a', 'l', 's', 'e'] rest).map (.bool false, ·)
    | '"' :: rest => (string? rest).map fun (text, rest) => (.string text, rest)
    | '[' :: rest =>
      match skipSpace rest with
      | ']' :: rest => some (.array [], rest)
      | rest => (items? depth rest).map fun (items, rest) => (.array items, rest)
    | '\x7b' :: rest =>
      match skipSpace rest with
      | '\x7d' :: rest => some (.object [], rest)
      | rest => (members? depth rest).map fun (members, rest) => (.object members, rest)
    | rest => (number? rest).map fun (literal, rest) => (.number literal, rest)

/-- The items of an array that is not empty, and its closing bracket. -/
def items? (depth : Nat) (cs : List Char) : Option (List Json × List Char) :=
  match depth with
  | 0 => none
  | depth + 1 =>
    match value? depth cs with
    | none => none
    | some (item, rest) =>
      match skipSpace rest with
      | ',' :: rest => (items? depth rest).map fun (items, rest) => (item :: items, rest)
      | ']' :: rest => some ([item], rest)
      | _ => none

/-- The members of an object that is not empty, and its closing brace. -/
def members? (depth : Nat) (cs : List Char) : Option (List (Json.Text × Json) × List Char) :=
  match depth with
  | 0 => none
  | depth + 1 =>
    match skipSpace cs with
    | '"' :: rest =>
      match string? rest with
      | none => none
      | some (key, rest) =>
        match skipSpace rest with
        | ':' :: rest =>
          match value? depth rest with
          | none => none
          | some (item, rest) =>
            match skipSpace rest with
            | ',' :: rest =>
              (members? depth rest).map fun (members, rest) => ((key, item) :: members, rest)
            | '\x7d' :: rest => some ([(key, item)], rest)
            | _ => none
        | _ => none
    | _ => none

end

/-- The value of a whole text. -/
def parse? (text : String) : Option Json :=
  let cs := text.toList
  match value? (2 * cs.length + 2) cs with
  | some (value, rest) => if (skipSpace rest).isEmpty then some value else none
  | none => none

end Json

end NearMemory
