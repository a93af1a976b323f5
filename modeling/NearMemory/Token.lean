import NearMemory.Text.Numeral

/-!
# Tokens

An assembly line is scanned into numbers and words. Blanks and comments separate tokens; a comment
runs from a semicolon to the end of the line. Tokens are as long as possible.

## Main definitions

* `Token` — a number of at most 64 bits, or a word
* `Token.scan` — the tokens of a text, or the first place that is no token
* `ScanError` — such a place
-/

namespace NearMemory

/-- A token of an assembly line. -/
inductive Token where
  /-- A number, written in decimal or in hexadecimal with the mark `0x`. -/
  | number (value : UInt64)
  /-- A word, with a decimal index in brackets if one follows. -/
  | word (text : String)
  deriving DecidableEq, Repr

/-- The text of a token in messages. Numbers are shown in decimal. -/
def Token.text : Token → String
  | .number value => Numeral.decimal value.toNat
  | .word text => text

/-- A part of a line that is no token. -/
structure ScanError where
  /-- Its distance from the start of the line in bytes. -/
  column : Nat
  /-- The text that was taken. -/
  text : String
  deriving DecidableEq, Repr

/-- The length of a text in bytes. -/
def byteLength (cs : List Char) : Nat := cs.foldr (·.utf8Size + ·) 0

namespace Token

/-- Characters between tokens. -/
def isSpace (c : Char) : Bool := c == ' ' || c == '\t' || c == '\r' || c == '\n'

/-- Decimal digits. -/
def isDigit (c : Char) : Bool := '0' ≤ c && c ≤ '9'

/-- Hexadecimal digits. -/
def isHexDigit (c : Char) : Bool :=
  isDigit c || ('a' ≤ c && c ≤ 'f') || ('A' ≤ c && c ≤ 'F')

/-- Characters that start a word. -/
def isWordStart (c : Char) : Bool :=
  ('a' ≤ c && c ≤ 'z') || ('A' ≤ c && c ≤ 'Z') || c == '_'

/-- Characters that continue a word. -/
def isWordPart (c : Char) : Bool := isWordStart c || isDigit c

/-- A stretch of text that the scanner takes at once. -/
structure Lexeme where
  /-- The text taken. -/
  taken : List Char
  /-- The text after it. -/
  rest : List Char
  /-- The token it stands for, if any. -/
  token? : Option Token

/-- A number token, for values of at most 64 bits. -/
def ofDigits? (base : Nat) (run : List Char) : Option Token :=
  ((Numeral.value? base run).filter (· < UInt64.size)).map fun n => .number (UInt64.ofNat n)

/-- The number at the start of `c :: cs`, where `c` is a digit. The mark `0x` counts only before a
hexadecimal digit. -/
def Lexeme.ofNumber (c : Char) (cs : List Char) : Lexeme :=
  let decimal : Lexeme :=
    let run := c :: cs.takeWhile isDigit
    ⟨run, cs.dropWhile isDigit, ofDigits? 10 run⟩
  match c, cs with
  | '0', x :: h :: rest =>
    if (x == 'x' || x == 'X') && isHexDigit h then
      let run := h :: rest.takeWhile isHexDigit
      ⟨c :: x :: run, rest.dropWhile isHexDigit, ofDigits? 16 run⟩
    else decimal
  | _, _ => decimal

/-- The word at the start of `c :: cs`, where `c` starts a word. A bracket with at least one digit
belongs to the word, and spoils it unless it is closed. -/
def Lexeme.ofWord (c : Char) (cs : List Char) : Lexeme :=
  let stem := c :: cs.takeWhile isWordPart
  let rest := cs.dropWhile isWordPart
  let bare : Lexeme := ⟨stem, rest, some (.word (String.ofList stem))⟩
  match rest with
  | '[' :: d :: inner =>
    if isDigit d then
      let run := stem ++ '[' :: d :: inner.takeWhile isDigit
      match inner.dropWhile isDigit with
      | ']' :: after => ⟨run ++ [']'], after, some (.word (String.ofList (run ++ [']'])))⟩
      | after => ⟨run, after, none⟩
    else bare
  | _ => bare

/-- What stands at the start of `c :: cs`, where `c` neither separates tokens nor starts a
comment. -/
def lexeme (c : Char) (cs : List Char) : Lexeme :=
  if isDigit c then .ofNumber c cs
  else if isWordStart c then .ofWord c cs
  else ⟨[c], cs, none⟩

theorem length_dropWhile_le {α : Type} (p : α → Bool) (xs : List α) :
    (xs.dropWhile p).length ≤ xs.length :=
  (List.dropWhile_sublist p).length_le

theorem length_rest_ofNumber_le (c : Char) (cs : List Char) :
    (Lexeme.ofNumber c cs).rest.length ≤ cs.length := by
  unfold Lexeme.ofNumber
  split
  · rename_i x h rest
    have := length_dropWhile_le isHexDigit rest
    have := length_dropWhile_le isDigit (x :: h :: rest)
    simp only [List.length_cons] at *
    split <;> simp only <;> omega
  · exact length_dropWhile_le _ _

theorem length_rest_ofWord_le (c : Char) (cs : List Char) :
    (Lexeme.ofWord c cs).rest.length ≤ cs.length := by
  have hrest := length_dropWhile_le isWordPart cs
  unfold Lexeme.ofWord
  simp only
  split
  · rename_i d inner heq
    rw [heq] at hrest
    simp only [List.length_cons] at hrest
    have hinner := length_dropWhile_le isDigit inner
    split
    · split
      · rename_i after hafter
        rw [hafter] at hinner
        simp only [List.length_cons] at hinner
        simp only
        omega
      · simp only
        omega
    · simp only [heq, List.length_cons]
      omega
  · exact hrest

theorem length_rest_lexeme_le (c : Char) (cs : List Char) :
    (lexeme c cs).rest.length ≤ cs.length := by
  unfold lexeme
  split
  · exact length_rest_ofNumber_le c cs
  · split
    · exact length_rest_ofWord_le c cs
    · exact Nat.le_refl _

/-- The tokens of a text that starts `column` bytes into its line. -/
def scanFrom (column : Nat) (cs : List Char) : Except ScanError (List Token) :=
  match cs with
  | [] => .ok []
  | c :: rest =>
    if isSpace c then scanFrom (column + 1) rest
    else if c = ';' then
      scanFrom (column + 1 + byteLength (rest.takeWhile (· != '\n'))) (rest.dropWhile (· != '\n'))
    else
      let found := lexeme c rest
      match found.token? with
      | none => .error ⟨column, String.ofList found.taken⟩
      | some token => do
        let tokens ← scanFrom (column + byteLength found.taken) found.rest
        return token :: tokens
termination_by cs.length
decreasing_by
  · simp only [List.length_cons]; omega
  · have := length_dropWhile_le (· != '\n') rest
    simp only [List.length_cons]; omega
  · have := length_rest_lexeme_le c rest
    simp only [List.length_cons]; omega

/-- The tokens of a text, or the first place that is no token. -/
def scan (text : String) : Except ScanError (List Token) :=
  scanFrom 0 text.toList

end Token

end NearMemory
