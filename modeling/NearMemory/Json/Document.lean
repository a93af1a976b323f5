/-!
# Writing JSON

Reports are written as JSON with one member or item a line, indented by two spaces a level. An empty
list stays on its line.

## Main definitions

* `Document` — a report as a tree
* `Document.render` — its text
-/

namespace NearMemory

/-- A report as a tree. -/
inductive Document where
  /-- No value. -/
  | absent
  /-- A truth value. -/
  | flag (value : Bool)
  /-- A count. -/
  | count (value : Nat)
  /-- A text. -/
  | text (value : String)
  /-- A list of reports. -/
  | items (values : List Document)
  /-- Named reports, in order. -/
  | fields (members : List (String × Document))

namespace Document

/-- Four hexadecimal digits. -/
def hex4 (n : Nat) : String :=
  let digits := Nat.toDigits 16 n
  String.ofList (List.replicate (4 - digits.length) '0' ++ digits)

/-- A character inside quotes. -/
def quoteChar (c : Char) : String :=
  if c = '"' then "\\\""
  else if c = '\\' then "\\\\"
  else if c = '\n' then "\\n"
  else if c = '\r' then "\\r"
  else if c = '\t' then "\\t"
  else if c = '\x08' then "\\b"
  else if c = '\x0c' then "\\f"
  else if c.toNat < 0x20 then "\\u" ++ hex4 c.toNat
  else String.singleton c

/-- A text in quotes. -/
def quote (s : String) : String := "\"" ++ String.join (s.toList.map quoteChar) ++ "\""

/-- A line end and the indent of a level. -/
def newline (level : Nat) : String := "\n" ++ String.ofList (List.replicate (2 * level) ' ')

mutual

/-- The text of a report at a level. -/
def renderAt (level : Nat) : Document → String
  | .absent => "null"
  | .flag true => "true"
  | .flag false => "false"
  | .count n => toString n
  | .text s => quote s
  | .items [] => "[]"
  | .items (r :: rs) =>
    "[" ++ newline (level + 1) ++ renderAt (level + 1) r ++ renderItems (level + 1) rs
      ++ newline level ++ "]"
  | .fields [] => "\x7b\x7d"
  | .fields ((key, r) :: rs) =>
    "\x7b" ++ newline (level + 1) ++ quote key ++ ": " ++ renderAt (level + 1) r
      ++ renderFields (level + 1) rs ++ newline level ++ "\x7d"

/-- The items after the first, at a level. -/
def renderItems (level : Nat) : List Document → String
  | [] => ""
  | r :: rs => "," ++ newline level ++ renderAt level r ++ renderItems level rs

/-- The named reports after the first, at a level. -/
def renderFields (level : Nat) : List (String × Document) → String
  | [] => ""
  | (key, r) :: rs =>
    "," ++ newline level ++ quote key ++ ": " ++ renderAt level r ++ renderFields level rs

end

/-- The text of a report. -/
def render (r : Document) : String := renderAt 0 r

end Document

end NearMemory
