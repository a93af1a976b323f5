/-!
# JSON values

The values of a JSON text, as far as a configuration needs them: numbers stay as they were written,
and objects keep their members in order, repeated keys included.

## Main definitions

* `Json` — a JSON value
* `Json.Text` — the text of a JSON string, absent where escapes stand for no text
-/

namespace NearMemory

/-- The text of a JSON string. It is absent for a string with an escaped surrogate that has no
partner, which is well formed and stands for no text. -/
abbrev Json.Text := Option String

/-- A JSON value. -/
inductive Json where
  /-- The null value. -/
  | null
  /-- A truth value. -/
  | bool (value : Bool)
  /-- A number, as it was written. -/
  | number (literal : String)
  /-- A string. -/
  | string (text : Json.Text)
  /-- An array. -/
  | array (items : List Json)
  /-- An object with its members in order. -/
  | object (members : List (Json.Text × Json))
  deriving Repr

end NearMemory
