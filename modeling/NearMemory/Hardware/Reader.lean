import NearMemory.Hardware
import NearMemory.Json.Reader

/-!
# Reading a configuration

A configuration is a JSON object whose members replace the stock values; members of other names are
ignored. A member may not be given twice. Instead of an object, the values may be given as an array
in the order of their declaration, and the name of an alternative may be given as the key of an
object whose value is null.

## Main definitions

* `Hardware.ofJson?` — the configuration of a JSON value
* `Hardware.read` — the configuration of a text, within its limits
* `ConfigError` — why a text gives no configuration
-/

namespace NearMemory

/-- Why a text gives no configuration. -/
inductive ConfigError where
  /-- The text is not the JSON of a configuration. -/
  | malformed
  /-- The configuration is out of bounds. -/
  | outOfBounds (error : HardwareError)
  deriving DecidableEq, Repr

/-- What is wrong with a configuration, in words. -/
def ConfigError.message : ConfigError → String
  | .malformed => "malformed configuration"
  | .outOfBounds error => "Configuration error: " ++ error.message

namespace Json

/-- A natural number below `bound`, written without sign, fraction and exponent. -/
def natBelow? (bound : Nat) : Json → Option Nat
  | .number literal =>
    let cs := literal.toList
    if cs.all isDigit then (Numeral.value? 10 cs).filter (· < bound) else none
  | _ => none

/-- The alternative of the given name. -/
def alternative? {α : Type} (all : List α) (name : α → String) : Json → Option α
  | .string (some text) => all.find? (name · == text)
  | .object [(some text, .null)] => all.find? (name · == text)
  | _ => none

/-- The texts of the keys of an object, if each key has one. -/
def keys? (members : List (Json.Text × Json)) : Option (List (String × Json)) :=
  members.mapM fun (key, item) => key.map (·, item)

/-- The member of a name. `none` says that it is given twice, `some none` that it is not given. -/
def member? (name : String) (members : List (String × Json)) : Option (Option Json) :=
  match members.filter (·.1 == name) with
  | [] => some none
  | [(_, item)] => some (some item)
  | _ => none

/-- The values of a record with the given member names, from an object or from an array in the order
of the names. Absent members are `none`. -/
def record? (names : List String) : Json → Option (List (Option Json))
  | .object members => do
    let members ← keys? members
    names.mapM (member? · members)
  | .array items =>
    if items.length ≤ names.length then
      some (items.map some ++ List.replicate (names.length - items.length) none)
    else none
  | _ => none

end Json

namespace Address

/-- An entry of an address map: a level and its width. -/
def entryOfJson? : Json → Option (Level × Nat)
  | .array [level, width] => do
    return (← level.alternative? Level.all Level.name, ← width.natBelow? UInt32.size)
  | _ => none

/-- The address map of a JSON value. Base and levels are both needed. -/
def Map.ofJson? (json : Json) : Option Map :=
  match json.record? ["base", "levels"] with
  | some [some base, some (.array levels)] => do
    return ⟨UInt64.ofNat (← base.natBelow? UInt64.size), ← levels.mapM entryOfJson?⟩
  | _ => none

end Address

namespace Hardware

/-- The member names of a configuration, in order. -/
def memberNames : List String :=
  ["ib_entries", "csd_entries", "vwr_words", "dram_interval", "address_map", "direction_policy",
    "seed"]

/-- A member that replaces its stock value when it is given. -/
def replacing {α : Type} (stock : α) (read : Json → Option α) : Option Json → Option α
  | none => some stock
  | some json => read json

/-- The configuration of a JSON value. -/
def ofJson? (json : Json) : Option Hardware :=
  let stock : Hardware := {}
  match json.record? memberNames with
  | some [ib, csd, vwr, dram, map, policy, seed] => do
    return {
      bufferEntries := ← replacing stock.bufferEntries (Json.natBelow? UInt64.size) ib
      storeEntries := ← replacing stock.storeEntries (Json.natBelow? UInt64.size) csd
      registerWords := ← replacing stock.registerWords (Json.natBelow? UInt64.size) vwr
      accessInterval := ← replacing stock.accessInterval (Json.natBelow? UInt32.size) dram
      addressMap := ← replacing stock.addressMap Address.Map.ofJson? map
      idleDirection := ← replacing stock.idleDirection
        (Json.alternative? IdleDirection.all IdleDirection.name) policy
      seed := ← replacing stock.seed (fun j => (j.natBelow? UInt64.size).map UInt64.ofNat) seed }
  | _ => none

/-- The configuration of a text, within its limits. -/
def read (text : String) : Except ConfigError Hardware :=
  match (Json.parse? text).bind ofJson? with
  | none => .error .malformed
  | some hw =>
    match hw.check with
    | .error e => .error (.outOfBounds e)
    | .ok () => .ok hw

end Hardware

end NearMemory
