import NearMemory.RegisterFile

/-!
# Addresses

A linear address is laid out by an address map: a base, and a list of levels with their widths,
least significant first. The top bit of the row field is a flag; where it is set, the address
belongs to a register file and not to storage.

All arithmetic is on 64-bit words, and the base is added modulo `2 ^ 64`. A shift by 64 bits or more
is an overflow, at which a run stops. Whether there is one is a matter of the map alone: a field
cannot be placed from bit 64 on, even if it has no bits, nor can one of 64 bits be shifted out of a
word. The functions with a question mark are absent then; the others are their values elsewhere.

## Main definitions

* `Address.Level`, `Address.Tuple` — the levels, and a value for each of them
* `Address.Map` — base and layout
* `Address.Map.toLinear`, `Address.Map.ofLinear` — between tuples and linear addresses
* `Address.Map.registerFile` — where an entry of a register file lives
* `Address.Map.isPlaceable`, `Address.Map.isReadable` — the maps without overflow, in either
  direction
* `Address.Map.toLinear?`, `Address.Map.ofLinear?` — the same, absent on an overflow
-/

namespace NearMemory

namespace Address

/-- The levels of a memory address. -/
inductive Level where
  /-- Memory channel. -/
  | channel
  /-- Column of an open row. -/
  | column
  /-- Rank of a channel. -/
  | rank
  /-- Bank group of a rank. -/
  | bankGroup
  /-- Bank of a bank group. -/
  | bank
  /-- Row of a bank. -/
  | row
  deriving DecidableEq, Repr

/-- Every level. -/
def Level.all : List Level := [.channel, .column, .rank, .bankGroup, .bank, .row]

/-- The name of a level in a configuration. -/
def Level.name : Level → String
  | .channel => "channel"
  | .column => "column"
  | .rank => "rank"
  | .bankGroup => "bank_group"
  | .bank => "bank"
  | .row => "row"

/-- A value for each level. -/
structure Tuple where
  /-- Value of the channel level. -/
  channel : UInt64 := 0
  /-- Value of the column level. -/
  column : UInt64 := 0
  /-- Value of the rank level. -/
  rank : UInt64 := 0
  /-- Value of the bank-group level. -/
  bankGroup : UInt64 := 0
  /-- Value of the bank level. -/
  bank : UInt64 := 0
  /-- Value of the row level. -/
  row : UInt64 := 0
  deriving DecidableEq, Repr

namespace Tuple

/-- The value of a level. -/
def get (t : Tuple) : Level → UInt64
  | .channel => t.channel
  | .column => t.column
  | .rank => t.rank
  | .bankGroup => t.bankGroup
  | .bank => t.bank
  | .row => t.row

/-- The tuple with one level replaced. -/
def set (t : Tuple) (level : Level) (value : UInt64) : Tuple :=
  match level with
  | .channel => { t with channel := value }
  | .column => { t with column := value }
  | .rank => { t with rank := value }
  | .bankGroup => { t with bankGroup := value }
  | .bank => { t with bank := value }
  | .row => { t with row := value }

@[simp] theorem get_set_self (t : Tuple) (level : Level) (value : UInt64) :
    (t.set level value).get level = value := by
  cases level <;> rfl

theorem get_set_of_ne (t : Tuple) {level other : Level} (value : UInt64) (h : other ≠ level) :
    (t.set level value).get other = t.get other := by
  cases level <;> cases other <;> first | rfl | exact absurd rfl h

end Tuple

/-- The `width` lowest bits of a word. A width of 64 and above is the whole word. -/
def lowBits (width : Nat) : UInt64 := UInt64.ofNat ((1 <<< min width 64) - 1)

/-- The layout of linear addresses. -/
structure Map where
  /-- The address of the tuple of zeros. -/
  base : UInt64
  /-- The levels with their widths in bits, least significant first. -/
  levels : List (Level × Nat)
  deriving DecidableEq, Repr

namespace Map

/-- The stock layout: 28 bits from address zero. -/
def stock : Map where
  base := 0
  levels := [(.channel, 1), (.column, 7), (.rank, 1), (.bankGroup, 2), (.bank, 2), (.row, 15)]

/-- The width of the first entry of a level, zero if the level is not listed. -/
def width (m : Map) (level : Level) : Nat :=
  (m.levels.lookup level).getD 0

/-- The bits of all entries together. -/
def span (m : Map) : Nat := m.levels.foldr (·.2 + ·) 0

/-- The register-file flag: the top bit of the row field. -/
def fileFlag (m : Map) : UInt64 :=
  match m.width .row with
  | 0 => 0
  | w + 1 => 1 <<< UInt64.ofNat w

/-- The fields of a tuple, laid out from bit `offset` on. -/
def place (t : Tuple) (offset : Nat) : List (Level × Nat) → UInt64
  | [] => 0
  | (level, width) :: rest =>
    ((t.get level &&& lowBits width) <<< UInt64.ofNat offset) ||| place t (offset + width) rest

/-- The linear address of a tuple. Values are cut to the widths of their fields. -/
def toLinear (m : Map) (t : Tuple) : UInt64 :=
  m.base + place t 0 m.levels

/-- The fields of a word, read in turn from its low end into a tuple. Where a level is listed
twice, the later field stays. -/
def extract (linear : UInt64) (t : Tuple) : List (Level × Nat) → Tuple
  | [] => t
  | (level, width) :: rest =>
    extract (linear >>> UInt64.ofNat width) (t.set level (linear &&& lowBits width)) rest

/-- The tuple of a linear address. Levels that are not listed are zero. -/
def ofLinear (m : Map) (address : UInt64) : Tuple :=
  extract (address - m.base) {} m.levels

/-- The address of an entry of a register file: its row is the flag and the number of the file, its
column the index of the entry. -/
def registerFile (m : Map) (file : RegisterFile) (index : Nat) : UInt64 :=
  m.toLinear { row := m.fileFlag ||| UInt64.ofNat file.number, column := UInt64.ofNat index }

/-- Whether an address carries the register-file flag. -/
def isRegisterFile (m : Map) (address : UInt64) : Bool :=
  (m.ofLinear address).row &&& m.fileFlag != 0

/-! ### Overflow -/

/-- Whether fields can be placed from bit `offset` on: each starts within the word, and a register
of 32 bits holds where it ends. -/
def startWithin (offset : Nat) : List (Level × Nat) → Bool
  | [] => true
  | (_, width) :: rest =>
    offset < 64 && offset + width < UInt32.size && startWithin (offset + width) rest

/-- Whether the fields of a tuple can be placed. -/
def isPlaceable (m : Map) : Bool := startWithin 0 m.levels

/-- Whether the fields of a word can be read: each is narrower than a word. -/
def isReadable (m : Map) : Bool := m.levels.all (·.2 < 64)

/-- Whether the row field has a top bit within the word, or none at all. -/
def isFlagged (m : Map) : Bool := m.width .row ≤ 64

/-- Whether there are addresses of storage and of register files. -/
def isAddressable (m : Map) : Bool := m.isFlagged && m.isPlaceable

/-- The linear address of a tuple, absent on an overflow. -/
def toLinear? (m : Map) (t : Tuple) : Option UInt64 :=
  if m.isPlaceable then some (m.toLinear t) else none

/-- The tuple of a linear address, absent on an overflow. -/
def ofLinear? (m : Map) (address : UInt64) : Option Tuple :=
  if m.isReadable then some (m.ofLinear address) else none

/-- The register-file flag, absent on an overflow. -/
def fileFlag? (m : Map) : Option UInt64 :=
  if m.isFlagged then some m.fileFlag else none

/-- The address of an entry of a register file, absent on an overflow. -/
def registerFile? (m : Map) (file : RegisterFile) (index : Nat) : Option UInt64 := do
  let flag ← m.fileFlag?
  m.toLinear? { row := flag ||| UInt64.ofNat file.number, column := UInt64.ofNat index }

/-- Whether an address carries the register-file flag, absent on an overflow. -/
def isRegisterFile? (m : Map) (address : UInt64) : Option Bool := do
  let t ← m.ofLinear? address
  let flag ← m.fileFlag?
  return t.row &&& flag != 0

end Map

end Address

end NearMemory
