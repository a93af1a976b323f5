import NearMemory.Fault
import NearMemory.Instruction
import NearMemory.Text.Blank

/-!
# Operand streams

A program takes addresses and data from two operand streams. A stream is a text with one record a
line: hexadecimal numbers, with blanks between them. Blank lines and lines whose first mark is `#`
hold no record.

## Main definitions

* `OperandStream` — a stream, with the lines not yet read and what was read before
* `OperandStream.ofText`, `OperandStream.ofBytes`, `OperandStream.missing` — streams at their start
* `OperandStream.takeRecord`, `OperandStream.takeWord` — take a record from the front
* `OperandStreams` — the two streams of a program
* `recordsText`, `addressesText` — the text of a stream
-/

namespace NearMemory

/-- A line of a stream. -/
inductive StreamLine where
  /-- A line of text. -/
  | text (cs : List Char)
  /-- A line of bytes that encode no text. -/
  | notText
  deriving DecidableEq, Repr

/-- An operand stream. -/
structure OperandStream where
  /-- Which of the two streams it is. -/
  kind : OperandKind
  /-- The lines not yet read. -/
  lines : List StreamLine
  /-- How many lines of text were read. -/
  line : Nat := 0
  /-- How many records were taken. -/
  consumed : Nat := 0
  deriving DecidableEq, Repr

/-- A hexadecimal number of at most 64 bits, with or without the mark `0x`. -/
def readHex? (cs : List Char) : Option UInt64 :=
  let run := match cs with
    | '0' :: 'x' :: rest => rest
    | '0' :: 'X' :: rest => rest
    | _ => cs
  (Numeral.read? 16 UInt64.size run).map UInt64.ofNat

/-- The numbers of a record, or the first word that is none. -/
def readRecord : List (List Char) → Except String (List UInt64)
  | [] => .ok []
  | w :: ws =>
    match readHex? w with
    | none => .error (String.ofList w)
    | some n =>
      match readRecord ws with
      | .error bad => .error bad
      | .ok ns => .ok (n :: ns)

namespace OperandStream

/-- The stream with the given text. -/
def ofText (kind : OperandKind) (text : String) : OperandStream where
  kind
  lines := (terminatedBy (· == '\n') text.toList).map .text

/-- The line that bytes encode in UTF-8, if they do. -/
def decodeLine (bytes : List UInt8) : StreamLine :=
  match String.fromUTF8? ⟨bytes.toArray⟩ with
  | some text => .text text.toList
  | none => .notText

/-- The stream with the given bytes. Lines end at the byte 10. -/
def ofBytes (kind : OperandKind) (bytes : ByteArray) : OperandStream where
  kind
  lines := (terminatedBy (· == 10) bytes.data.toList).map decodeLine

/-- The stream of a program that is given none. It has no records. -/
def missing (kind : OperandKind) : OperandStream where
  kind
  lines := []

/-- Take the first record of some lines, for the source line `asmLine`. A line that holds a bad word
or no text is passed over all the same. -/
def takeFrom (kind : OperandKind) (consumed asmLine : Nat) :
    Nat → List StreamLine → OperandStream × Except AssemblyError (List UInt64)
  | line, [] => (⟨kind, [], line, consumed⟩, .error (.atLine asmLine (.exhausted kind)))
  | line, .notText :: rest => (⟨kind, rest, line, consumed⟩, .error .notText)
  | line, .text cs :: rest =>
    match words cs with
    | [] => takeFrom kind consumed asmLine (line + 1) rest
    | ('#' :: _) :: _ => takeFrom kind consumed asmLine (line + 1) rest
    | record =>
      match readRecord record with
      | .ok values => (⟨kind, rest, line + 1, consumed + 1⟩, .ok values)
      | .error bad => (⟨kind, rest, line + 1, consumed⟩, .error (.badRecord kind (line + 1) bad))

/-- Take the next record, for the source line `asmLine`. -/
def takeRecord (c : OperandStream) (asmLine : Nat) :
    OperandStream × Except AssemblyError (List UInt64) :=
  takeFrom c.kind c.consumed asmLine c.line c.lines

/-- Take the next record, which has to be a single word. -/
def takeWord (c : OperandStream) (asmLine : Nat) : OperandStream × Except AssemblyError UInt64 :=
  match c.takeRecord asmLine with
  | (c, .error e) => (c, .error e)
  | (c, .ok [word]) => (c, .ok word)
  | (c, .ok record) =>
    (c, .error (.atLine asmLine (.grammar (.recordWidth c.kind c.consumed record.length))))

end OperandStream

/-- The operand streams of a program. -/
structure OperandStreams where
  /-- The data stream. -/
  data : OperandStream
  /-- The address stream. -/
  addresses : OperandStream
  deriving DecidableEq, Repr

/-- The streams with the given texts. -/
def OperandStreams.ofText (data addresses : String) : OperandStreams :=
  ⟨.ofText .data data, .ofText .address addresses⟩

/-- Lines, each with its line end. -/
def unlines (ls : List String) : String := String.join (ls.map (· ++ "\n"))

/-- The text of a stream of records. -/
def recordsText (records : List (List UInt64)) : String := unlines (records.map hexWords)

/-- The text of a stream of single words. -/
def addressesText (addresses : List UInt64) : String :=
  unlines (addresses.map fun a => Numeral.hex a.toNat)

end NearMemory
