import NearMemory.RegisterFile
import NearMemory.Text.Numeral

/-!
# Faults of an assembly run

Everything that can stop an assembly run. Most faults belong to a line of the source and carry its
number; a malformed operand stream is reported by its own line instead.

## Main definitions

* `Role` — what an operand is expected to be
* `GrammarFault`, `LineFault` — the faults of a source line
* `AssemblyError` — the faults of a run
* `AssemblyError.message`, `AssemblyError.line?` — its text, and the source line it belongs to
-/

namespace NearMemory

/-- The two operand streams of a program. -/
inductive OperandKind where
  /-- Records of data words. -/
  | data
  /-- One address a record. -/
  | address
  deriving DecidableEq, Repr

/-- The name of a stream in messages. -/
def OperandKind.text : OperandKind → String
  | .data => "data"
  | .address => "address"

/-- What an operand of a line is expected to be. -/
inductive Role where
  /-- First word of a line. -/
  | mnemonic
  /-- First entry of a loop. -/
  | loopStart
  /-- Last entry of a loop. -/
  | loopFinish
  /-- Number of passes of a loop. -/
  | loopIterations
  /-- Target of a register write. -/
  | registerFile
  /-- Marker of the end of a program. -/
  | exitMarker
  /-- Shift of a register move. -/
  | shift
  /-- Pattern of a permutation. -/
  | pattern
  /-- Width step of a pack. -/
  | step
  /-- Start of a pack. -/
  | packOffset
  /-- Name of an arithmetic operation. -/
  | arithmetic
  /-- Subword width. -/
  | width
  /-- Amount of an arithmetic shift. -/
  | shiftAmount
  /-- Any storage. -/
  | storage
  /-- A register. -/
  | register
  /-- A very wide register. -/
  | vwr
  /-- Entry of the constant store. -/
  | constant
  /-- Address of a memory access. -/
  | address
  /-- Data of a memory access. -/
  | data
  deriving DecidableEq, Repr

/-- The name of a role in messages. -/
def Role.text : Role → String
  | .mnemonic => "mnemonic"
  | .loopStart => "loop start"
  | .loopFinish => "loop end"
  | .loopIterations => "loop iterations"
  | .registerFile => "register file"
  | .exitMarker => "EXIT"
  | .shift => "shift"
  | .pattern => "permutation pattern"
  | .step => "repack selector"
  | .packOffset => "pack offset"
  | .arithmetic => "VFUX operation"
  | .width => "subword width"
  | .shiftAmount => "shift amount"
  | .storage => "storage operand"
  | .register => "register"
  | .vwr => "VWR"
  | .constant => "CSD entry"
  | .address => "address operand"
  | .data => "data operand"

/-- The ways in which a line can break the grammar. -/
inductive GrammarFault where
  /-- A part of the line is no token; the column counts bytes from zero. -/
  | unexpectedText (text : String) (column : Nat)
  /-- A token of the wrong kind. -/
  | expected (role : Role) (token : String)
  /-- The line ends too early. -/
  | missing (role : Role)
  /-- The line goes on too long. -/
  | extraOperands (mnemonic : String) (count : Nat)
  /-- A word after an empty operation that is not the exit marker. -/
  | notExit (word : String)
  /-- A word move that is not between one very wide register and one register. -/
  | moveSides
  /-- A word move without a word index. -/
  | moveIndex
  /-- A word move of the register pair. -/
  | movePair
  /-- A pack into a register. -/
  | packTarget
  /-- A register write without a value. -/
  | needsValue (target : String)
  /-- An instruction while no buffer entry is selected. -/
  | notStaging (instruction : String)
  /-- A loop that ends before it starts. -/
  | loopOrder (start finish : Nat)
  /-- A register write with the wrong number of words. -/
  | literalCount (file : RegisterFile) (count : Nat)
  /-- A stream record that is not one word. -/
  | recordWidth (stream : OperandKind) (record count : Nat)
  /-- A buffer entry whose word stands for no operation. -/
  | undecodable (entry : Nat) (word : UInt32)
  deriving DecidableEq, Repr

/-- What is wrong with a line, in words. -/
def GrammarFault.message : GrammarFault → String
  | .unexpectedText text column => s!"unexpected '{text}' at column {column + 1}"
  | .expected role token => s!"expected {role.text}, got '{token}'"
  | .missing role => s!"missing {role.text}"
  | .extraOperands mnemonic count => s!"{mnemonic} takes fewer operands ({count} extra)"
  | .notExit word => s!"NOP accepts only EXIT, got '{word}'"
  | .moveSides => "VMV moves between one VWR word and one register"
  | .moveIndex => "VMV needs a VWR word index"
  | .movePair => "VMV cannot address the R1R2 pair"
  | .packTarget => "PACK writes a VWR word"
  | .needsValue target => s!"WRF {target} needs a value"
  | .notStaging instruction =>
    s!"'{instruction}' outside an instruction-buffer write, expected WRF IB<n> first"
  | .loopOrder start finish => s!"loop start {start} is past its end {finish}"
  | .literalCount file count => s!"{file.tag} takes {file.entryWords} word(s), got {count}"
  | .recordWidth stream record count =>
    s!"{stream.text} record {record} holds {count} words, expected 1"
  | .undecodable entry word =>
    let shown := Numeral.hex word.toNat
    s!"instruction buffer entry {entry} holds undecodable word {shown}"

/-- What an index can exceed. -/
inductive Resource where
  /-- The instruction buffer, as a place to stage. -/
  | instrBuffer
  /-- The instruction buffer, as the end of a loop. -/
  | loopFinish
  /-- Another register file. -/
  | file (file : RegisterFile)
  deriving DecidableEq, Repr

/-- The name of a resource in messages. -/
def Resource.text : Resource → String
  | .instrBuffer => "instruction buffer"
  | .loopFinish => "loop end"
  | .file f => f.tag

/-- The faults that belong to a source line. -/
inductive LineFault where
  /-- A first word, or an arithmetic name, that stands for nothing. -/
  | unknownMnemonic (name : String)
  /-- A line that breaks the grammar. -/
  | grammar (fault : GrammarFault)
  /-- An operand that stands for nothing. -/
  | unresolved (token : String)
  /-- An index beyond the entries of a resource. -/
  | capacity (resource : Resource) (index entries : Nat)
  /-- A stream without a further record. -/
  | exhausted (stream : OperandKind)
  deriving DecidableEq, Repr

/-- What is wrong with a line, in words. -/
def LineFault.message : LineFault → String
  | .unknownMnemonic name => s!"unknown mnemonic '{name}'"
  | .grammar fault => fault.message
  | .unresolved token => s!"unresolved operand '{token}'"
  | .capacity resource index entries =>
    s!"{resource.text} index {index} exceeds capacity {entries}"
  | .exhausted stream => s!"{stream.text} stream exhausted"

/-- The faults that stop an assembly run. -/
inductive AssemblyError where
  /-- A fault of a source line. -/
  | atLine (line : Nat) (fault : LineFault)
  /-- A stream line with a word that is no hexadecimal number. -/
  | badRecord (stream : OperandKind) (line : Nat) (token : String)
  /-- A stream line that is not encoded as text. -/
  | notText
  deriving DecidableEq, Repr

/-- What a stream line that is not encoded as text is reported as. -/
def notTextMessage : String := "stream did not contain valid UTF-8"

namespace AssemblyError

/-- What stopped a run, in words. -/
def message : AssemblyError → String
  | .atLine line fault => s!"line {line}: {fault.message}"
  | .badRecord stream line token => s!"{stream.text} line {line}: invalid hex token '{token}'"
  | .notText => notTextMessage

/-- The source line that a fault belongs to. -/
def line? : AssemblyError → Option Nat
  | .atLine line _ => some line
  | _ => none

end AssemblyError

end NearMemory
