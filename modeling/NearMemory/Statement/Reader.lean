import NearMemory.Fault
import NearMemory.Statement
import NearMemory.Statement.Operand

/-!
# Reading statements

A line is scanned, and its tokens are read from left to right. A reader takes tokens from the front
of the line and either gives a value or the fault of the line.

## Main definitions

* `LineReader` — readers of the tokens of a line
* `Statement.reader` — the reader of a whole statement
* `Statement.ofLine` — the statement of a line, if the line is not empty
-/

namespace NearMemory

/-- A reader of the tokens of a line. -/
abbrev LineReader := StateT (List Token) (Except LineFault)

namespace LineReader

/-- Give up with a grammar fault. -/
def fault {α : Type} (f : GrammarFault) : LineReader α := throw (.grammar f)

/-- The value of an operand that a word names, or the fault that it names nothing. -/
def resolved {α : Type} (word : String) (value : Option α) : LineReader α :=
  match value with
  | some v => pure v
  | none => throw (.unresolved word)

/-- Whether tokens are left. -/
def hasMore : LineReader Bool := do
  return !(← get).isEmpty

/-- The next token, a word in the given role. -/
def word (role : Role) : LineReader String := do
  match ← get with
  | .word w :: rest =>
    set rest
    return w
  | other :: _ => fault (.expected role other.text)
  | [] => fault (.missing role)

/-- The next token, a number in the given role. -/
def number (role : Role) : LineReader UInt64 := do
  match ← get with
  | .number n :: rest =>
    set rest
    return n
  | other :: _ => fault (.expected role other.text)
  | [] => fault (.missing role)

/-- The next token, a number whose lowest 32 bits count. -/
def field (role : Role) : LineReader UInt32 := do
  return (← number role).toUInt32

/-- The next token, any storage with an optional index. -/
def storage : LineReader (Storage × Option UInt32) := do
  let w ← word .storage
  resolved w (Storage.resolve? w.toList)

/-- The next token, a register. -/
def register : LineReader Storage := do
  let w ← word .register
  resolved w <| match Storage.resolve? w.toList with
    | some (s, none) => if s.isVwr then none else some s
    | _ => none

/-- The next token, a very wide register without an index. -/
def vwr : LineReader Nat := do
  let w ← word .vwr
  resolved w <| match Storage.resolve? w.toList with
    | some (.vwr v, none) => some v
    | _ => none

/-- The next token, an entry of the constant store. -/
def constant : LineReader UInt32 := do
  let w ← word .constant
  resolved w (resolveConstant? w.toList)

/-- The next token, an address or the mark of the address stream. -/
def address : LineReader AddressOperand := do
  match ← get with
  | .number n :: rest =>
    set rest
    return .literal n
  | .word w :: rest =>
    if w = "AddrFile" then
      set rest
      return .stream
    else throw (.unresolved w)
  | [] => fault (.missing .address)

/-- The numbers at the front of a line, and the tokens after them. -/
def leadingNumbers : List Token → List UInt64 × List Token
  | .number n :: rest =>
    let (ns, after) := leadingNumbers rest
    (n :: ns, after)
  | rest => ([], rest)

/-- The next tokens, at least one number, or the mark of the data stream. -/
def data : LineReader DataOperand := do
  match ← get with
  | .number n :: rest =>
    let (ns, after) := leadingNumbers rest
    set after
    return .literal (n :: ns)
  | .word w :: rest =>
    if w = "DataFile" then
      set rest
      return .stream
    else throw (.unresolved w)
  | [] => fault (.missing .data)

end LineReader

namespace Statement

open LineReader

/-- An operation without operands of a memory access. -/
def ofOperation (op : Operation) : Statement := .instruction { op }

/-- The operands of a register-file write. -/
def writeFileReader : LineReader Statement := do
  let w ← word .registerFile
  let (stem, rest) := splitStem w.toList
  let file ← resolved w (RegisterFile.ofTag? (String.ofList stem))
  let index ← resolved w (Numeral.read? 10 UInt64.size rest)
  if file = .instrBuffer then
    return .writeFile file index none
  else if ← hasMore then
    return .writeFile file index (some (← data))
  else
    fault (.needsValue w)

/-- The operands of a loop register write. -/
def writeLoopReader : LineReader Statement := do
  let start ← number .loopStart
  let finish ← number .loopFinish
  let iterations ← number .loopIterations
  return .writeLoop ⟨start.toNat, finish.toNat, iterations.toNat⟩

/-- The operands of an empty operation. -/
def nopReader : LineReader Statement := do
  if ← hasMore then
    let w ← word .exitMarker
    if w = "EXIT" then return ofOperation .exit else fault (.notExit w)
  else
    return ofOperation .nop

/-- The operands of a word move. -/
def wordMoveReader : LineReader Statement := do
  let (dst, dstIndex) ← storage
  let (src, srcIndex) ← storage
  let index ← match dst.isVwr, src.isVwr with
    | true, false => pure dstIndex
    | false, true => pure srcIndex
    | _, _ => fault .moveSides
  let imm ← match index with
    | some imm => pure imm
    | none => fault .moveIndex
  if dst = .r1r2 ∨ src = .r1r2 then
    fault .movePair
  else
    return ofOperation (.move ⟨.vmv, imm, dst, src⟩)

/-- The operands of a register move. The shift is zero unless it is given. -/
def registerMoveReader : LineReader Statement := do
  let dst ← register
  let src ← register
  let shift ← if ← hasMore then field .shift else pure 0
  return ofOperation (.moveRegister dst src shift)

/-- The operands of a pack. -/
def packReader : LineReader Statement := do
  let w ← word .step
  let step ← resolved w (WidthStep.resolve? w.toList)
  let offset ← field .packOffset
  let (dst, index) ← storage
  if dst.isVwr then
    return ofOperation (.pack ⟨step, offset, index.getD 0, dst⟩)
  else
    fault .packTarget

/-- The operands of an arithmetic operation. -/
def arithmeticReader : LineReader Statement := do
  let name ← word .arithmetic
  let opcode ← match Opcode.ofArithmeticName? name with
    | some opcode => pure opcode
    | none => throw (.unknownMnemonic ("VFUX " ++ name))
  let w ← word .width
  let width ← resolved w (resolveWidth? w.toList)
  let (dst, dstIndex) ← storage
  let (src, srcIndex) ← storage
  let csd ← match opcode with
    | .mul => constant
    | .shl | .shr => field .shiftAmount
    | _ => pure 0
  return ofOperation (.arithmetic ⟨opcode, width, csd, dstIndex.getD 0, srcIndex.getD 0, dst, src⟩)

/-- The operands of a line by its mnemonic. -/
def operandReader : Mnemonic → LineReader Statement
  | .wrf => writeFileReader
  | .loop => writeLoopReader
  | .exec => return .execute
  | .nop => nopReader
  | .rlb => do
    let v ← vwr
    return .instruction { op := .readRow v, address := some (← address) }
  | .wlb => do
    let v ← vwr
    return .instruction { op := .writeRow v, address := some (← address) }
  | .glmv => do
    let k ← constant
    let target ← address
    return .instruction { op := .loadConstant k, address := some target, data := some (← data) }
  | .vmv => wordMoveReader
  | .rmv => registerMoveReader
  | .perm => do
    let v ← vwr
    return ofOperation (.permute v (← field .pattern))
  | .pack => packReader
  | .vfux => arithmeticReader

/-- The statement of a whole line: a mnemonic and exactly its operands. -/
def reader : LineReader Statement := do
  let head ← word .mnemonic
  match Mnemonic.ofWord? head with
  | none => throw (.unknownMnemonic head)
  | some mnemonic =>
    let statement ← operandReader mnemonic
    let left ← get
    if left.isEmpty then return statement else fault (.extraOperands head left.length)

/-- The statement of a line of tokens. -/
def ofTokens (tokens : List Token) : Except LineFault (Option Statement) :=
  if tokens.isEmpty then .ok none else (reader.run tokens).map (some ·.1)

/-- The statement of the line with the given number, if the line is not empty. -/
def ofLine (line : Nat) (text : String) : Except AssemblyError (Option Statement) :=
  match Token.scan text with
  | .error e => .error (.atLine line (.grammar (.unexpectedText e.text e.column)))
  | .ok tokens =>
    match ofTokens tokens with
    | .error fault => .error (.atLine line fault)
    | .ok statement => .ok statement

end Statement

end NearMemory
