import NearMemory.Text.Numeral

/-!
# Arguments of the command line

The program has two commands. Options are written long (`--name value`, `--name=value`) or short
(`-n value`, `-nvalue`, `-n=value`), short ones without a value may share one dash, and `--` ends
the options. Each option may be given once, before or after the command if it is common to both.

## Main definitions

* `CliOption`, `CliLevel` — the options, and where they are accepted
* `CliGiven` — what is given so far
* `Command`, `Invocation` — what the program is asked to do
* `Invocation.ofArguments` — the invocation that arguments stand for
* `Halt` — why there is none
-/

namespace NearMemory

/-- The options of the command line. -/
inductive CliOption where
  /-- Hardware configuration. -/
  | config
  /-- Remarks in the program and details in the output. -/
  | verbose
  /-- Help text. -/
  | help
  /-- Version text. -/
  | version
  /-- Subword width. -/
  | width
  /-- Digits of a constant. -/
  | digits
  /-- Output prefix. -/
  | out
  /-- Summary file. -/
  | summary
  /-- Data stream. -/
  | data
  /-- Address stream. -/
  | addresses
  /-- Trace file. -/
  | trace
  deriving DecidableEq, Repr

namespace CliOption

/-- The long name of an option. -/
def long : CliOption → String
  | .config => "config"
  | .verbose => "verbose"
  | .help => "help"
  | .version => "version"
  | .width => "subword-width"
  | .digits => "digit-len"
  | .out => "out"
  | .summary => "summary"
  | .data => "data"
  | .addresses => "addr"
  | .trace => "trace"

/-- The short name of an option. -/
def short? : CliOption → Option Char
  | .config => some 'c'
  | .verbose => some 'v'
  | .help => some 'h'
  | .version => some 'V'
  | .width => some 'w'
  | .digits => some 'd'
  | .out => some 'o'
  | .summary => some 's'
  | .data => none
  | .addresses => none
  | .trace => some 't'

/-- Whether an option has a value. -/
def takesValue : CliOption → Bool
  | .verbose | .help | .version => false
  | _ => true

/-- Whether an option ends the reading of arguments. -/
def isFinal : CliOption → Bool
  | .help | .version => true
  | _ => false

end CliOption

/-- Where arguments are read: before the command, or after one of the commands. -/
inductive CliLevel where
  /-- Before the command. -/
  | top
  /-- After the command that schedules. -/
  | schedule
  /-- After the command that assembles. -/
  | assemble
  deriving DecidableEq, Repr

/-- The options that are accepted at a level. -/
def CliLevel.options : CliLevel → List CliOption
  | .top => [.config, .verbose, .help, .version]
  | .schedule => [.width, .digits, .out, .summary, .config, .verbose, .help]
  | .assemble => [.data, .addresses, .trace, .config, .verbose, .help]

/-- How arguments can be wrong. -/
inductive UsageError where
  /-- An option that is not accepted. -/
  | unknownOption (name : String)
  /-- A value for an option that has none. -/
  | unexpectedValue (option : CliOption)
  /-- An option without its value. -/
  | missingValue (option : CliOption)
  /-- An option that is given twice. -/
  | repeated (option : CliOption)
  /-- A value that an option does not accept. -/
  | invalidValue (option : CliOption) (value : String)
  /-- A word that is not accepted in its place. -/
  | invalidWord (word : String)
  /-- A word too many. -/
  | unexpectedWord (word : String)
  /-- Too few words. -/
  | missingWord
  /-- No command. -/
  | missingCommand
  /-- A word that names no command. -/
  | unknownCommand (word : String)
  deriving DecidableEq, Repr

/-- What is wrong with the arguments, in words. -/
def UsageError.message : UsageError → String
  | .unknownOption name => s!"unexpected argument '{name}'"
  | .unexpectedValue option => s!"unexpected value for '--{option.long}'"
  | .missingValue option => s!"a value is required for '--{option.long}'"
  | .repeated option => s!"'--{option.long}' cannot be used multiple times"
  | .invalidValue option value => s!"invalid value '{value}' for '--{option.long}'"
  | .invalidWord word => s!"invalid value '{word}'"
  | .unexpectedWord word => s!"unexpected argument '{word}'"
  | .missingWord => "required arguments were not provided"
  | .missingCommand => "a command is required"
  | .unknownCommand word => s!"unrecognized command '{word}'"

/-- Why arguments stand for no invocation. -/
inductive Halt where
  /-- They are wrong. -/
  | usage (error : UsageError)
  /-- They ask for the help text. -/
  | help
  /-- They ask for the version text. -/
  | version
  deriving DecidableEq, Repr

/-! ### What is given -/

/-- What is given at a level so far. -/
structure CliGiven where
  /-- Path of the hardware configuration. -/
  config : Option String := none
  /-- Remarks and details. -/
  verbose : Bool := false
  /-- Subword width. -/
  width : Option Nat := none
  /-- Digits of a constant. -/
  digits : Option Nat := none
  /-- Output prefix. -/
  out : Option String := none
  /-- Path of the summary. -/
  summary : Option String := none
  /-- Path of the data stream. -/
  data : Option String := none
  /-- Path of the address stream. -/
  addresses : Option String := none
  /-- Path of the trace. -/
  trace : Option String := none
  /-- Words that are numbers. -/
  numbers : List Nat := []
  /-- Words that are paths. -/
  paths : List String := []
  deriving DecidableEq, Repr

/-- A number below `2 ^ 32`. A plus sign may lead it, and a zero may also be negative. -/
def readSmall? (s : String) : Option Nat :=
  match s.toList with
  | '-' :: cs =>
    match Numeral.value? 10 cs with
    | some 0 => some 0
    | _ => none
  | cs => Numeral.read? 10 UInt32.size cs

namespace CliGiven

/-- Keep a value that is not given yet. -/
def once {α : Type} (option : CliOption) (old : Option α) (value : String)
    (read? : String → Option α) : Except Halt (Option α) :=
  if old.isSome then .error (.usage (.repeated option))
  else
    match read? value with
    | some a => .ok (some a)
    | none => .error (.usage (.invalidValue option value))

/-- A path is any text but the empty one. -/
def path? (value : String) : Option String := if value.isEmpty then none else some value

/-- Add an option with a value, which is ignored if the option has none. -/
def add (g : CliGiven) (option : CliOption) (value : String) : Except Halt CliGiven :=
  match option with
  | .config => return { g with config := ← once option g.config value path? }
  | .verbose =>
    if g.verbose then .error (.usage (.repeated option)) else .ok { g with verbose := true }
  | .help => .error .help
  | .version => .error .version
  | .width => return { g with width := ← once option g.width value readSmall? }
  | .digits => return { g with digits := ← once option g.digits value readSmall? }
  | .out => return { g with out := ← once option g.out value path? }
  | .summary => return { g with summary := ← once option g.summary value path? }
  | .data => return { g with data := ← once option g.data value path? }
  | .addresses => return { g with addresses := ← once option g.addresses value path? }
  | .trace => return { g with trace := ← once option g.trace value path? }

/-- Add options in turn. -/
def addAll (g : CliGiven) : List (CliOption × String) → Except Halt CliGiven
  | [] => .ok g
  | (option, value) :: rest => do (← g.add option value).addAll rest

/-- Add a word: one of three dimensions, or the path of a source. -/
def addWord (g : CliGiven) (level : CliLevel) (word : String) : Except Halt CliGiven :=
  match level with
  | .top => .error (.usage (.unknownCommand word))
  | .schedule =>
    if 3 ≤ g.numbers.length then .error (.usage (.unexpectedWord word))
    else
      match Numeral.read? 10 UInt64.size word.toList with
      | some n => .ok { g with numbers := g.numbers ++ [n] }
      | none => .error (.usage (.invalidWord word))
  | .assemble =>
    if 1 ≤ g.paths.length then .error (.usage (.unexpectedWord word))
    else
      match path? word with
      | some path => .ok { g with paths := g.paths ++ [path] }
      | none => .error (.usage (.invalidWord word))

/-- Add words in turn. -/
def addWords (g : CliGiven) (level : CliLevel) : List String → Except Halt CliGiven
  | [] => .ok g
  | word :: rest => do (← g.addWord level word).addWords level rest

end CliGiven

/-! ### Reading -/

/-- What an argument with dashes stands for: options with their values, and an option whose value is
the next argument. -/
structure CliFlags where
  /-- Options with their values. -/
  complete : List (CliOption × String) := []
  /-- The option that waits for its value. -/
  pending : Option CliOption := none
  deriving DecidableEq, Repr

/-- The options of an argument with two dashes. -/
def longFlags (level : CliLevel) (body : List Char) : Except Halt CliFlags :=
  let name := body.takeWhile (· != '=')
  match level.options.find? (·.long == String.ofList name), body.dropWhile (· != '=') with
  | none, _ => .error (.usage (.unknownOption ("--" ++ String.ofList name)))
  | some option, [] =>
    if option.takesValue then .ok { pending := some option }
    else .ok { complete := [(option, "")] }
  | some option, _ :: value =>
    if option.takesValue then .ok { complete := [(option, String.ofList value)] }
    else .error (.usage (.unexpectedValue option))

/-- The options of an argument with one dash. -/
def shortFlags (level : CliLevel) : List Char → Except Halt CliFlags
  | [] => .ok {}
  | c :: rest =>
    match level.options.find? (·.short? == some c) with
    | none => .error (.usage (.unknownOption ("-" ++ String.singleton c)))
    | some option =>
      if option.takesValue then
        match rest with
        | [] => .ok { pending := some option }
        | '=' :: value => .ok { complete := [(option, String.ofList value)] }
        | value => .ok { complete := [(option, String.ofList value)] }
      else if option.isFinal then .ok { complete := [(option, "")] }
      else do
        let flags ← shortFlags level rest
        return { flags with complete := (option, "") :: flags.complete }

/-- What an argument is. -/
inductive CliArgument where
  /-- The end of the options. -/
  | endOfOptions
  /-- Options. -/
  | flags (flags : CliFlags)
  /-- A word. -/
  | word
  deriving DecidableEq, Repr

/-- What an argument is. A single dash is a word. -/
def CliArgument.of (level : CliLevel) (argument : String) : Except Halt CliArgument :=
  match argument.toList with
  | ['-', '-'] => .ok .endOfOptions
  | '-' :: '-' :: body => (longFlags level body).map .flags
  | '-' :: c :: rest => (shortFlags level (c :: rest)).map .flags
  | _ => .ok .word

/-- Whether an argument can be the value of the option before it. -/
def isValue (argument : String) : Bool :=
  match argument.toList with
  | '-' :: _ :: _ => false
  | _ => true

/-- The command of a word. -/
def CliLevel.ofWord (word : String) : Except Halt CliLevel :=
  match word with
  | "schedule" => .ok .schedule
  | "assemble" => .ok .assemble
  | "help" => .error .help
  | _ => .error (.usage (.unknownCommand word))

/-- Read the arguments of a level. Before the command, its word ends them, and the command is given
back with the arguments after it. -/
def readArguments (level : CliLevel) :
    CliGiven → List String → Except Halt (CliGiven × Option (CliLevel × List String))
  | g, [] => .ok (g, none)
  | g, argument :: rest =>
    match CliArgument.of level argument with
    | .error e => .error e
    | .ok .endOfOptions => do return (← g.addWords level rest, none)
    | .ok .word =>
      if level = .top then do return (g, some (← CliLevel.ofWord argument, rest))
      else
        match g.addWord level argument with
        | .error e => .error e
        | .ok g => readArguments level g rest
    | .ok (.flags flags) =>
      match g.addAll flags.complete with
      | .error e => .error e
      | .ok g =>
        match flags.pending with
        | none => readArguments level g rest
        | some option =>
          match rest with
          | [] => .error (.usage (.missingValue option))
          | value :: rest =>
            if isValue value then
              match g.add option value with
              | .error e => .error e
              | .ok g => readArguments level g rest
            else .error (.usage (.missingValue option))

/-- What the program is asked to do. -/
inductive Command where
  /-- Schedule a matrix product, and write the program and its streams. -/
  | schedule (m n q width digits : Nat) (out : String) (summary : Option String)
  /-- Assemble a program into a trace. -/
  | assemble (source : String) (data addresses : Option String) (trace : String)
  deriving DecidableEq, Repr

/-- A command with the options common to all. -/
structure Invocation where
  /-- Path of the hardware configuration. -/
  config : Option String
  /-- Remarks and details. -/
  verbose : Bool
  /-- The command. -/
  command : Command
  deriving DecidableEq, Repr

/-- The command of what is given after its word. -/
def CliGiven.command (g : CliGiven) : CliLevel → Except Halt Command
  | .schedule =>
    match g.numbers with
    | [m, n, q] =>
      .ok (.schedule m n q (g.width.getD 8) (g.digits.getD 8) (g.out.getD "gemm") g.summary)
    | _ => .error (.usage .missingWord)
  | .assemble =>
    match g.paths with
    | [source] => .ok (.assemble source g.data g.addresses (g.trace.getD "out.trace"))
    | _ => .error (.usage .missingWord)
  | .top => .error (.usage .missingCommand)

/-- The invocation that arguments stand for. Of an option that is given before and after the
command, the latter counts. -/
def Invocation.ofArguments (arguments : List String) : Except Halt Invocation := do
  let (common, command) ← readArguments .top {} arguments
  let some (level, rest) := command | .error (.usage .missingCommand)
  let (g, _) ← readArguments level {} rest
  return {
    config := g.config <|> common.config
    verbose := g.verbose || common.verbose
    command := ← g.command level }

end NearMemory
