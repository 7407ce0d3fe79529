import NeoScript.Optimizer.Config
import NeoScript.Text.Decimal

/-!
# Arguments — what a command line asks for

A command has one operand, the container, and options in any order.  An option takes its value from
the same argument or from the next one.

* `CommandName`, `OptionName` — commands and their options;
* `Given` — the options and operands that were read so far;
* `DumpOptions`, `GraphOptions`, `OptimizeOptions`, `Invocation` — commands with their options;
* `Invocation.parse` — reads a command line, from left to right.
-/

namespace NeoScript

/-! ## Commands and options -/

inductive CommandName where
  | dump
  | graph
  | optimize
  deriving DecidableEq, Repr

inductive OptionName where
  | manifest
  | debugInfo
  | output
  | level
  | config
  | maxRounds
  | lenient
  | assembly
  | emit
  | emitDebug
  | outDir
  | verbose
  | help
  deriving DecidableEq, Repr

inductive OptionKind where
  /-- With a value, once. -/
  | value
  /-- Without a value, once. -/
  | flag
  /-- Without a value, as often as one likes. -/
  | counter
  /-- Asks for help instead of a command. -/
  | help
  deriving DecidableEq, Repr

namespace OptionName

def long : OptionName → String
  | manifest => "manifest"
  | debugInfo => "debug-info"
  | output => "output"
  | level => "level"
  | config => "config"
  | maxRounds => "max-rounds"
  | lenient => "lenient"
  | assembly => "assembly"
  | emit => "emit"
  | emitDebug => "emit-debug"
  | outDir => "out-dir"
  | verbose => "verbose"
  | help => "help"

def short? : OptionName → Option Char
  | output => some 'o'
  | verbose => some 'v'
  | help => some 'h'
  | _ => none

def kind : OptionName → OptionKind
  | lenient | assembly => .flag
  | verbose => .counter
  | help => .help
  | _ => .value

/-- A value that an option takes: a level, a number of rounds or a path. -/
def accepts (name : OptionName) (value : String) : Bool :=
  match name with
  | level => (Level.parse value).toOption.isSome
  | maxRounds => (Text.readWord? value.toList).isSome
  | _ => value != ""

end OptionName

namespace CommandName

def every : List CommandName := [dump, graph, optimize]

def name : CommandName → String
  | dump => "dump"
  | graph => "cfg"
  | optimize => "optimize"

def ofName? (text : String) : Option CommandName :=
  every.find? fun command => command.name == text

/-- The options of every command, which may also stand in front of it. -/
def commonOptions : List OptionName := [.verbose, .help]

def options : CommandName → List OptionName
  | dump => [.manifest, .debugInfo, .output, .lenient]
  | graph => [.manifest, .output]
  | optimize =>
      [.manifest, .debugInfo, .level, .config, .maxRounds, .lenient, .assembly, .emit, .emitDebug,
      .outDir]

end CommandName

/-! ## Reading options -/

/-- What ends the reading of a command line early. -/
inductive UsageFault where
  /-- Someone asks for help. -/
  | helpWanted
  | unknownOption (text : String)
  | unknownCommand (text : String)
  | unexpectedOperand (text : String)
  | unexpectedValue (option : OptionName)
  | missingValue (option : OptionName)
  | refusedValue (option : OptionName) (value : String)
  | repeated (option : OptionName)
  | missingCommand
  | missingOperand
  deriving DecidableEq, Repr

structure Given where
  values : List (OptionName × String)
  flags : List OptionName
  verbosity : Nat
  operand : Option String
  deriving DecidableEq, Repr

namespace Given

def empty : Given := ⟨[], [], 0, none⟩

def value? (g : Given) (name : OptionName) : Option String :=
  g.values.lookup name

def addValue (g : Given) (name : OptionName) (value : String) : Except UsageFault Given :=
  if !name.accepts value then .error (.refusedValue name value)
  else if (g.value? name).isSome then .error (.repeated name)
  else .ok { g with values := (name, value) :: g.values }

def addBare (g : Given) (name : OptionName) : Except UsageFault Given :=
  match name.kind with
  | .value => .error (.missingValue name)
  | .help => .error .helpWanted
  | .counter => .ok { g with verbosity := g.verbosity + 1 }
  | .flag =>
      if g.flags.contains name then .error (.repeated name)
      else .ok { g with flags := name :: g.flags }

/-- Takes the operand; there is one only. -/
def addOperand (g : Given) (text : String) : Except UsageFault Given :=
  if g.operand.isSome then .error (.unexpectedOperand text)
  else if text = "" then .error .missingOperand
  else .ok { g with operand := some text }

def addOperands (g : Given) (texts : List String) : Except UsageFault Given :=
  texts.foldlM addOperand g

end Given

inductive ArgumentShape where
  /-- Two dashes alone: only operands follow. -/
  | separator
  | long (name : String) (value : Option String)
  /-- Short options in a row, at least one. -/
  | short (letters : List Char)
  | operand (text : String)
  deriving DecidableEq, Repr

namespace ArgumentShape

/-- A lone dash is an operand. -/
def ofText (text : String) : ArgumentShape :=
  match text.toList with
  | ['-', '-'] => separator
  | '-' :: '-' :: rest =>
      match Text.splitOnce '=' rest with
      | some (name, value) => long (String.ofList name) (some (String.ofList value))
      | none => long (String.ofList rest) none
  | '-' :: c :: rest => short (c :: rest)
  | _ => operand text

end ArgumentShape

def longOption? (known : List OptionName) (name : String) : Option OptionName :=
  known.find? fun o => o.long == name

def shortOption? (known : List OptionName) (letter : Char) : Option OptionName :=
  known.find? fun o => o.short? == some letter

/-- Reads short options in a row.  The first one with a value takes the rest of the row, with or
without an equals sign in front; if nothing is left, its value is still to come. -/
def readRow (known : List OptionName) :
    List Char → Given → Except UsageFault (Given × Option OptionName)
  | [], g => .ok (g, none)
  | letter :: rest, g =>
      match shortOption? known letter with
      | none => .error (.unknownOption (String.ofList ['-', letter]))
      | some name =>
          if name.kind = .value then
            match rest with
            | [] => .ok (g, some name)
            | '=' :: value => (g.addValue name (String.ofList value)).map fun g => (g, none)
            | value => (g.addValue name (String.ofList value)).map fun g => (g, none)
          else (g.addBare name).bind (readRow known rest)

/-- Reads a long option; a value that is still to come is left to the next argument. -/
def readLong (known : List OptionName) (name : String) (value : Option String) (g : Given) :
    Except UsageFault (Given × Option OptionName) :=
  match longOption? known name, value with
  | none, _ => .error (.unknownOption ("--" ++ name))
  | some option, some text =>
      if option.kind = .value then (g.addValue option text).map fun g => (g, none)
      else .error (.unexpectedValue option)
  | some option, none =>
      if option.kind = .value then .ok (g, some option)
      else (g.addBare option).map fun g => (g, none)

/-- Reads the arguments of a command.  `pending` is the option that waits for a value. -/
def readArguments (known : List OptionName) :
    List String → (pending : Option OptionName) → Given → Except UsageFault Given
  | [], none, g => .ok g
  | [], some name, _ => .error (.missingValue name)
  | text :: rest, some name, g =>
      match ArgumentShape.ofText text with
      | .operand value => (g.addValue name value).bind (readArguments known rest none)
      | _ => .error (.missingValue name)
  | text :: rest, none, g =>
      match ArgumentShape.ofText text with
      | .separator => g.addOperands rest
      | .operand value => (g.addOperand value).bind (readArguments known rest none)
      | .long name value => do
          let (g, pending) ← readLong known name value g
          readArguments known rest pending g
      | .short letters => do
          let (g, pending) ← readRow known letters g
          readArguments known rest pending g

/-! ## Commands with their options -/

structure DumpOptions where
  nef : String
  manifest : Option String
  debugInfo : Option String
  output : Option String
  lenient : Bool
  deriving DecidableEq, Repr

structure GraphOptions where
  nef : String
  manifest : Option String
  output : Option String
  deriving DecidableEq, Repr

structure OptimizeOptions where
  nef : String
  manifest : Option String
  debugInfo : Option String
  level : Option Level
  config : Option String
  maxRounds : Option Nat
  lenient : Bool
  assembly : Bool
  emit : Option String
  emitDebug : Option String
  outDir : Option String
  deriving DecidableEq, Repr

inductive Invocation where
  | dump (options : DumpOptions)
  | graph (options : GraphOptions)
  | optimize (options : OptimizeOptions)
  deriving DecidableEq, Repr

namespace Invocation

def ofGiven (command : CommandName) (g : Given) : Except UsageFault Invocation :=
  match g.operand with
  | none => .error .missingOperand
  | some nef => .ok <|
      match command with
      | .dump => dump {
          nef
          manifest := g.value? .manifest
          debugInfo := g.value? .debugInfo
          output := g.value? .output
          lenient := g.flags.contains .lenient }
      | .graph => graph {
          nef
          manifest := g.value? .manifest
          output := g.value? .output }
      | .optimize => optimize {
          nef
          manifest := g.value? .manifest
          debugInfo := g.value? .debugInfo
          level := (g.value? .level).bind fun text => (Level.parse text).toOption
          config := g.value? .config
          maxRounds := (g.value? .maxRounds).bind fun text => Text.readWord? text.toList
          lenient := g.flags.contains .lenient
          assembly := g.flags.contains .assembly
          emit := g.value? .emit
          emitDebug := g.value? .emitDebug
          outDir := g.value? .outDir }

/-- Reads a request for help: on everything, on one command, or on help itself. -/
def parseHelp : List String → UsageFault
  | [] => .helpWanted
  | [name] =>
      if name = "help" ∨ (CommandName.ofName? name).isSome then .helpWanted
      else .unknownCommand name
  | name :: _ => .unknownCommand name

/-- Reads options in front of the command, then the command and its arguments. -/
def parseFrom : List String → Given → Except UsageFault Invocation
  | [], _ => .error .missingCommand
  | text :: rest, g =>
      match ArgumentShape.ofText text with
      | .separator => .error .missingCommand
      | .operand "help" => .error (parseHelp rest)
      | .operand name =>
          match CommandName.ofName? name with
          | none => .error (.unknownCommand name)
          | some command => do
              let known := command.options ++ CommandName.commonOptions
              ofGiven command (← readArguments known rest none g)
      | .long name value => do
          let (g, _) ← readLong CommandName.commonOptions name value g
          parseFrom rest g
      | .short letters => do
          let (g, _) ← readRow CommandName.commonOptions letters g
          parseFrom rest g

def parse (arguments : List String) : Except UsageFault Invocation :=
  parseFrom arguments .empty

end Invocation

end NeoScript
