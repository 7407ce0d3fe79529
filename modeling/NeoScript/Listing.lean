import NeoScript.DebugInfo.Basic
import NeoScript.Interop
import NeoScript.Text.Lines
import NeoScript.Text.Path
import NeoScript.Text.Upper

/-!
# Listing — scripts as text

An instruction is a line with its address, its mnemonic, its operand and a comment.  Lines that
begin with a number sign stand in front of it and tell where methods begin and end and from which
source text the instruction comes.

* `comment?`, `instructionLine` — the line of an instruction;
* `listed` — the instructions of a script with the return at its end;
* `Sources`, `codeLines` — source texts and the lines that quote them;
* `Listing.lines`, `Listing.render` — the whole listing;
* `DebugInfo.methodRange?`, `addressesInMethod` — where an operation occurs in a method.
-/

namespace NeoScript

open Std (TreeMap)

/-! ## Instructions -/

def positionText (pc : Nat) (offset : Int) : String :=
  let target := (pc : Int) + offset
  s!"pos: {target} (offset: {offset})"

/-- Data as text, with line ends in quotes of their own. -/
def dataText (data : List UInt8) : String :=
  let shown (c : Char) : List Char :=
    if c = '\r' then "\"\\r\"".toList else if c = '\n' then "\"\\n\"".toList else [c]
  String.ofList ((Utf8.decodeLossy data).toList.flatMap shown)

def dataComment (data : List UInt8) : String :=
  let text := "as text: \"" ++ dataText data ++ "\""
  if data.length = 20 then "as script hash: " ++ Hash160.renderBytes data ++ ", " ++ text else text

def tokenComment (tokens : List Token) (registry : Registry) (index : Nat) : String :=
  match tokens[index]? with
  | some token =>
      (registry.contractName? token.hash).getD token.hash.render ++ "." ++ token.method ++
        " token call"
  | none => s!"Unknown token {index}"

def handlersComment (pc : Nat) (catchOffset finallyOffset : Int) : String :=
  (if catchOffset = 0 then "no catch block, "
   else "catch " ++ positionText pc catchOffset ++ ", ") ++
    (if finallyOffset = 0 then "no finally block" else "finally " ++ positionText pc finallyOffset)

def syscallComment (registry : Registry) (hash : Nat) : String :=
  match registry.syscallName? hash with
  | some name => name ++ " SysCall"
  | none => s!"Unknown SysCall {hash}"

def typeComment (byte : Nat) : String :=
  match ItemType.ofByte? (UInt8.ofNat byte) with
  | some type => type.name ++ " type"
  | none => s!"{byte} type"

/-- The comment of an instruction; none if its operation has none or its operand is too short. -/
def comment? (tokens : List Token) (registry : Registry) (ins : Instruction) : Option String :=
  match ins.op with
  | .pushInt _ => if ins.operand.isEmpty then none else ins.pushedInteger?.map toString
  | .pushMinusOne => if ins.operand.isEmpty then none else ins.pushedInteger?.map toString
  | .pushSmall _ => if ins.operand.isEmpty then none else ins.pushedInteger?.map toString
  | .pushPointer => ins.jumpOffset?.map fun offset => toString ((ins.pc : Int) + offset)
  | .pushData _ => some (dataComment ins.operand)
  | .jump _ _ => ins.jumpOffset?.map (positionText ins.pc)
  | .call _ => ins.jumpOffset?.map (positionText ins.pc)
  | .endTry _ => ins.jumpOffset?.map (positionText ins.pc)
  | .callToken => (ins.unsignedAt? 0 2).map (tokenComment tokens registry)
  | .enterTry _ =>
      ins.handlerOffsets?.map fun (catchOffset, finallyOffset) =>
        handlersComment ins.pc catchOffset finallyOffset
  | .sysCall => (ins.unsignedAt? 0 4).map (syscallComment registry)
  | .initStatics => ins.byte0?.map fun n => s!"{n} static variables"
  | .initSlots => do
      let locals ← ins.byte0?
      let arguments ← ins.byte1?
      return s!"{locals} local variables, {arguments} arguments"
  | .newArrayOf => ins.byte0?.map typeComment
  | .isType => ins.byte0?.map typeComment
  | .convert => ins.byte0?.map typeComment
  | op => if op.isIndexedSlotAccess then ins.byte0?.map fun n => s!"Slot index {n}" else none

/-- The line of an instruction, with at least `width` digits for its address. -/
def instructionLine (width : Nat) (tokens : List Token) (registry : Registry) (ins : Instruction) :
    String :=
  let operand := if ins.operand.isEmpty then "" else " " ++ Bytes.toDashedHex ins.operand
  let comment := match comment? tokens registry ins with
    | some text => " # " ++ text
    | none => ""
  Text.padded width ins.pc ++ " " ++ ins.op.mnemonic ++ operand ++ comment

/-- The instructions of a script; a script that does not end with a return returns at its end. -/
def listed (code : Code) : Except Error (List Instruction) := do
  let script ← Script.decode code
  let instructions := script.instructions.toList
  if (instructions.getLast?.map (·.op)) = some .ret then return instructions
  else return instructions ++ [⟨code.size, .ret, []⟩]

/-! ## Source texts -/

/-- The path of a document, below the document root if there is one. -/
def DebugInfo.documentPath? (info : DebugInfo) (document : Nat) : Option String :=
  (info.documents[document]?).map fun path =>
    match info.documentRoot with
    | some root => Path.join root path
    | none => path

/-- Source texts by path, the latest first. -/
structure Sources where
  documents : List (List PathPart × List String)
  deriving DecidableEq, Repr

namespace Sources

def empty : Sources := ⟨[]⟩

def insert (s : Sources) (path text : String) : Sources :=
  ⟨(Path.parts path, Text.lines text) :: s.documents⟩

def lines? (s : Sources) (path : String) : Option (List String) :=
  s.documents.lookup (Path.parts path)

end Sources

/-- A line that quotes a source text, or only names it. -/
def codeLine (file : String) (number : Nat) : Option String → String
  | some text => "# Code " ++ file ++ s!" line {number}: \"" ++ text ++ "\""
  | none => "# Code " ++ file ++ s!" line {number}"

/-- The line of a source text; lines count from one. -/
def sourceLine? (lines : Option (List String)) (number : Nat) : Option (List Char) :=
  match number, lines with
  | n + 1, some lines => (lines[n]?).map String.toList
  | _, _ => none

/-- The part of a line that belongs to a point of several lines, without blanks around it. -/
def partOfLine (p : SequencePoint) (number : Nat) (line : List Char) : List Char :=
  Text.trim <|
    if number = p.startLine then Text.columns line p.startColumn none
    else if number = p.endLine then Text.columns line 1 (some p.endColumn)
    else line

def codeLines (info : DebugInfo) (sources : Sources) (p : SequencePoint) : List String :=
  let path := info.documentPath? p.document
  let file := (path.bind Path.fileName?).getD s!"document {p.document}"
  let lines := path.bind sources.lines?
  if p.startLine = p.endLine then
    let text := (sourceLine? lines p.startLine).map fun line =>
      String.ofList (Text.columns line p.startColumn (some p.endColumn))
    [codeLine file p.startLine text]
  else
    (List.range' p.startLine (p.endLine + 1 - p.startLine)).map fun number =>
      codeLine file number
        ((sourceLine? lines number).map fun line => String.ofList (partOfLine p number line))

/-! ## Listings -/

/-- What is told in front of instructions, by address. -/
structure Listing where
  starts : TreeMap Nat String
  ends : TreeMap Nat String
  points : TreeMap Nat (List SequencePoint)

namespace Listing

def empty : Listing := ⟨∅, ∅, ∅⟩

/-- Adds a sequence point behind those of the same address. -/
def addPoint (l : Listing) (p : SequencePoint) : Listing :=
  let add (known : Option (List SequencePoint)) : Option (List SequencePoint) :=
    some (known.getD [] ++ [p])
  { l with points := l.points.alter p.address add }

/-- Adds a method of debug information; the first method of an address counts. -/
def addDebugMethod (l : Listing) (m : DebugMethod) : Listing :=
  m.points.foldl addPoint
    { l with
      starts := l.starts.insertIfNew m.range.first m.id
      ends := l.ends.insertIfNew m.range.last m.id }

def addMethod (l : Listing) (m : MethodEntry) : Listing :=
  { l with starts := l.starts.insertIfNew m.offset m.name }

/-- What debug information and a manifest tell; the former comes first. -/
def ofCompanions (debug : Option DebugInfo) (manifest : Option Manifest) : Listing :=
  let l := match debug with
    | some info => info.methods.foldl addDebugMethod empty
    | none => empty
  match manifest with
  | some m => m.abi.methods.foldl addMethod l
  | none => l

def annotations (l : Listing) (debug : Option DebugInfo) (sources : Sources) (pc : Nat) :
    List String :=
  let start := (l.starts[pc]?.map fun id => "# Method Start " ++ id).toList
  let finish := (l.ends[pc]?.map fun id => "# Method End " ++ id).toList
  let code := match debug, l.points[pc]? with
    | some info, some points => points.flatMap (codeLines info sources)
    | _, _ => []
  start ++ finish ++ code

/-- The lines of a listing.  The return at the end has annotations but no line of its own. -/
def lines (nef : Nef) (debug : Option DebugInfo) (manifest : Option Manifest) (registry : Registry)
    (sources : Sources) : Except Error (List String) := do
  let instructions ← listed nef.script
  let width := match instructions.getLast? with
    | some last => (Nat.toDigits 10 last.pc).length
    | none => 1
  let l := ofCompanions debug manifest
  return instructions.flatMap fun ins =>
    l.annotations debug sources ins.pc ++
      if ins.pc < nef.script.size then [instructionLine width nef.tokens registry ins] else []

def render (nef : Nef) (debug : Option DebugInfo) (manifest : Option Manifest) (registry : Registry)
    (sources : Sources) : Except Error String := do
  return String.join ((← lines nef debug manifest registry sources).map (· ++ "\n"))

end Listing

/-! ## Methods -/

/-- The range of the last method of a name; the name is capitalized first. -/
def DebugInfo.methodRange? (info : DebugInfo) (name : String) : Option AddressRange :=
  let wanted := String.ofList (Text.capitalize name.toList)
  (info.methods.reverse.find? fun m => m.shortName == wanted).map (·.range)

def addressesInMethod (nef : Nef) (info : DebugInfo) (name : String) (op : Opcode) :
    Except Error (List Nat) :=
  match info.methodRange? name with
  | none => .ok []
  | some range => do
      let instructions ← listed nef.script
      return (instructions.filter fun ins =>
        ins.op = op && range.first ≤ ins.pc && ins.pc ≤ range.last).map (·.pc)

end NeoScript
