import NeoScript.Text.Decimal

/-!
# Address — method ranges and sequence points as text

Debug information names addresses inside short texts.  This file defines:

* `AddressRange`, written `start-end`;
* `SequencePoint`, written `address[document]line:column-line:column`;
* `AddressFault`, what is wrong with a text that spells neither.

Reading cuts a text at the first occurrence of each mark and only then reads the numbers, so a text
without its marks is malformed whatever its numbers are.
-/

namespace NeoScript

/-- The addresses of a method, both ends included. -/
structure AddressRange where
  first : Nat
  last : Nat
  deriving DecidableEq, Repr

/-- A script address and the source span that it comes from. -/
structure SequencePoint where
  address : Nat
  document : Nat
  startLine : Nat
  startColumn : Nat
  endLine : Nat
  endColumn : Nat
  deriving DecidableEq, Repr

inductive AddressFault where
  | noDash (text : String)
  | malformedPoint (text : String)
  | notANumber (part whole : String)
  deriving DecidableEq, Repr

namespace AddressFault

def message : AddressFault → String
  | noDash text => s!"range '{text}' has no '-'"
  | malformedPoint text => s!"malformed sequence point '{text}'"
  | notANumber part whole => s!"'{part}' is not a number in '{whole}'"

end AddressFault

/-- A number inside an address text; the blanks around it do not count. -/
def readAddressNumber (part : List Char) (whole : String) : Except AddressFault Nat :=
  match Text.readWord? (Text.trim part) with
  | some n => .ok n
  | none => .error (.notANumber (String.ofList part) whole)

namespace AddressRange

def render (r : AddressRange) : String :=
  s!"{r.first}-{r.last}"

def parse (text : String) : Except AddressFault AddressRange :=
  match Text.splitOnce '-' text.toList with
  | none => .error (.noDash text)
  | some (first, last) => do
      let first ← readAddressNumber first text
      let last ← readAddressNumber last text
      return ⟨first, last⟩

end AddressRange

namespace SequencePoint

def render (p : SequencePoint) : String :=
  s!"{p.address}[{p.document}]{p.startLine}:{p.startColumn}-{p.endLine}:{p.endColumn}"

/-- The six number texts of a sequence point, if all marks are there. -/
def cut? (cs : List Char) :
    Option (List Char × List Char × List Char × List Char × List Char × List Char) := do
  let (address, rest) ← Text.splitOnce '[' cs
  let (document, span) ← Text.splitOnce ']' rest
  let (start, finish) ← Text.splitOnce '-' span
  let (startLine, startColumn) ← Text.splitOnce ':' start
  let (endLine, endColumn) ← Text.splitOnce ':' finish
  return (address, document, startLine, startColumn, endLine, endColumn)

def parse (text : String) : Except AddressFault SequencePoint :=
  match cut? text.toList with
  | none => .error (.malformedPoint text)
  | some (address, document, startLine, startColumn, endLine, endColumn) => do
      let address ← readAddressNumber address text
      let document ← readAddressNumber document text
      let startLine ← readAddressNumber startLine text
      let startColumn ← readAddressNumber startColumn text
      let endLine ← readAddressNumber endLine text
      let endColumn ← readAddressNumber endColumn text
      return ⟨address, document, startLine, startColumn, endLine, endColumn⟩

end SequencePoint

end NeoScript
