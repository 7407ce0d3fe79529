import NeoScript.Archive.Entry
import NeoScript.Text.Utf8

/-!
# ExtraField — what a directory tells about an entry beyond its fixed fields

Behind its name an entry of the directory has a row of extra fields, each with a kind and a length.
Some of them replace what the fixed fields tell: numbers that need more than four bytes, the way the
data is encrypted, the name and the comment in UTF-8.

A row that ends in the middle of a field is no fault, and what it told until then counts.  A field
of a known kind that contradicts itself is one.

* `ExtraFieldReader` — reads extra fields, and keeps what was told even if it stops;
* `ExtraField.field` — one field;
* `ZipEntry.withExtraFields?` — an entry and what its extra fields tell.
-/

namespace NeoScript

namespace ExtraField

inductive Stop where
  /-- The row ends in the middle of a field. -/
  | ended
  /-- A field contradicts itself or asks for what is not supported. -/
  | refused
  deriving DecidableEq, Repr

/-- The bytes that are left, and the entry as far as it is known. -/
structure State where
  rest : List UInt8
  entry : ZipEntry
  deriving DecidableEq, Repr

end ExtraField

abbrev ExtraFieldReader := ExceptT ExtraField.Stop (StateM ExtraField.State)

namespace ExtraField

/-! ## Bytes and numbers -/

def bytes (count : Nat) : ExtraFieldReader (List UInt8) := do
  let s ← get
  let taken := s.rest.take count
  if taken.length = count then
    set { s with rest := s.rest.drop count }
    return taken
  else throw .ended

def number (width : Nat) : ExtraFieldReader Nat := do
  return Bytes.toNat (← bytes width)

def skip (count : Nat) : ExtraFieldReader Unit := do
  let _ ← bytes count

def expect (condition : Bool) : ExtraFieldReader Unit :=
  if condition then return () else throw .refused

def modifyEntry (change : ZipEntry → ZipEntry) : ExtraFieldReader Unit :=
  modify fun s => { s with entry := change s.entry }

/-! ## Kinds of fields -/

/-- What a fixed field of four bytes holds if its number stands in an extra field. -/
def inExtraField : Nat := 0xFFFFFFFF

/-- Sizes and positions of eight bytes, in place of those of four bytes that only refer to them.  A
field that has room for all three holds all three. -/
def wideNumbers (length : Nat) : ExtraFieldReader Unit := do
  let fixed := (← get).entry
  let isPresent (n : Nat) : Bool := decide (24 ≤ length) || n == inExtraField
  if isPresent fixed.size then
    let size ← number 8
    modifyEntry fun e => { e with size }
  if isPresent fixed.compressedSize then
    let compressedSize ← number 8
    modifyEntry fun e => { e with compressedSize }
  if isPresent fixed.header then
    let header ← number 8
    modifyEntry fun e => { e with header }
  let used := 8 * [fixed.size, fixed.compressedSize, fixed.header].countP isPresent
  expect (decide (used ≤ length))
  skip (length - used)

def fileTimes (length : Nat) : ExtraFieldReader Unit := do
  expect (length == 32)
  skip 4
  expect ((← number 2) == 1)
  expect ((← number 2) == 24)
  skip 24

/-- Up to three times of four bytes, which a byte of flags announces.  A field of five bytes has the
first of them only, whatever the flags say. -/
def shortTimes (length : Nat) : ExtraFieldReader Unit := do
  let flags ← number 1
  expect (length == 5 || length == 1 + 4 * (List.range 8).countP flags.testBit)
  expect (decide (flags < 8))
  if flags.testBit 0 || length == 5 then skip 4
  if flags.testBit 1 && decide (5 < length) then skip 4
  if flags.testBit 2 && decide (5 < length) then skip 4

/-- How the data is encrypted, and its method before that. -/
def cipher (length : Nat) : ExtraFieldReader Unit := do
  expect (length == 7)
  let version ← number 2
  let vendor ← number 2
  let strength ← number 1
  let method ← number 2
  expect (vendor == 0x4541)
  expect ([1, 2].contains version)
  expect ([1, 2, 3].contains strength)
  modifyEntry fun e => { e with method, hasCipher := true }

/-- A text in UTF-8 in place of one that has the given bytes: it tells their checksum, so that it
does not count if they were changed since. -/
def unicodeText (length : Nat) (replaced : List UInt8) :
    ExtraFieldReader (List UInt8 × String) := do
  skip 1
  let crc ← number 4
  expect (decide (5 ≤ length))
  let content ← bytes (length - 5)
  expect (crc == (Crc32.digest replaced).toNat)
  match Utf8.decode? content with
  | some text => return (content, text)
  | none => throw .refused

def unicodeComment (length : Nat) : ExtraFieldReader Unit := do
  let replaced := Utf8.encode (← get).entry.comment
  let (_, comment) ← unicodeText length replaced
  modifyEntry fun e => { e with comment }

def unicodeName (length : Nat) : ExtraFieldReader Unit := do
  let (nameBytes, name) ← unicodeText length (← get).entry.nameBytes
  modifyEntry fun e => { e with nameBytes, name }

/-- One field.  The kinds that are not known are skipped. -/
def field : ExtraFieldReader Unit := do
  let kind ← number 2
  let length ← number 2
  match kind with
  | 0x0001 => wideNumbers length
  | 0x000A => fileTimes length
  | 0x5455 => shortTimes length
  | 0x6375 => unicodeComment length
  | 0x7075 => unicodeName length
  | 0x9901 => cipher length
  | _ => skip length

def fields : (fuel : Nat) → ExtraFieldReader Unit
  | 0 => return ()
  | fuel + 1 => do
      if (← get).rest.isEmpty then return ()
      else
        field
        fields fuel

end ExtraField

/-- An entry and what its extra fields tell; none if one of them is at fault.  Every field takes a
byte at least, so their number bounds the steps. -/
def ZipEntry.withExtraFields? (e : ZipEntry) (extra : List UInt8) : Option ZipEntry :=
  match (ExtraField.fields extra.length).run ⟨extra, e⟩ with
  | (.ok _, s) => some s.entry
  | (.error .ended, s) => some s.entry
  | (.error .refused, _) => none

end NeoScript
