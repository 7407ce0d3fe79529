import NeoScript.Archive.Crc32
import NeoScript.Archive.Inflate
import NeoScript.Bytes

/-!
# Entry — an entry of an archive

The directory of an archive tells where an entry stands and how it is written.  The header in front
of the data only tells where the data begins.

* `Zip.field?`, `Zip.hasSignature` — numbers at a position of a file;
* `ZipEntry` — what the directory tells about an entry;
* `ZipEntry.data?` — the bytes of an entry as they are written;
* `ZipEntry.unpack?` — the contents that these bytes stand for.
-/

namespace NeoScript

/-! ## Fields -/

namespace Zip

def localSignature : Nat := 0x04034B50

def field? (file : Array UInt8) (width position : Nat) : Option Nat :=
  if position + width ≤ file.size then
    some (Bytes.toNat (file.extract position (position + width)).toList)
  else none

def hasSignature (file : Array UInt8) (signature position : Nat) : Bool :=
  field? file 4 position = some signature

end Zip

/-! ## Entries -/

/-- An entry of an archive, as the directory tells it. -/
structure ZipEntry where
  /-- The name as it is written. -/
  nameBytes : List UInt8
  name : String
  comment : String
  flags : Nat
  method : Nat
  crc : Nat
  size : Nat
  compressedSize : Nat
  /-- Where the header in front of the data stands. -/
  header : Nat
  /-- A field of the directory tells how the data is encrypted. -/
  hasCipher : Bool
  deriving DecidableEq, Repr

namespace ZipEntry

def stored : Nat := 0

def deflated : Nat := 8

/-- The data is encrypted, and a field of the directory tells how. -/
def encrypted : Nat := 99

def isEncrypted (e : ZipEntry) : Bool :=
  e.flags.testBit 0 || e.hasCipher

/-- Entries are stored as they are, or compressed in the one way that is known. -/
def isSupported (e : ZipEntry) : Bool :=
  (e.method = stored || e.method = deflated) && !e.isEncrypted

/-- Where the data of an entry begins, behind the header in front of it. -/
def dataStart? (file : Array UInt8) (e : ZipEntry) : Option Nat := do
  if Zip.hasSignature file Zip.localSignature e.header then
    let nameLength ← Zip.field? file 2 (e.header + 26)
    let extraLength ← Zip.field? file 2 (e.header + 28)
    return e.header + 30 + nameLength + extraLength
  else none

/-- The data of an entry as it is written, as far as the file goes; none if it cannot be found or
not be unpacked. -/
def data? (file : Array UInt8) (e : ZipEntry) : Option (List UInt8) := do
  if e.isSupported then
    let start ← e.dataStart? file
    return (file.extract start (min file.size (start + e.compressedSize))).toList
  else none

/-- The contents that data stands for, if it is not corrupt and they have the right checksum. -/
def unpack? (e : ZipEntry) (data : List UInt8) : Option (List UInt8) := do
  let bytes ← if e.method = stored then some data else (inflate data).map Array.toList
  if (Crc32.digest bytes).toNat = e.crc then some bytes else none

end ZipEntry

end NeoScript
