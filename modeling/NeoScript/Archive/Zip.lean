import NeoScript.Archive.Deflate
import NeoScript.Archive.Directory
import NeoScript.Archive.ExtraField
import NeoScript.Text.CodePage

/-!
# Zip — files of several entries

The directory of an archive stands at its end, so an archive is read from its end.

* `Zip.entryAt?` — an entry of the directory;
* `Zip.entries?` — the entries of an archive, or none if the bytes are no archive;
* `Zip.single` — an archive of one entry.
-/

namespace NeoScript

namespace Zip

/-! ## Reading -/

/-- A name or a comment: UTF-8 if the flags say so, the old code page otherwise. -/
def decodeText (flags : Nat) (bytes : List UInt8) : String :=
  if flags.testBit 11 then Utf8.decodeLossy bytes else CodePage.decode bytes

def slice (file : Array UInt8) (start length : Nat) : List UInt8 :=
  (file.extract start (start + length)).toList

/-- An entry whose position counts from the beginning of the file.  Entries stand in front of the
directory. -/
def placeEntry? (directory : ZipDirectory) (e : ZipEntry) : Option ZipEntry :=
  let header := e.header + directory.shift
  if header < directory.start then some { e with header } else none

def checkCipher? (e : ZipEntry) : Option ZipEntry :=
  if e.method = ZipEntry.encrypted ∧ !e.hasCipher then none else some e

/-- The entry at a position of the directory, and where the next one stands.  The header in front of
its data is not looked at. -/
def entryAt? (file : Array UInt8) (directory : ZipDirectory) (position : Nat) :
    Option (ZipEntry × Nat) := do
  if hasSignature file directorySignature position then
    let flags ← field? file 2 (position + 8)
    let method ← field? file 2 (position + 10)
    let crc ← field? file 4 (position + 16)
    let compressedSize ← field? file 4 (position + 20)
    let size ← field? file 4 (position + 24)
    let nameLength ← field? file 2 (position + 28)
    let extraLength ← field? file 2 (position + 30)
    let commentLength ← field? file 2 (position + 32)
    let header ← field? file 4 (position + 42)
    let extraStart := position + directoryEntrySize + nameLength
    let commentStart := extraStart + extraLength
    let next := commentStart + commentLength
    if next ≤ file.size then
      let nameBytes := slice file (position + directoryEntrySize) nameLength
      let name := decodeText flags nameBytes
      let comment := decodeText flags (slice file commentStart commentLength)
      let entry : ZipEntry :=
        ⟨nameBytes, name, comment, flags, method, crc, size, compressedSize, header, false⟩
      let entry ← entry.withExtraFields? (slice file extraStart extraLength)
      return (← placeEntry? directory (← checkCipher? entry), next)
    else none
  else none

def entriesFrom? (file : Array UInt8) (directory : ZipDirectory) :
    (count position : Nat) → List ZipEntry → Option (List ZipEntry)
  | 0, _, out => some out.reverse
  | count + 1, position, out =>
      match entryAt? file directory position with
      | some (entry, next) => entriesFrom? file directory count next (entry :: out)
      | none => none

/-- The entries of an archive whose last record stands at a position. -/
def entriesBefore? (file : Array UInt8) (position : Nat) : Option (List ZipEntry) := do
  let directory ← directoryBefore? file position
  entriesFrom? file directory directory.count directory.start []

/-- The entries by the last record before a position that belongs to an archive. -/
def search? (file : Array UInt8) : Nat → Option (List ZipEntry)
  | 0 => none
  | position + 1 =>
      match entriesBefore? file position with
      | some entries => some entries
      | none => search? file position

/-- Entries of one name count once: at the place of the first, with the data of the last. -/
def merge (entries : List ZipEntry) : List ZipEntry :=
  let enter (out : List ZipEntry) (e : ZipEntry) : List ZipEntry :=
    if out.any fun known => known.name = e.name then
      out.map fun known => if known.name = e.name then e else known
    else out ++ [e]
  entries.foldl enter []

def entries? (file : Array UInt8) : Option (List ZipEntry) :=
  (search? file file.size).map merge

/-! ## Writing -/

/-- The fields that an entry has in front of its data and in the directory. -/
def entryFields (name data : List UInt8) : List UInt8 :=
  let flags := if name.all (· < 0x80) then 0 else 0x0800
  Bytes.ofNat 2 20 ++ Bytes.ofNat 2 flags ++ Bytes.ofNat 2 ZipEntry.deflated ++ Bytes.ofNat 2 0 ++
    Bytes.ofNat 2 0x21 ++ Bytes.ofNat 4 (Crc32.digest data).toNat ++
    Bytes.ofNat 4 (deflate data).length ++ Bytes.ofNat 4 data.length ++
    Bytes.ofNat 2 name.length ++ Bytes.ofNat 2 0

def localRecord (name data : List UInt8) : List UInt8 :=
  Bytes.ofNat 4 localSignature ++ entryFields name data ++ name ++ deflate data

/-- The one entry of the directory; its data stands at the beginning of the archive. -/
def directoryRecord (name data : List UInt8) : List UInt8 :=
  Bytes.ofNat 4 directorySignature ++ Bytes.ofNat 2 20 ++ entryFields name data ++
    Bytes.ofNat 2 0 ++ Bytes.ofNat 2 0 ++ Bytes.ofNat 2 0 ++ Bytes.ofNat 4 0 ++
      Bytes.ofNat 4 0 ++ name

/-- The last record of an archive with one entry, whose directory has a length and a beginning. -/
def endRecord (length offset : Nat) : List UInt8 :=
  Bytes.ofNat 4 endSignature ++ Bytes.ofNat 2 0 ++ Bytes.ofNat 2 0 ++ Bytes.ofNat 2 1 ++
    Bytes.ofNat 2 1 ++ Bytes.ofNat 4 length ++ Bytes.ofNat 4 offset ++ Bytes.ofNat 2 0

def single (name data : List UInt8) : List UInt8 :=
  let first := localRecord name data
  let directory := directoryRecord name data
  first ++ directory ++ endRecord directory.length first.length

end Zip

end NeoScript
