import NeoScript.Archive.Entry

/-!
# Directory — where the directory of an archive stands

The last record of an archive tells where its directory begins and how many entries it has.  Numbers
that do not fit this record stand in a wide one in front of it, to which a locator leads.

Positions count from the beginning of the archive, and bytes in front of the archive do not count:
the directory, or the wide record, may stand behind the position that is told, and everything else
is shifted by as much.

* `ZipDirectory` — where a directory begins, its number of entries, and the shift;
* `Zip.wideDirectory?` — the directory by the wide record;
* `Zip.narrowDirectory?` — the directory by the last record alone;
* `Zip.directoryBefore?` — the directory by the last record at a position.
-/

namespace NeoScript

structure ZipDirectory where
  start : Nat
  /-- How many entries it has. -/
  count : Nat
  /-- How many bytes stand in front of the archive. -/
  shift : Nat
  deriving DecidableEq, Repr

namespace Zip

def directorySignature : Nat := 0x02014B50

def endSignature : Nat := 0x06054B50

def wideEndSignature : Nat := 0x06064B50

def locatorSignature : Nat := 0x07064B50

def endSize : Nat := 22

def locatorSize : Nat := 20

/-- How many bytes an entry of the directory takes at least. -/
def directoryEntrySize : Nat := 46

/-- The first of `count` positions from `start` on at which a condition holds. -/
def firstFrom (condition : Nat → Bool) : (count start : Nat) → Option Nat
  | 0, _ => none
  | count + 1, start =>
      if condition start then some start else firstFrom condition count (start + 1)

/-! ## The wide record -/

/-- The record that stands in front of the last one if its numbers do not fit that. -/
structure WideEnd where
  /-- How many bytes follow the field that tells the size. -/
  size : Nat
  versionMadeBy : Nat
  versionNeeded : Nat
  disk : Nat
  directoryDisk : Nat
  countOnDisk : Nat
  count : Nat
  /-- Where the directory begins. -/
  offset : Nat
  deriving DecidableEq, Repr

structure Locator where
  directoryDisk : Nat
  /-- Where the wide record begins. -/
  offset : Nat
  disks : Nat
  deriving DecidableEq, Repr

def wideEnd? (file : Array UInt8) (position : Nat) : Option WideEnd := do
  if hasSignature file wideEndSignature position then
    let size ← field? file 8 (position + 4)
    let versionMadeBy ← field? file 2 (position + 12)
    let versionNeeded ← field? file 2 (position + 14)
    let disk ← field? file 4 (position + 16)
    let directoryDisk ← field? file 4 (position + 20)
    let countOnDisk ← field? file 8 (position + 24)
    let count ← field? file 8 (position + 32)
    let offset ← field? file 8 (position + 48)
    return ⟨size, versionMadeBy, versionNeeded, disk, directoryDisk, countOnDisk, count, offset⟩
  else none

def locator? (file : Array UInt8) (position : Nat) : Option Locator := do
  if hasSignature file locatorSignature position then
    let directoryDisk ← field? file 4 (position + 4)
    let offset ← field? file 8 (position + 8)
    let disks ← field? file 4 (position + 16)
    return ⟨directoryDisk, offset, disks⟩
  else none

/-- A wide record at a position reaches up to its locator, agrees with it, and leaves room for the
directory. -/
def WideEnd.isConsistent (w : WideEnd) (locator : Locator) (locatorPosition position : Nat) :
    Bool :=
  decide (44 ≤ w.size) && position + 12 + w.size == locatorPosition &&
    w.directoryDisk == locator.directoryDisk &&
    decide (w.count * directoryEntrySize + w.offset ≤ position)

/-- A wide record tells of an archive in one part, by a program that knows what it takes to read
it. -/
def WideEnd.isSupported (w : WideEnd) : Bool :=
  decide (w.countOnDisk ≤ w.count) && decide (w.versionNeeded ≤ w.versionMadeBy) &&
    w.disk == w.directoryDisk

/-- The directory by the first consistent wide record from the position on that the locator
tells. -/
def wideDirectory? (file : Array UInt8) (locator : Locator) (locatorPosition : Nat) :
    Option ZipDirectory := do
  let isWideEnd (position : Nat) : Bool :=
    (wideEnd? file position).any fun w => w.isConsistent locator locatorPosition position
  if locator.offset < locatorPosition ∧ locator.disks ≤ 1 then
    let position ← firstFrom isWideEnd (locatorPosition - locator.offset) locator.offset
    let w ← wideEnd? file position
    let shift := position - locator.offset
    if w.isSupported then return ⟨w.offset + shift, w.count, shift⟩ else none
  else none

/-! ## The last record -/

structure End where
  disk : Nat
  directoryDisk : Nat
  countOnDisk : Nat
  count : Nat
  /-- Where the directory begins. -/
  offset : Nat
  deriving DecidableEq, Repr

/-- The last record at a position; its comment must be in the file. -/
def end? (file : Array UInt8) (position : Nat) : Option End := do
  if hasSignature file endSignature position then
    let disk ← field? file 2 (position + 4)
    let directoryDisk ← field? file 2 (position + 6)
    let countOnDisk ← field? file 2 (position + 8)
    let count ← field? file 2 (position + 10)
    let offset ← field? file 4 (position + 16)
    let commentLength ← field? file 2 (position + 20)
    if position + endSize + commentLength ≤ file.size then
      return ⟨disk, directoryDisk, countOnDisk, count, offset⟩
    else none
  else none

def End.mayBeWide (e : End) : Bool :=
  e.count == 0xFFFF || e.offset == 0xFFFFFFFF

/-- The directory by the last record alone: at the first entry from the position on that it tells,
or at the record itself if the archive is said to be empty. -/
def narrowDirectory? (file : Array UInt8) (e : End) (position : Nat) : Option ZipDirectory := do
  if e.disk = e.directoryDisk then
    let start ←
      if e.count = 0 then some (max position e.offset)
      else firstFrom (hasSignature file directorySignature) (position - 3 - e.offset) e.offset
    return ⟨start, e.countOnDisk, start - e.offset⟩
  else none

def directoryBefore? (file : Array UInt8) (position : Nat) : Option ZipDirectory := do
  let e ← end? file position
  let locator :=
    if e.mayBeWide ∧ locatorSize ≤ position then locator? file (position - locatorSize) else none
  match locator with
  | some locator => wideDirectory? file locator (position - locatorSize)
  | none => narrowDirectory? file e position

end Zip

end NeoScript
