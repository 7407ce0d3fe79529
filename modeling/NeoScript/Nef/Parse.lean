import NeoScript.Nef.Basic

/-!
# Parse — reading a container

* `Nef.Reader` — reads fields from the front of the bytes and knows the offset;
* `Nef.parseUnchecked` — the container, whatever its checksum;
* `Nef.parse` — the container, if its checksum is the right one.
-/

namespace NeoScript
namespace Nef

/-- What is left of a file, and how much of it was read. -/
structure Cursor where
  offset : Nat
  rest : List UInt8
  deriving DecidableEq, Repr

abbrev Reader := StateT Cursor (Except Error)

namespace Reader

def fail {α : Type} (fault : NefFault) : Reader α :=
  throw (.invalidNef fault)

/-! ## Fields -/

def bytes (n : Nat) : Reader (List UInt8) := fun cursor =>
  let front := cursor.rest.take n
  if front.length = n then .ok (front, ⟨cursor.offset + n, cursor.rest.drop n⟩)
  else .error (.invalidNef (.unexpectedEnd cursor.offset n))

def number (n : Nat) : Reader Nat := do
  return Bytes.toNat (← bytes n)

def byte : Reader UInt8 := do
  return UInt8.ofNat (← number 1)

/-- A number of variable length; forms longer than needed are accepted. -/
def varInt : Reader Nat := do
  let first ← number 1
  if first = 0xFD then number 2
  else if first = 0xFE then number 4
  else if first = 0xFF then number 8
  else return first

def text (field : NefField) (bytes : List UInt8) : Reader String :=
  match Utf8.decode? bytes with
  | some s => return s
  | none => fail (.notUtf8 field)

/-- A text of at most `limit` bytes behind its length. -/
def varText (limit : Nat) (field : NefField) : Reader String := do
  let length ← varInt
  if limit < length then fail (.fieldTooLong field length limit)
  else text field (← bytes length)

/-! ## Parts -/

def hash : Reader Hash160 := do
  let offset := (← get).offset
  match Hash160.ofBytes? (← bytes 20) with
  | some hash => return hash
  | none => fail (.unexpectedEnd offset 20)

def boolean : Reader Bool := do
  let b ← byte
  if b = 0 then return false
  else if b = 1 then return true
  else fail (.badBoolean b)

def token : Reader Token := do
  let hash ← hash
  let method ← varText maxMethodLength .tokenMethod
  if method.toList.head? = some '_' then fail (.hiddenMethod method)
  else
    let parameters ← number 2
    let returns ← boolean
    let callFlags ← byte
    if allCallFlags < callFlags.toNat then fail (.badCallFlags callFlags)
    else return ⟨hash, method, UInt16.ofNat parameters, returns, callFlags⟩

def tokens : (count : Nat) → Reader (List Token)
  | 0 => return []
  | count + 1 => do
      let first ← token
      return first :: (← tokens count)

/-- The compiler field up to its first zero. -/
def compiler : Reader String := do
  let field ← bytes compilerLength
  text .compiler (field.takeWhile (· ≠ 0))

def nef : Reader Nef := do
  let magicNumber ← number 4
  if magicNumber ≠ magic then fail (.badMagic magicNumber)
  else
    let compiler ← compiler
    let source ← varText maxSourceLength .source
    if (← byte) ≠ 0 then fail .reservedByte
    else
      let count ← varInt
      if maxTokens < count then fail (.tokenCount count)
      else
        let tokens ← tokens count
        if (← number 2) ≠ 0 then fail .reservedField
        else
          let size ← varInt
          if size = 0 ∨ maxScriptLength < size then fail (.scriptLength size)
          else
            let script ← bytes size
            let checksum ← number 4
            return ⟨compiler, source, tokens, script.toArray, UInt32.ofNat checksum⟩

end Reader

/-- Reads a container; its checksum may be wrong. -/
def parseUnchecked (bytes : List UInt8) : Except Error Nef := do
  let (nef, cursor) ← Reader.nef ⟨0, bytes⟩
  if cursor.rest.isEmpty then return nef
  else throw (.invalidNef (.trailingBytes cursor.rest.length))

def parse (bytes : List UInt8) : Except Error Nef := do
  let nef ← parseUnchecked bytes
  let computed ← nef.computeChecksum
  if computed = nef.checksum then return nef
  else throw (.checksumMismatch nef.checksum computed)

end Nef
end NeoScript
