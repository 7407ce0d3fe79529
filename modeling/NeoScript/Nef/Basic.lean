import NeoScript.Error
import NeoScript.Script
import NeoScript.Sha256
import NeoScript.Text.Utf8

/-!
# Nef — the container of a script

* `Hash160`, `Token` — references to methods of other contracts;
* `Nef` — a script with its header;
* `VarInt.encode` — numbers of variable length;
* `Nef.toBytes`, `Nef.make`, `Nef.withScript` — writing a container and sealing it with a checksum.
-/

namespace NeoScript

/-! ## Hashes and tokens -/

/-- A contract hash, in the order in which it is stored. -/
structure Hash160 where
  bytes : List UInt8
  length_bytes : bytes.length = 20
  deriving DecidableEq, Repr

namespace Hash160

def ofBytes? (bytes : List UInt8) : Option Hash160 :=
  if h : bytes.length = 20 then some ⟨bytes, h⟩ else none

/-- Hashes are shown with the last byte first. -/
def renderBytes (bytes : List UInt8) : String :=
  "0x" ++ Bytes.toHex bytes.reverse

def render (hash : Hash160) : String :=
  renderBytes hash.bytes

end Hash160

structure Token where
  hash : Hash160
  method : String
  parameters : UInt16
  returns : Bool
  callFlags : UInt8
  deriving DecidableEq, Repr

structure Nef where
  compiler : String
  source : String
  tokens : List Token
  script : Code
  checksum : UInt32
  deriving DecidableEq, Repr

/-! ## Numbers of variable length -/

namespace VarInt

def encode (n : Nat) : List UInt8 :=
  if n < 0xFD then [UInt8.ofNat n]
  else if n < 0x10000 then 0xFD :: Bytes.ofNat 2 n
  else if n < 0x100000000 then 0xFE :: Bytes.ofNat 4 n
  else 0xFF :: Bytes.ofNat 8 n

def encodeBytes (bytes : List UInt8) : List UInt8 :=
  encode bytes.length ++ bytes

end VarInt

namespace Nef

/-! ## Limits -/

/-- The letters `NEF3` as a number. -/
def magic : Nat := 0x3346454E

/-- The length of the compiler field, which is filled up with zeros. -/
def compilerLength : Nat := 64

def maxSourceLength : Nat := 256
def maxTokens : Nat := 128
def maxMethodLength : Nat := 32
def maxScriptLength : Nat := 131070

def allCallFlags : Nat := 15

/-! ## Checksums -/

def checksumOf (bytes : List UInt8) : UInt32 :=
  UInt32.ofNat (Bytes.toNat ((Sha256.digest (Sha256.digest bytes)).take 4))

/-! ## Writing -/

def tokenBytes (token : Token) : Except Error (List UInt8) :=
  if maxMethodLength < Utf8.length token.method then
    .error (.invalidNef (.methodTooLong token.method))
  else
    .ok (token.hash.bytes ++ VarInt.encodeBytes (Utf8.encode token.method) ++
      Bytes.ofNat 2 token.parameters.toNat ++ [if token.returns then 1 else 0, token.callFlags])

def compilerField (compiler : String) : List UInt8 :=
  let bytes := Utf8.encode compiler
  bytes ++ List.replicate (compilerLength - bytes.length) 0

/-- Everything in front of the checksum; texts and counts beyond their limits are refused. -/
def body (nef : Nef) : Except Error (List UInt8) :=
  if compilerLength < Utf8.length nef.compiler then
    .error (.invalidNef (.compilerTooLong (Utf8.length nef.compiler)))
  else if maxSourceLength < Utf8.length nef.source then .error (.invalidNef .sourceTooLong)
  else if maxTokens < nef.tokens.length then .error (.invalidNef .tooManyTokens)
  else if nef.script.size = 0 ∨ maxScriptLength < nef.script.size then
    .error (.invalidNef (.scriptLength nef.script.size))
  else do
    let tokens ← nef.tokens.mapM tokenBytes
    return Bytes.ofNat 4 magic ++ compilerField nef.compiler ++
      VarInt.encodeBytes (Utf8.encode nef.source) ++ [0] ++
      VarInt.encode nef.tokens.length ++ tokens.flatten ++ [0, 0] ++
      VarInt.encodeBytes nef.script.toList

/-- The whole container with the checksum that it holds. -/
def toBytes (nef : Nef) : Except Error (List UInt8) := do
  return (← nef.body) ++ Bytes.ofNat 4 nef.checksum.toNat

def computeChecksum (nef : Nef) : Except Error UInt32 :=
  nef.body.map checksumOf

def hasValidChecksum (nef : Nef) : Except Error Bool :=
  nef.computeChecksum.map (· == nef.checksum)

def make (compiler source : String) (tokens : List Token) (script : Code) : Except Error Nef := do
  let nef : Nef := ⟨compiler, source, tokens, script, 0⟩
  return { nef with checksum := ← nef.computeChecksum }

/-- Another script under the same header, with its own checksum. -/
def withScript (nef : Nef) (script : Code) : Except Error Nef :=
  make nef.compiler nef.source nef.tokens script

end Nef

end NeoScript
