/-!
# Crc32 — the checksum of archive entries

* `Crc32.digest` — the cyclic redundancy check of bytes, lowest bit first.
-/

namespace NeoScript
namespace Crc32

def generator : UInt32 := 0xEDB88320

def shift (register : UInt32) : UInt32 :=
  if register &&& 1 = 1 then (register >>> 1) ^^^ generator else register >>> 1

def step (register : UInt32) (byte : UInt8) : UInt32 :=
  (8 : Nat).repeat shift (register ^^^ byte.toUInt32)

def digest (bytes : List UInt8) : UInt32 :=
  bytes.foldl step 0xFFFFFFFF ^^^ 0xFFFFFFFF

end Crc32
end NeoScript
