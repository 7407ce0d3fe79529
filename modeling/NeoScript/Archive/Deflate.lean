import NeoScript.Bytes

/-!
# Deflate — compressed texts that are written

A compressed text may hold its contents as they are, in blocks of a length that two bytes tell.
Only such blocks are written, so that a text is not shorter than its contents.

* `Deflate.block` — a block of stored bytes;
* `deflate` — the compressed text of any bytes.
-/

namespace NeoScript

namespace Deflate

def maxBlock : Nat := 0xFFFF

/-- A block of stored bytes.  Its lowest bit marks the last block, and its length is written twice,
once inverted. -/
def block (final : Bool) (data : List UInt8) : List UInt8 :=
  (if final then 1 else 0) ::
    (Bytes.ofNat 2 data.length ++ Bytes.ofNat 2 (maxBlock - data.length) ++ data)

def blocks : (fuel : Nat) → List UInt8 → List UInt8
  | 0, data => block true data
  | fuel + 1, data =>
      if data.length ≤ maxBlock then block true data
      else block false (data.take maxBlock) ++ blocks fuel (data.drop maxBlock)

end Deflate

/-- The compressed text of any bytes.  All blocks but the last one are full, which bounds the
steps. -/
def deflate (data : List UInt8) : List UInt8 :=
  Deflate.blocks (data.length / Deflate.maxBlock) data

end NeoScript
