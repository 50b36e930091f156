/-!
# Words

Numbers that must fit into a word, and words as bytes, least significant byte first.
-/

namespace DeviceCode

def word16? (n : Nat) : Option UInt16 := if n < 65536 then some n.toUInt16 else none

def word32? (n : Nat) : Option UInt32 := if n < 4294967296 then some n.toUInt32 else none

namespace Word

def bytes16 (w : UInt16) : List UInt8 := [w.toUInt8, (w >>> 8).toUInt8]

def bytes32 (w : UInt32) : List UInt8 :=
  [w.toUInt8, (w >>> 8).toUInt8, (w >>> 16).toUInt8, (w >>> 24).toUInt8]

def bytes64 (w : UInt64) : List UInt8 := bytes32 w.toUInt32 ++ bytes32 (w >>> 32).toUInt32

def ofBytes16 (b₀ b₁ : UInt8) : UInt16 := b₀.toUInt16 ||| (b₁.toUInt16 <<< 8)

def ofBytes32 (b₀ b₁ b₂ b₃ : UInt8) : UInt32 :=
  b₀.toUInt32 ||| (b₁.toUInt32 <<< 8) ||| (b₂.toUInt32 <<< 16) ||| (b₃.toUInt32 <<< 24)

def ofHalves (low high : UInt32) : UInt64 := low.toUInt64 ||| (high.toUInt64 <<< 32)

end Word

end DeviceCode
