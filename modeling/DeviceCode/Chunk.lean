import DeviceCode.Opcode
import DeviceCode.Placement
import DeviceCode.Word

/-!
# Code chunks

An instruction is written as pieces, some of which are operands whose value is known only later:
branch targets when the method is complete, all others when the build is linked. The pieces of an
instruction become one chunk of bytes (`Chunk.ofPieces`), in which the link overwrites the
placeholders (`Chunk.patch`).
-/

namespace DeviceCode

/-- What an operand that is known only at link time stands for. -/
inductive LinkOperand where
  /-- The id of the class with that key. -/
  | classId (key : String)
  /-- The id of the descriptor of that type. -/
  | descriptorId (type : TypeRef)
  /-- The offset of the field with that key. -/
  | fieldOffset (key : String)
  /-- The index of the virtual slot with that key. -/
  | dispatchIndex (key : String)
  deriving DecidableEq, Inhabited

inductive Piece where
  | byte (value : UInt8)
  | word (value : UInt16)
  | bytes (values : List UInt8)
  /-- The byte offset of the instruction at that position of the body. -/
  | branch (target : Nat)
  | link (operand : LinkOperand)
  deriving DecidableEq, Inhabited

namespace Piece

abbrev opcode (o : Opcode) : Piece := byte o.byte

def size : Piece → Nat
  | byte _ => 1
  | word _ | branch _ | link _ => 2
  | bytes values => values.length

def totalSize : List Piece → Nat
  | [] => 0
  | p :: rest => p.size + totalSize rest

/-- The bytes of a piece, once it is known where an instruction starts. An operand that waits for
the link is a placeholder. -/
def encode {ε : Type} (branchOffset : Nat → Except ε UInt16) : Piece → Except ε (List UInt8)
  | byte value => .ok [value]
  | word value => .ok (Word.bytes16 value)
  | bytes values => .ok values
  | branch target => (branchOffset target).map Word.bytes16
  | link _ => .ok (Word.bytes16 Opcode.placeholder)

/-- The operands that wait for the link, each with its position in the instruction that starts with
`start` bytes before the pieces. -/
def links (start : Nat) : List Piece → List (Nat × LinkOperand)
  | [] => []
  | link operand :: rest => (start, operand) :: links (start + 2) rest
  | p :: rest => links (start + p.size) rest

end Piece

/-- The bytes of one instruction, and where they start in the method. -/
structure Chunk where
  offset : Nat
  bytes : List UInt8
  deriving DecidableEq, Inhabited

namespace Chunk

def patch (c : Chunk) (position : Nat) (value : UInt16) : Chunk :=
  { c with bytes := (c.bytes.set position value.toUInt8).set (position + 1) (value >>> 8).toUInt8 }

def offsets (body : List (List Piece)) : List Nat :=
  placements 0 (body.map Piece.totalSize)

def ofPieces {ε : Type} (branchOffset : Nat → Except ε UInt16) (offset : Nat)
    (pieces : List Piece) : Except ε Chunk := do
  let parts ← pieces.mapM (Piece.encode branchOffset)
  return { offset, bytes := parts.flatten }

end Chunk

end DeviceCode
