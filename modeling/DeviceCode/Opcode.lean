import DeviceCode.Instruction

/-!
# Opcodes

The instruction set of the device. An instruction is an opcode byte and its operands, which follow
least significant byte first. `Opcode.ofByte?_byte` says that an opcode byte names its opcode.
-/

namespace DeviceCode

/-- The numeric conversions; `fromUnsigned` turns an unsigned integer into a float. -/
inductive Conversion where
  | i1 | i2 | i4 | u1 | u2 | u4 | r4 | fromUnsigned
  deriving DecidableEq, Inhabited

/-- The tests that a fused branch can make. -/
inductive BranchTest where
  | eq | ge | gt | le | lt | ne | geUn | gtUn | leUn | ltUn
  deriving DecidableEq, Inhabited

/-- The tests that give a value. -/
inductive ValueTest where
  | eq | gt | gtUn | lt | ltUn
  deriving DecidableEq, Inhabited

inductive Opcode where
  | nop
  | ldarg | ldarga | starg | ldloc | stloc | ldloca
  | ldnull | ldc | ldstr | dup | pop | ret
  | br | brfalse | brtrue
  | branch (test : BranchTest)
  | ldind | stind
  | arith
  | switch
  | neg | not
  | conv (conversion : Conversion)
  | initobj | castclass | newobj | ldfld | ldflda | stfld | box | unbox
  | newarr | ldlen | ldelema | ldelem | stelem
  | callvirtSlot | ldftn | callvirtDirect | call | callBuiltin | calli
  | compare (test : ValueTest)
  deriving DecidableEq, Inhabited

namespace Opcode

def placeholder : UInt16 := 0xFFFF

def elementReference : UInt8 := 0xFF

def fieldStatic : UInt8 := 0x01

/-- Field flag: the slot is shared with the host, and the id that follows is a descriptor's. -/
def fieldHost : UInt8 := 0x02

def byte : Opcode → UInt8
  | nop => 0x00
  | ldarg => 0x02
  | ldarga => 0x03
  | starg => 0x04
  | ldloc => 0x06
  | stloc => 0x0A
  | ldloca => 0x0B
  | ldnull => 0x14
  | ldc => 0x15
  | ldstr => 0x16
  | dup => 0x23
  | pop => 0x24
  | ret => 0x26
  | br => 0x27
  | brfalse => 0x28
  | brtrue => 0x29
  | branch .eq => 0x2A
  | branch .ge => 0x2B
  | branch .gt => 0x2C
  | branch .le => 0x2D
  | branch .lt => 0x2E
  | branch .ne => 0x2F
  | branch .geUn => 0x30
  | branch .gtUn => 0x31
  | branch .leUn => 0x32
  | branch .ltUn => 0x33
  | ldind => 0x41
  | stind => 0x4C
  | arith => 0x4D
  | switch => 0x50
  | neg => 0x6D
  | not => 0x6E
  | conv .i1 => 0x70
  | conv .i2 => 0x71
  | conv .i4 => 0x72
  | conv .u1 => 0x73
  | conv .u2 => 0x74
  | conv .u4 => 0x75
  | conv .r4 => 0x76
  | conv .fromUnsigned => 0x77
  | initobj => 0x78
  | castclass => 0x79
  | newobj => 0x7A
  | ldfld => 0x7B
  | ldflda => 0x7C
  | stfld => 0x7D
  | box => 0x7E
  | unbox => 0x7F
  | newarr => 0x8D
  | ldlen => 0x8E
  | ldelema => 0x8F
  | ldelem => 0x90
  | stelem => 0x91
  | callvirtSlot => 0xA0
  | ldftn => 0xA1
  | callvirtDirect => 0xA2
  | call => 0xA6
  | callBuiltin => 0xA7
  | calli => 0xA8
  | compare .eq => 0xE2
  | compare .gt => 0xE3
  | compare .gtUn => 0xE4
  | compare .lt => 0xE5
  | compare .ltUn => 0xE6

def ofByte? (b : UInt8) : Option Opcode :=
  match b.toNat with
  | 0x00 => some nop
  | 0x02 => some ldarg
  | 0x03 => some ldarga
  | 0x04 => some starg
  | 0x06 => some ldloc
  | 0x0A => some stloc
  | 0x0B => some ldloca
  | 0x14 => some ldnull
  | 0x15 => some ldc
  | 0x16 => some ldstr
  | 0x23 => some dup
  | 0x24 => some pop
  | 0x26 => some ret
  | 0x27 => some br
  | 0x28 => some brfalse
  | 0x29 => some brtrue
  | 0x2A => some (branch .eq)
  | 0x2B => some (branch .ge)
  | 0x2C => some (branch .gt)
  | 0x2D => some (branch .le)
  | 0x2E => some (branch .lt)
  | 0x2F => some (branch .ne)
  | 0x30 => some (branch .geUn)
  | 0x31 => some (branch .gtUn)
  | 0x32 => some (branch .leUn)
  | 0x33 => some (branch .ltUn)
  | 0x41 => some ldind
  | 0x4C => some stind
  | 0x4D => some arith
  | 0x50 => some switch
  | 0x6D => some neg
  | 0x6E => some not
  | 0x70 => some (conv .i1)
  | 0x71 => some (conv .i2)
  | 0x72 => some (conv .i4)
  | 0x73 => some (conv .u1)
  | 0x74 => some (conv .u2)
  | 0x75 => some (conv .u4)
  | 0x76 => some (conv .r4)
  | 0x77 => some (conv .fromUnsigned)
  | 0x78 => some initobj
  | 0x79 => some castclass
  | 0x7A => some newobj
  | 0x7B => some ldfld
  | 0x7C => some ldflda
  | 0x7D => some stfld
  | 0x7E => some box
  | 0x7F => some unbox
  | 0x8D => some newarr
  | 0x8E => some ldlen
  | 0x8F => some ldelema
  | 0x90 => some ldelem
  | 0x91 => some stelem
  | 0xA0 => some callvirtSlot
  | 0xA1 => some ldftn
  | 0xA2 => some callvirtDirect
  | 0xA6 => some call
  | 0xA7 => some callBuiltin
  | 0xA8 => some calli
  | 0xE2 => some (compare .eq)
  | 0xE3 => some (compare .gt)
  | 0xE4 => some (compare .gtUn)
  | 0xE5 => some (compare .lt)
  | 0xE6 => some (compare .ltUn)
  | _ => none

@[simp] theorem ofByte?_byte (o : Opcode) : ofByte? o.byte = some o := by
  cases o with
  | branch t => cases t <;> rfl
  | conv c => cases c <;> rfl
  | compare t => cases t <;> rfl
  | _ => rfl

def name : Opcode → String
  | nop => "NOP"
  | ldarg => "LDARG"
  | ldarga => "LDARGA"
  | starg => "STARG"
  | ldloc => "LDLOC"
  | stloc => "STLOC"
  | ldloca => "LDLOCA"
  | ldnull => "LDNULL"
  | ldc => "LDC"
  | ldstr => "LDSTR"
  | dup => "DUP"
  | pop => "POP"
  | ret => "RET"
  | br => "BR"
  | brfalse => "BRFALSE"
  | brtrue => "BRTRUE"
  | branch _ => "BCMP"
  | switch => "SWITCH"
  | ldind => "LDIND"
  | stind => "STIND"
  | arith => "ARITH"
  | neg => "NEG"
  | not => "NOT"
  | conv _ => "CONV"
  | initobj => "INITOBJ"
  | castclass => "CASTCLASS"
  | newobj => "NEWOBJ"
  | ldfld => "LDFLD"
  | ldflda => "LDFLDA"
  | stfld => "STFLD"
  | box => "BOX"
  | unbox => "UNBOX"
  | newarr => "NEWARR"
  | ldlen => "LDLEN"
  | ldelema => "LDELEMA"
  | ldelem => "LDELEM"
  | stelem => "STELEM"
  | callvirtSlot => "CALLVIRT"
  | ldftn => "LDFTN"
  | callvirtDirect => "CALLVIRT.DIRECT"
  | call => "CALL"
  | callBuiltin => "CALL.BUILTIN"
  | calli => "CALLI"
  | compare .eq => "CEQ"
  | compare .gt => "CGT"
  | compare .gtUn => "CGT.UN"
  | compare .lt => "CLT"
  | compare .ltUn => "CLT.UN"

/-- The name of an opcode byte, a question mark for a byte that is none. -/
def nameOfByte (b : UInt8) : String :=
  match ofByte? b with
  | some o => o.name
  | none => "?"

end Opcode

namespace BinaryOp

def byte : BinaryOp → UInt8
  | add => 0x60
  | sub => 0x61
  | mul => 0x62
  | div => 0x63
  | divUn => 0x64
  | rem => 0x65
  | remUn => 0x66
  | and => 0x67
  | or => 0x68
  | xor => 0x69
  | shl => 0x6A
  | shr => 0x6B
  | shrUn => 0x6C

def ofByte? (b : UInt8) : Option BinaryOp :=
  match b.toNat with
  | 0x60 => some add
  | 0x61 => some sub
  | 0x62 => some mul
  | 0x63 => some div
  | 0x64 => some divUn
  | 0x65 => some rem
  | 0x66 => some remUn
  | 0x67 => some and
  | 0x68 => some or
  | 0x69 => some xor
  | 0x6A => some shl
  | 0x6B => some shr
  | 0x6C => some shrUn
  | _ => none

@[simp] theorem ofByte?_byte (o : BinaryOp) : ofByte? o.byte = some o := by
  cases o <;> rfl

end BinaryOp

namespace Comparison

/-- The branch of the device that makes the test; equality has one branch for both signs. -/
def branchTest (unsigned : Bool) : Comparison → BranchTest
  | eq => .eq
  | ne => .ne
  | ge => if unsigned then .geUn else .ge
  | gt => if unsigned then .gtUn else .gt
  | le => if unsigned then .leUn else .le
  | lt => if unsigned then .ltUn else .lt

end Comparison

namespace Relation

def valueTest (unsigned : Bool) : Relation → ValueTest
  | eq => .eq
  | gt => if unsigned then .gtUn else .gt
  | lt => if unsigned then .ltUn else .lt

end Relation

def Primitive.conversion : Primitive → Conversion
  | i8 => .i1
  | i16 => .i2
  | i32 | i64 => .i4
  | bool | u8 => .u1
  | char | u16 => .u2
  | u32 | u64 => .u4
  | f32 | f64 => .r4

end DeviceCode
