import DeviceCode.Image.Reader
import DeviceCode.Machine.Value

/-!
# Decoding

The instruction at a position of the code, with its operands, for the part of the instruction set
that works on scalars.
-/

namespace DeviceCode

/-- A decoded instruction. -/
inductive MachineOp where
  | nop
  | load (area : Area) (slot : Nat)
  | store (area : Area) (slot : Nat)
  | const (v : Value)
  | dup
  | pop
  | ret
  | jump (target : Nat)
  | jumpIf (sense : Bool) (target : Nat)
  | jumpTest (test : BranchTest) (target : Nat)
  /-- A table of targets, its position in the code and the number of its entries. -/
  | switch (table count : Nat)
  | binary (kind : UInt8)
  | neg
  | complement
  | convert (conversion : Conversion)
  | compare (test : ValueTest)
  | loadStatic (slot : Nat)
  | storeStatic (slot : Nat)
  | call (method : Nat)
  | callBuiltin (id : UInt16)
  /-- An opcode that needs objects, or none at all. -/
  | unsupported (opcode : String)
  deriving DecidableEq, Inhabited

namespace MachineOp

def byteAt? (code : Array UInt8) (position : Nat) : Option UInt8 := code[position]?

def wordAt? (code : Array UInt8) (position : Nat) : Option UInt16 := do
  some (Word.ofBytes16 (← code[position]?) (← code[position + 1]?))

def doubleAt? (code : Array UInt8) (position : Nat) : Option UInt32 := do
  some (Word.ofBytes32 (← code[position]?) (← code[position + 1]?) (← code[position + 2]?)
    (← code[position + 3]?))

/-- A field operand: flags, offset and id. Only the static region can be reached. -/
def field? (code : Array UInt8) (position : Nat) (opcode : Opcode) (op : Nat → MachineOp) :
    Option (MachineOp × Nat) := do
  let flags ← byteAt? code position
  let slot ← wordAt? code (position + 1)
  let _ ← wordAt? code (position + 3)
  if flags &&& Opcode.fieldStatic = 0 then some (unsupported opcode.name, position + 5)
  else some (op slot.toNat, position + 5)

/-- The operands of an opcode, which start at the position; none if the code ends in them. Gives the
instruction and the position after it. -/
def operands? (code : Array UInt8) (position : Nat) (opcode : Opcode) : Option (MachineOp × Nat) :=
  let word (op : Nat → MachineOp) : Option (MachineOp × Nat) := do
    some (op (← wordAt? code position).toNat, position + 2)
  match opcode with
  | .nop | .callvirtDirect => some (nop, position)
  | .ldarg => word (load .arguments)
  | .starg => word (store .arguments)
  | .ldloc => word (load .locals)
  | .stloc => do
    let _ ← byteAt? code position
    some (store .locals (← wordAt? code (position + 1)).toNat, position + 3)
  | .ldc => do
    let tag ← byteAt? code position
    let v ← doubleAt? code (position + 1)
    some (const (if tag = Tag.f32.id then .r4 v else .i4 v.toInt32), position + 5)
  | .ldnull => some (const .null, position)
  | .dup => some (dup, position)
  | .pop => some (pop, position)
  | .ret => some (ret, position)
  | .br => word jump
  | .brtrue => word (jumpIf true)
  | .brfalse => word (jumpIf false)
  | .branch test => word (jumpTest test)
  | .switch => do
    let count := (← wordAt? code position).toNat
    let stop := position + 2 + 2 * count
    if stop ≤ code.size then some (switch (position + 2) count, stop) else none
  | .arith => do some (binary (← byteAt? code position), position + 1)
  | .neg => some (neg, position)
  | .not => some (complement, position)
  | .conv conversion => some (convert conversion, position)
  | .compare test => some (compare test, position)
  | .ldfld => field? code position .ldfld loadStatic
  | .stfld => field? code position .stfld storeStatic
  | .call => word call
  | .callBuiltin => do some (callBuiltin (← wordAt? code position), position + 2)
  | opcode => some (unsupported opcode.name, position)

/-- The instruction at a position and the position after it; none if the code ends before the
instruction does. -/
def decode? (code : Array UInt8) (position : Nat) : Option (MachineOp × Nat) := do
  let b ← byteAt? code position
  match Opcode.ofByte? b with
  | some opcode => operands? code (position + 1) opcode
  | none => some (unsupported (Opcode.nameOfByte b), position + 1)

end MachineOp

end DeviceCode
