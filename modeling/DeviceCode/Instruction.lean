import DeviceCode.TypeRef

/-!
# Instructions

The operations of a stack program, what each takes from the operand stack and leaves on it
(`Op.effect`), and where control may go after it (`Op.successors`). Branch targets are positions in
the body.
-/

namespace DeviceCode

inductive BinaryOp where
  | add | sub | mul | div | divUn | rem | remUn | and | or | xor | shl | shr | shrUn
  deriving DecidableEq, Inhabited

/-- The orderings a branch can test. -/
inductive Comparison where
  | eq | ne | ge | gt | le | lt
  deriving DecidableEq, Inhabited

/-- The orderings that can be computed as a value; the others exist only in branches. -/
inductive Relation where
  | eq | gt | lt
  deriving DecidableEq, Inhabited

namespace BinaryOp

def all : List BinaryOp :=
  [add, sub, mul, div, divUn, rem, remUn, and, or, xor, shl, shr, shrUn]

end BinaryOp

namespace Comparison

def all : List Comparison := [eq, ne, ge, gt, le, lt]

end Comparison

namespace Relation

def all : List Relation := [eq, gt, lt]

end Relation

/-- How an instruction reaches an array element. -/
inductive ElementKind where
  | primitive (p : Primitive)
  | reference
  | any (type : TypeRef)
  deriving DecidableEq, Inhabited

/-- The two areas of numbered slots in a frame. -/
inductive Area where
  | arguments | locals
  deriving DecidableEq, Inhabited

/-- What is done with a place: read it, take its address, write it. -/
inductive Access where
  | load | address | store
  deriving DecidableEq, Inhabited

/-- Numeric constants. A float is its bits, so that every pattern is kept. -/
inductive Constant where
  | i4 (value : Int32)
  | i8 (value : Int64)
  | r4 (bits : UInt32)
  | r8 (bits : UInt64)
  deriving DecidableEq, Inhabited

inductive Op where
  | nop
  | slot (area : Area) (access : Access) (index : UInt16)
  | const (value : Constant)
  | null
  | text (value : String)
  | dup
  | pop
  | ret
  | jump (target : UInt64)
  /-- Jumps when the value on top is true (`sense`) or false (`!sense`). -/
  | jumpIf (sense : Bool) (target : UInt64)
  | jumpCmp (cmp : Comparison) (unsigned : Bool) (target : UInt64)
  | switch (targets : List UInt64)
  /-- Reads through an address: a primitive, or a reference. -/
  | loadThrough (pointee : Option Primitive)
  | storeThrough (pointee : Option Primitive)
  | binary (op : BinaryOp)
  | neg
  | not
  | conv (type : Primitive)
  /-- An integer taken as unsigned, to a float. -/
  | convUnsignedToFloat
  | compare (relation : Relation) (unsigned : Bool)
  | initObject (type : TypeRef)
  | newObject (constructor : MethodRef)
  | box (type : TypeRef)
  | unbox (type : TypeRef)
  | castClass (type : TypeRef)
  | field (isStatic : Bool) (access : Access) (field : FieldRef)
  | newArray (element : TypeRef)
  | arrayLength
  | elementAddress (element : TypeRef)
  | loadElement (kind : ElementKind)
  | storeElement (kind : ElementKind)
  | call (isVirtual : Bool) (method : MethodRef)
  | methodAddress (method : MethodRef)
  | callIndirect (params : UInt16) (returns : Bool)
  | throw
  | leave (target : UInt64)
  | endFinally
  deriving DecidableEq, Inhabited

/-- An operation and, where it is known, the source line it came from. -/
structure Instruction where
  op : Op
  line : Option UInt32 := none
  deriving DecidableEq, Inhabited

namespace Op

/-- The values taken from the stack and the values left on it. `retPops` is what `ret` takes: one
value in a method with a result. -/
def effect (retPops : Nat) : Op → Nat × Nat
  | nop | jump _ | leave _ | endFinally => (0, 0)
  | slot _ .store _ => (1, 0)
  | slot _ _ _ | const _ | null | text _ | methodAddress _ => (0, 1)
  | field true .store _ => (1, 0)
  | field true _ _ => (0, 1)
  | field false .store _ => (2, 0)
  | field false _ _ => (1, 1)
  | pop | initObject _ | jumpIf _ _ | switch _ | throw => (1, 0)
  | dup => (1, 2)
  | ret => (retPops, 0)
  | jumpCmp _ _ _ | storeThrough _ => (2, 0)
  | loadThrough _ | neg | not | conv _ | convUnsignedToFloat | box _ | unbox _ | castClass _
  | newArray _ | arrayLength => (1, 1)
  | binary _ | compare _ _ | elementAddress _ | loadElement _ => (2, 1)
  | storeElement _ => (3, 0)
  | newObject m => (m.params.length, 1)
  | call _ m => (m.pops, m.pushes)
  | callIndirect params returns => (params.toNat + 1, returns.toNat)

def targets : Op → List Nat
  | jump t | leave t | jumpIf _ t | jumpCmp _ _ t => [t.toNat]
  | switch ts => ts.map UInt64.toNat
  | _ => []

def endsFlow : Op → Bool
  | ret | throw | endFinally | jump _ | leave _ => true
  | _ => false

def isBranch : Op → Bool
  | jump _ | jumpIf _ _ | jumpCmp _ _ _ | switch _ => true
  | _ => false

/-- The positions that control may reach next, in the order in which they are explored: the named
targets and then the following instruction, unless the body of length `len` ends before it. -/
def successors (op : Op) (index len : Nat) : List Nat :=
  op.targets ++ if !op.endsFlow && decide (index + 1 < len) then [index + 1] else []

end Op

/-! ## Mnemonics -/

namespace BinaryOp

def mnemonic : BinaryOp → String
  | add => "add"
  | sub => "sub"
  | mul => "mul"
  | div => "div"
  | divUn => "div.un"
  | rem => "rem"
  | remUn => "rem.un"
  | and => "and"
  | or => "or"
  | xor => "xor"
  | shl => "shl"
  | shr => "shr"
  | shrUn => "shr.un"

end BinaryOp

namespace Access

/-- The mnemonic of an access to the kind of place called `place`: `ldarg`, `ldarga`, `starg`. -/
def mnemonic (access : Access) (place : String) : String :=
  match access with
  | load => "ld" ++ place
  | address => "ld" ++ place ++ "a"
  | store => "st" ++ place

end Access

namespace Op

/-- The usual assembler spelling. Equality and inequality have one spelling for both signs. -/
def mnemonic : Op → String
  | nop => "nop"
  | slot .arguments access _ => access.mnemonic "arg"
  | slot .locals access _ => access.mnemonic "loc"
  | const (.i4 _) => "ldc.i4"
  | const (.i8 _) => "ldc.i8"
  | const (.r4 _) => "ldc.r4"
  | const (.r8 _) => "ldc.r8"
  | null => "ldnull"
  | text _ => "ldstr"
  | dup => "dup"
  | pop => "pop"
  | ret => "ret"
  | jump _ => "br"
  | jumpIf false _ => "brfalse"
  | jumpIf true _ => "brtrue"
  | jumpCmp cmp unsigned _ =>
    let un := if unsigned then ".un" else ""
    match cmp with
    | .eq => "beq"
    | .ne => "bne.un"
    | .ge => "bge" ++ un
    | .gt => "bgt" ++ un
    | .le => "ble" ++ un
    | .lt => "blt" ++ un
  | switch _ => "switch"
  | loadThrough (some _) => "ldind"
  | loadThrough none => "ldind.ref"
  | storeThrough (some _) => "stind"
  | storeThrough none => "stind.ref"
  | binary op => op.mnemonic
  | neg => "neg"
  | not => "not"
  | conv _ => "conv"
  | convUnsignedToFloat => "conv.r.un"
  | compare relation unsigned =>
    let un := if unsigned then ".un" else ""
    match relation with
    | .eq => "ceq"
    | .gt => "cgt" ++ un
    | .lt => "clt" ++ un
  | initObject _ => "initobj"
  | newObject _ => "newobj"
  | box _ => "box"
  | unbox _ => "unbox"
  | castClass _ => "castclass"
  | field false access _ => access.mnemonic "fld"
  | field true access _ => access.mnemonic "sfld"
  | newArray _ => "newarr"
  | arrayLength => "ldlen"
  | elementAddress _ => "ldelema"
  | loadElement _ => "ldelem"
  | storeElement _ => "stelem"
  | call false _ => "call"
  | call true _ => "callvirt"
  | methodAddress _ => "ldftn"
  | callIndirect _ _ => "calli"
  | throw => "throw"
  | leave _ => "leave"
  | endFinally => "endfinally"

end Op

end DeviceCode
