import DeviceCode.Binary32
import DeviceCode.Program
import DeviceCode.Wire

/-!
# Programs in the wire format

`Program.toBytes` writes a program and `Program.ofBytes` reads it back. A type can hold types:
reading one takes a bound on the nesting, and the number of bytes is enough.
-/

namespace DeviceCode

open Wire

namespace TypeRef

mutual

def put : TypeRef → List UInt8
  | void => putNat 0
  | primitive p => putNat 1 ++ putVariant Primitive.all p
  | string => putNat 2
  | object => putNat 3
  | array t => putNat 4 ++ put t
  | named id args => putNat 5 ++ putNat id.index ++ putNat args.length ++ putAll args
  | param i => putNat 6 ++ putNat i.toNat
  | byRef t => putNat 7 ++ put t
  | pointer t => putNat 8 ++ put t

def putAll : List TypeRef → List UInt8
  | [] => []
  | t :: ts => put t ++ putAll ts

end

def get : (depth : Nat) → WireM TypeRef
  | 0 => throw .unexpectedEnd
  | d + 1 => do
    match (← word32).toNat with
    | 0 => return void
    | 1 => return primitive (← variant Primitive.all)
    | 2 => return string
    | 3 => return object
    | 4 => return array (← get d)
    | 5 => do
      let id ← word32
      return named ⟨id⟩ (← list (get d))
    | 6 => return param (← word16)
    | 7 => return byRef (← get d)
    | 8 => return pointer (← get d)
    | _ => throw .unknownVariant

end TypeRef

namespace FieldRef

def put (f : FieldRef) : List UInt8 := f.owner.put ++ putText f.name

def get (depth : Nat) : WireM FieldRef := do
  let owner ← TypeRef.get depth
  let name ← text
  return { owner, name }

end FieldRef

namespace MethodRef

def put (m : MethodRef) : List UInt8 :=
  m.owner.put ++ putText m.name ++ putList TypeRef.put m.params ++ m.ret.put ++ putBool m.hasThis

def get (depth : Nat) : WireM MethodRef := do
  let owner ← TypeRef.get depth
  let name ← text
  let params ← list (TypeRef.get depth)
  let ret ← TypeRef.get depth
  let hasThis ← bool
  return { owner, name, params, ret, hasThis }

end MethodRef

namespace ElementKind

def put : ElementKind → List UInt8
  | primitive p => putNat 0 ++ putVariant Primitive.all p
  | reference => putNat 1
  | any t => putNat 2 ++ t.put

def get (depth : Nat) : WireM ElementKind := do
  match (← word32).toNat with
  | 0 => return primitive (← variant Primitive.all)
  | 1 => return reference
  | 2 => return any (← TypeRef.get depth)
  | _ => throw .unknownVariant

end ElementKind

namespace Op

def number : Op → Nat
  | nop => 0
  | slot .arguments .load _ => 1
  | slot .arguments .address _ => 2
  | slot .arguments .store _ => 3
  | slot .locals .load _ => 4
  | slot .locals .address _ => 5
  | slot .locals .store _ => 6
  | const (.i4 _) => 7
  | const (.i8 _) => 8
  | const (.r4 _) => 9
  | const (.r8 _) => 10
  | null => 11
  | text _ => 12
  | dup => 13
  | pop => 14
  | ret => 15
  | jump _ => 16
  | jumpIf false _ => 17
  | jumpIf true _ => 18
  | jumpCmp _ _ _ => 19
  | switch _ => 20
  | loadThrough (some _) => 21
  | loadThrough none => 22
  | storeThrough (some _) => 23
  | storeThrough none => 24
  | binary _ => 25
  | neg => 26
  | not => 27
  | conv _ => 28
  | convUnsignedToFloat => 29
  | compare _ _ => 30
  | initObject _ => 31
  | newObject _ => 32
  | box _ => 33
  | unbox _ => 34
  | castClass _ => 35
  | field false .load _ => 36
  | field false .address _ => 37
  | field false .store _ => 38
  | field true .load _ => 39
  | field true .address _ => 40
  | field true .store _ => 41
  | newArray _ => 42
  | arrayLength => 43
  | elementAddress _ => 44
  | loadElement _ => 45
  | storeElement _ => 46
  | call false _ => 47
  | call true _ => 48
  | methodAddress _ => 49
  | callIndirect _ _ => 50
  | throw => 51
  | leave _ => 52
  | endFinally => 53

def putOperands : Op → List UInt8
  | slot _ _ index => putNat index.toNat
  | const (.i4 v) => putInt v.toInt
  | const (.i8 v) => putInt v.toInt
  | const (.r4 bits) => Word.bytes32 bits
  | const (.r8 bits) => Word.bytes64 bits
  | text s => putText s
  | jump t | jumpIf _ t | leave t => putNat t.toNat
  | jumpCmp cmp unsigned t => putVariant Comparison.all cmp ++ putBool unsigned ++ putNat t.toNat
  | switch targets => putList (fun t => putNat t.toNat) targets
  | loadThrough (some p) | storeThrough (some p) | conv p => putVariant Primitive.all p
  | binary op => putVariant BinaryOp.all op
  | compare relation unsigned => putVariant Relation.all relation ++ putBool unsigned
  | initObject t | box t | unbox t | castClass t | newArray t | elementAddress t => t.put
  | newObject m | call _ m | methodAddress m => m.put
  | field _ _ f => f.put
  | loadElement kind | storeElement kind => kind.put
  | callIndirect params returns => putNat params.toNat ++ putBool returns
  | nop | null | dup | pop | ret | loadThrough none | storeThrough none | neg | not
  | convUnsignedToFloat | arrayLength | throw | endFinally => []

def put (op : Op) : List UInt8 := putNat op.number ++ op.putOperands

def getOperands (depth : Nat) (number : Nat) : WireM Op := do
  match number with
  | 0 => return nop
  | 1 => return slot .arguments .load (← word16)
  | 2 => return slot .arguments .address (← word16)
  | 3 => return slot .arguments .store (← word16)
  | 4 => return slot .locals .load (← word16)
  | 5 => return slot .locals .address (← word16)
  | 6 => return slot .locals .store (← word16)
  | 7 => return const (.i4 (← int32))
  | 8 => return const (.i8 (← int64))
  | 9 => return const (.r4 (← pattern32))
  | 10 => return const (.r8 (← pattern64))
  | 11 => return null
  | 12 => return text (← Wire.text)
  | 13 => return dup
  | 14 => return pop
  | 15 => return ret
  | 16 => return jump (← word64)
  | 17 => return jumpIf false (← word64)
  | 18 => return jumpIf true (← word64)
  | 19 =>
    let cmp ← variant Comparison.all
    let unsigned ← bool
    return jumpCmp cmp unsigned (← word64)
  | 20 => return switch (← list word64)
  | 21 => return loadThrough (some (← variant Primitive.all))
  | 22 => return loadThrough none
  | 23 => return storeThrough (some (← variant Primitive.all))
  | 24 => return storeThrough none
  | 25 => return binary (← variant BinaryOp.all)
  | 26 => return neg
  | 27 => return not
  | 28 => return conv (← variant Primitive.all)
  | 29 => return convUnsignedToFloat
  | 30 =>
    let relation ← variant Relation.all
    return compare relation (← bool)
  | 31 => return initObject (← TypeRef.get depth)
  | 32 => return newObject (← MethodRef.get depth)
  | 33 => return box (← TypeRef.get depth)
  | 34 => return unbox (← TypeRef.get depth)
  | 35 => return castClass (← TypeRef.get depth)
  | 36 => return field false .load (← FieldRef.get depth)
  | 37 => return field false .address (← FieldRef.get depth)
  | 38 => return field false .store (← FieldRef.get depth)
  | 39 => return field true .load (← FieldRef.get depth)
  | 40 => return field true .address (← FieldRef.get depth)
  | 41 => return field true .store (← FieldRef.get depth)
  | 42 => return newArray (← TypeRef.get depth)
  | 43 => return arrayLength
  | 44 => return elementAddress (← TypeRef.get depth)
  | 45 => return loadElement (← ElementKind.get depth)
  | 46 => return storeElement (← ElementKind.get depth)
  | 47 => return call false (← MethodRef.get depth)
  | 48 => return call true (← MethodRef.get depth)
  | 49 => return methodAddress (← MethodRef.get depth)
  | 50 =>
    let params ← word16
    return callIndirect params (← bool)
  | 51 => return throw
  | 52 => return leave (← word64)
  | 53 => return endFinally
  | _ => MonadExcept.throw .unknownVariant

def get (depth : Nat) : WireM Op := do
  getOperands depth (← word32).toNat

end Op

namespace Instruction

def put (i : Instruction) : List UInt8 :=
  i.op.put ++ putOption (fun (line : UInt32) => putNat line.toNat) i.line

def get (depth : Nat) : WireM Instruction := do
  let op ← Op.get depth
  let line ← option word32
  return { op, line }

end Instruction

namespace TypeKind

def put : TypeKind → List UInt8
  | .classType => putNat 0
  | .structType => putNat 1
  | .interfaceType => putNat 2
  | .enumType p => putNat 3 ++ putVariant Primitive.all p

def get : WireM TypeKind := do
  match (← word32).toNat with
  | 0 => return .classType
  | 1 => return .structType
  | 2 => return .interfaceType
  | 3 => return .enumType (← variant Primitive.all)
  | _ => throw .unknownVariant

end TypeKind

namespace FieldDef

def put (f : FieldDef) : List UInt8 := putText f.name ++ f.type.put ++ putBool f.isStatic

def get (depth : Nat) : WireM FieldDef := do
  let name ← text
  let type ← TypeRef.get depth
  let isStatic ← bool
  return { name, type, isStatic }

end FieldDef

namespace TypeDef

def put (d : TypeDef) : List UInt8 :=
  putText d.name ++ d.kind.put ++ putOption TypeRef.put d.base ++
    putList TypeRef.put d.interfaces ++ putNat d.genericParams.toNat ++ putBool d.isAbstract ++
    putBool d.isExtern ++ putBool d.isHostSurface ++ putList FieldDef.put d.fields ++
    putList (fun (m : MethodId) => putNat m.index) d.methods

def get (depth : Nat) : WireM TypeDef := do
  let name ← text
  let kind ← TypeKind.get
  let base ← option (TypeRef.get depth)
  let interfaces ← list (TypeRef.get depth)
  let genericParams ← word16
  let isAbstract ← bool
  let isExtern ← bool
  let isHostSurface ← bool
  let fields ← list (FieldDef.get depth)
  let methods ← list (MethodId.mk <$> word32)
  return {
    name, kind, base, interfaces, genericParams, isAbstract, isExtern, isHostSurface, fields
    methods }

end TypeDef

namespace Body

def put (b : Body) : List UInt8 :=
  putList TypeRef.put b.locals ++ putList Instruction.put b.code.toList

def get (depth : Nat) : WireM Body := do
  let locals ← list (TypeRef.get depth)
  let code ← array (Instruction.get depth)
  return { locals, code }

end Body

namespace MethodDef

def put (m : MethodDef) : List UInt8 :=
  putText m.name ++ putNat m.declaring.index ++ putList TypeRef.put m.params ++ m.ret.put ++
    putBool m.isStatic ++ putBool m.isAbstract ++ putBool m.isVirtual ++
    putList (fun (m : MethodId) => putNat m.index) m.overrides ++ putBool m.requiresNative ++
    putOption Body.put m.body

def get (depth : Nat) : WireM MethodDef := do
  let name ← text
  let declaring ← TypeId.mk <$> word32
  let params ← list (TypeRef.get depth)
  let ret ← TypeRef.get depth
  let isStatic ← bool
  let isAbstract ← bool
  let isVirtual ← bool
  let overrides ← list (MethodId.mk <$> word32)
  let requiresNative ← bool
  let body ← option (Body.get depth)
  return {
    name, declaring, params, ret, isStatic, isAbstract, isVirtual, overrides, requiresNative, body }

end MethodDef

/-- A constant that is not a number differs from itself as a number. -/
def Constant.isNaN : Constant → Bool
  | .r4 bits => Binary32.isNaN bits
  | .r8 bits => Binary32.isNaN64 bits
  | _ => false

namespace Program

def toBytes (p : Program) : List UInt8 :=
  putList TypeDef.put p.types.toList ++ putList MethodDef.put p.methods.toList

def get (depth : Nat) : WireM Program := do
  let types ← array (TypeDef.get depth)
  let methods ← array (MethodDef.get depth)
  return { types, methods }

/-- The program that the bytes start with. Every nested type takes a byte, so no type is nested
deeper than there are bytes. -/
def ofBytes (bytes : List UInt8) : Except WireError Program :=
  (·.1) <$> get (bytes.length + 1) bytes

def loadsNaN (p : Program) : Bool :=
  p.methods.any fun m => m.body.any fun b => b.code.any fun i =>
    match i.op with
    | .const c => Constant.isNaN c
    | _ => false

/-- The wire form gives the program back, with its constants compared as numbers. -/
def roundTrips (p : Program) : Bool :=
  match ofBytes p.toBytes with
  | .ok q => q = p && !p.loadsNaN
  | .error _ => false

end Program

end DeviceCode
