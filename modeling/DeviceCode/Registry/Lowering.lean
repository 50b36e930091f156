import DeviceCode.Descriptor
import DeviceCode.Program.Resolve
import DeviceCode.Registry

/-!
# Lowering

Every instruction of a body becomes pieces of device code. Calls need the index of what they call:
`Lowering.compile` compiles a method on demand and tells its index. Operands that wait for the link
are recorded in the registry as soon as their instruction is lowered.
-/

namespace DeviceCode

/-- The method whose body is lowered. -/
structure Lowering where
  context : BuildContext
  /-- Compiles the method with that id for those type arguments, unless it is in the registry, and
  gives its index. -/
  compile : MethodId → List TypeRef → RegistryM Nat
  /-- The index of the method, and its signature. -/
  index : Nat
  name : String
  typeArgs : List TypeRef
  args : SlotList
  locals : SlotList
  code : Array Instruction

/-- What an instruction becomes. -/
structure LoweredOp where
  pieces : List Piece
  site : Site := .plain
  /-- A 64-bit type that its operand brings in. -/
  wide : Option Primitive := none
  /-- The method that it calls. -/
  callee : Option Nat := none

/-- What the instructions of a body have become so far. -/
structure LoweredBody where
  pieces : Array (List Piece) := #[]
  sites : Array Site := #[]
  callees : List Nat := []
  /-- The first 64-bit type. -/
  wide : Option Primitive := none

def TypeRef.wide? : TypeRef → Option Primitive
  | .primitive p => if p.isWide then some p else none
  | _ => none

namespace Lowering

def program (l : Lowering) : Program := l.context.program

def point (l : Lowering) (index : Nat) : CodePoint :=
  { method := l.name, offset := index, line := nearestLine l.code index }

/-! ## Calls -/

def instantiate (l : Lowering) (m : MethodRef) : MethodRef :=
  { m with owner := m.owner.substitute l.typeArgs }

/-- What a call reaches: a builtin by its signature, or a method of the program. -/
def resolveCall (l : Lowering) (m : MethodRef) : RegistryM CallTarget := do
  let signature := m.signature l.program
  match l.context.builtins.lookup? signature with
  | some id => return .builtin id
  | none =>
    let resolved ← MonadExcept.ofExcept (l.program.resolveMethod m)
    let isExtern := match l.program.typeDef? resolved.method.declaring with
      | some d => d.isExtern
      | none => false
    if isExtern then throw (.unresolvableReference "runtime-library method" signature)
    if resolved.method.body.isNone then throw (.unresolvableReference "method body" signature)
    return .user (← l.compile resolved.id resolved.declaringArgs)

/-- What a virtual call reaches: abstract and virtual methods and those of interfaces through a
slot, all others directly. -/
def resolveVirtualCall (l : Lowering) (m : MethodRef) : RegistryM CallTarget := do
  match l.context.builtins.lookup? (m.signature l.program) with
  | some id => return .builtin id
  | none =>
    let resolved ← MonadExcept.ofExcept (l.program.resolveMethod m)
    let method := resolved.method
    let throughInterface := match l.program.typeDef? method.declaring with
      | some d => d.isInterface
      | none => false
    if method.isAbstract || method.isVirtual || throughInterface then
      return .slot (← Registry.internSlot
        { key := method.signature l.program resolved.declaringArgs
          method := resolved.id
          owner := .named method.declaring resolved.declaringArgs
          params := method.params.length })
    else l.resolveCall m

def checkIndex : CallTarget → RegistryM Unit
  | .user index => if index < 65536 then pure () else throw (.limitExceeded "method registry" 65535)
  | _ => pure ()

def callPieces (target : CallTarget) : RegistryM (List Piece) :=
  match target with
  | .builtin id => return [.opcode .callBuiltin, .word id]
  | .user index => return [.opcode .call, .word index.toUInt16]
  | .slot index => do
    let key := match (← get).slots[index]? with
      | some slot => slot.key
      | none => ""
    return [.opcode .callvirtSlot, .link (.dispatchIndex key)]

def calleeOf : CallTarget → Option Nat
  | .user index => some index
  | _ => none

def narrowedType (storage : Option Storage) (type : TypeRef) : Option Primitive :=
  match storage with
  | some s => if s.narrowed then type.wide? else none
  | none => none

def lowerCall (l : Lowering) (isVirtual : Bool) (m : MethodRef) : RegistryM LoweredOp := do
  let m := l.instantiate m
  let target ← if isVirtual then l.resolveVirtualCall m else l.resolveCall m
  checkIndex target
  let isSlot := match target with
    | .slot _ => true
    | _ => false
  let call ← callPieces target
  let ownerArgs := match m.owner with
    | .named _ args => args
    | _ => []
  let ret := m.ret.substitute ownerArgs
  let storage ← MonadExcept.ofExcept (Storage.ofResult l.program ret)
  return {
    pieces := if isVirtual && !isSlot then .opcode .callvirtDirect :: call else call
    site := .call target m.pops storage
    wide := narrowedType storage ret
    callee := calleeOf target }

def lowerMethodAddress (l : Lowering) (m : MethodRef) : RegistryM LoweredOp := do
  let target ← l.resolveCall (l.instantiate m)
  checkIndex target
  return { pieces := .opcode .ldftn :: (← callPieces target), callee := calleeOf target }

/-! ## Objects and fields -/

/-- The id of a class. Types without a layout have the placeholder for good. -/
def classPiece (l : Lowering) (type : TypeRef) : RegistryM Piece := do
  let hasLayout := match type with
    | .named id _ =>
      match l.program.typeDef? id with
      | some d => LayoutTable.hasInstances d
      | none => false
    | _ => false
  if hasLayout then
    modify (Registry.addLayoutRoot type)
    return .link (.classId (l.program.fullName type))
  else return .word Opcode.placeholder

def lowerClassOp (l : Lowering) (opcode : Opcode) (type : TypeRef) : RegistryM LoweredOp := do
  return { pieces := [.opcode opcode, ← l.classPiece (type.substitute l.typeArgs)] }

/-- An operation on a type by its descriptor, which the type must have. -/
def lowerDescriptorOp (l : Lowering) (opcode : Opcode) (type : TypeRef) : RegistryM LoweredOp := do
  let type := type.substitute l.typeArgs
  let _ ← MonadExcept.ofExcept (DescriptorKey.ofType l.program type)
  return { pieces := [.opcode opcode, .link (.descriptorId type)] }

/-- A new object and the call of its constructor. Objects of the device's own library are allocated
by the device. -/
def lowerNewObject (l : Lowering) (constructor : MethodRef) : RegistryM LoweredOp := do
  let m := l.instantiate constructor
  let target ← l.resolveCall m
  checkIndex target
  let classId ← match target with
    | .user _ => do
      modify (Registry.discoverClass l.program m.owner)
      l.classPiece m.owner
    | _ => pure (.word 0)
  let call ← callPieces target
  let storage ← MonadExcept.ofExcept (Storage.ofType l.program m.owner)
  let ret : Storage := match storage with
    | .value key => .value key
    | _ => .reference
  return {
    pieces := .opcode .newobj :: classId :: call
    site := .call target m.params.length (some ret)
    callee := calleeOf target }

/-- The type or one of its nearest 64 bases is shared with the host. -/
def isHostSurface (p : Program) : (bound : Nat) → TypeId → Bool
  | 0, _ => false
  | n + 1, id =>
    match p.typeDef? id with
    | none => false
    | some d =>
      d.isHostSurface || match d.base with
        | some (.named b _) => isHostSurface p n b
        | _ => false

def fieldOpcode : Access → Opcode
  | .load => .ldfld
  | .address => .ldflda
  | .store => .stfld

def lowerField (l : Lowering) (isStaticOp : Bool) (access : Access) (f : FieldRef) :
    RegistryM LoweredOp := do
  let resolved ← MonadExcept.ofExcept
    (l.program.resolveField { f with owner := f.owner.substitute l.typeArgs })
  let declaring := resolved.declaringType
  let type := resolved.type
  let isStatic := isStaticOp || resolved.field.isStatic
  let host := isHostSurface l.program 65 resolved.declaringId
  let owner := l.program.fullName declaring
  let key := owner ++ "::" ++ resolved.field.name
  let storage ← MonadExcept.ofExcept (Storage.ofType l.program type)
  modify (Registry.recordField
    { key, name := resolved.field.name, declaring, type, isStatic, host })
  unless isStatic || host do
    modify (Registry.discoverClass l.program declaring)
  let flags := (if isStatic || host then Opcode.fieldStatic else 0) |||
    (if host then Opcode.fieldHost else 0)
  let id : Piece :=
    if host then .link (.descriptorId type)
    else if isStatic then .word 0
    else .link (.classId owner)
  return {
    pieces := [.opcode (fieldOpcode access), .byte flags, .link (.fieldOffset key), id]
    site := .field key (isStatic || host) host storage.tag
    wide := narrowedType (some storage) type }

/-! ## The other instructions -/

def slot (l : Lowering) (area : Area) (index : UInt16) : Except CompileError Slot :=
  let (list, what) := match area with
    | .arguments => (l.args, "argument")
    | .locals => (l.locals, "local")
  match list.get? index with
  | some s => .ok s
  | none => .error (.unresolvableReference what (l.name ++ " #" ++ toString index.toNat))

/-- The code of a slot access; storing to a local variable names its tag too. -/
def slotPieces (area : Area) (access : Access) (s : Slot) : List Piece :=
  match area, access with
  | .arguments, .load => [.opcode .ldarg, .word s.offset]
  | .arguments, .address => [.opcode .ldarga, .word s.offset]
  | .arguments, .store => [.opcode .starg, .word s.offset]
  | .locals, .load => [.opcode .ldloc, .word s.offset]
  | .locals, .address => [.opcode .ldloca, .word s.offset]
  | .locals, .store => [.opcode .stloc, .byte s.tag.id, .word s.offset]

def constantOp : Constant → LoweredOp
  | .i4 v => { pieces := pieces .i32 v.toUInt32 }
  | .i8 v => { pieces := pieces .i32 v.toInt32.toUInt32, wide := some .i64 }
  | .r4 bits => { pieces := pieces .f32 bits }
  | .r8 bits => { pieces := pieces .f32 (Binary32.ofBinary64 bits), wide := some .f64 }
where
  pieces (tag : Tag) (word : UInt32) : List Piece :=
    [.opcode .ldc, .byte tag.id, .bytes (Word.bytes32 word)]

def textPieces (s : String) : Except CompileError (List Piece) :=
  let bytes := Text.utf8 s
  match word16? bytes.length with
  | some length => .ok [.opcode .ldstr, .word length, .bytes bytes]
  | none => .error (.limitExceeded "string literal length" 65535)

def switchPieces (targets : List UInt64) : Except CompileError (List Piece) :=
  match word16? targets.length with
  | some count => .ok (.opcode .switch :: .word count :: targets.map fun t => .branch t.toNat)
  | none => .error (.limitExceeded "switch targets" 65535)

def pointeeOp (opcode : Opcode) : Option Primitive → LoweredOp
  | some p =>
    { pieces := [.opcode opcode, .byte (Tag.ofPrimitive p).id]
      wide := if p.isWide then some p else none }
  | none => { pieces := [.opcode opcode, .byte Tag.reference.id] }

/-- An array element by its tag; whatever is no scalar is taken for a reference. -/
def elementOp (l : Lowering) (opcode : Opcode) : ElementKind → Except CompileError LoweredOp
  | .primitive p => .ok (pointeeOp opcode (some p))
  | .reference => .ok { pieces := [.opcode opcode, .byte Opcode.elementReference] }
  | .any type => do
    let type := type.substitute l.typeArgs
    match ← Storage.ofType l.program type with
    | .scalar tag narrowed =>
      return { pieces := [.opcode opcode, .byte tag.id]
               wide := if narrowed then type.wide? else none }
    | _ => return { pieces := [.opcode opcode, .byte Opcode.elementReference] }

def indirectPieces (params : UInt16) (returns : Bool) : Except CompileError (List Piece) :=
  if params.toNat < 256 then
    .ok [.opcode .calli, .byte params.toUInt8, .byte returns.toUInt8]
  else .error (.limitExceeded "indirect call parameters" 255)

/-- The instructions that need neither the registry nor a layout. -/
def lowerPlain (l : Lowering) (index : Nat) (op : Op) : Except CompileError LoweredOp :=
  match op with
  | .nop => .ok { pieces := [.opcode .nop] }
  | .slot area access n => do
    return { pieces := slotPieces area access (← l.slot area n) }
  | .const c => .ok (constantOp c)
  | .null => .ok { pieces := [.opcode .ldnull] }
  | .text s => return { pieces := ← textPieces s }
  | .dup => .ok { pieces := [.opcode .dup] }
  | .pop => .ok { pieces := [.opcode .pop] }
  | .ret => .ok { pieces := [.opcode .ret] }
  | .jump t => .ok { pieces := [.opcode .br, .branch t.toNat] }
  | .jumpIf sense t =>
    .ok { pieces := [.opcode (if sense then .brtrue else .brfalse), .branch t.toNat] }
  | .jumpCmp cmp unsigned t =>
    .ok { pieces := [.opcode (.branch (cmp.branchTest unsigned)), .branch t.toNat] }
  | .switch targets => return { pieces := ← switchPieces targets }
  | .loadThrough pointee => .ok (pointeeOp .ldind pointee)
  | .storeThrough pointee => .ok (pointeeOp .stind pointee)
  | .binary b => .ok { pieces := [.opcode .arith, .byte b.byte] }
  | .neg => .ok { pieces := [.opcode .neg] }
  | .not => .ok { pieces := [.opcode .not] }
  | .conv p =>
    .ok { pieces := [.opcode (.conv p.conversion)], wide := if p.isWide then some p else none }
  | .convUnsignedToFloat => .ok { pieces := [.opcode (.conv .fromUnsigned)] }
  | .compare relation unsigned =>
    .ok { pieces := [.opcode (.compare (relation.valueTest unsigned))] }
  | .arrayLength => .ok { pieces := [.opcode .ldlen] }
  | .loadElement kind => l.elementOp .ldelem kind
  | .storeElement kind => l.elementOp .stelem kind
  | .callIndirect params returns => return { pieces := ← indirectPieces params returns }
  | op => .error (.unsupportedInstruction (l.point index) op.mnemonic)

def lowerOp (l : Lowering) (index : Nat) (op : Op) : RegistryM LoweredOp :=
  match op with
  | .methodAddress m => l.lowerMethodAddress m
  | .initObject type => l.lowerClassOp .initobj type
  | .castClass type => l.lowerClassOp .castclass type
  | .newObject m => l.lowerNewObject m
  | .box type => l.lowerDescriptorOp .box type
  | .unbox type => l.lowerDescriptorOp .unbox type
  | .newArray type => l.lowerDescriptorOp .newarr type
  | .elementAddress type => l.lowerDescriptorOp .ldelema type
  | .field isStatic access f => l.lowerField isStatic access f
  | .call isVirtual m => l.lowerCall isVirtual m
  | op => MonadExcept.ofExcept (l.lowerPlain index op)

/-! ## The body -/

def fixupsOf (l : Lowering) (index : Nat) (pieces : List Piece) : List Fixup :=
  (Piece.links 0 pieces).map fun (position, operand) =>
    { method := l.index, chunk := index, position, operand }

def addCallee (callees : List Nat) : Option Nat → List Nat
  | some index => if callees.contains index then callees else callees ++ [index]
  | none => callees

/-- Lowers the instruction at a position and records the operands that wait for the link. -/
def lowerNext (l : Lowering) (body : LoweredBody) (item : Instruction × Nat) :
    RegistryM LoweredBody := do
  let (instruction, index) := item
  let lowered ← l.lowerOp index instruction.op
  modify fun r => { r with fixups := r.fixups ++ l.fixupsOf index lowered.pieces }
  return {
    pieces := body.pieces.push lowered.pieces
    sites := body.sites.push lowered.site
    callees := addCallee body.callees lowered.callee
    wide := body.wide <|> lowered.wide }

def lowerBody (l : Lowering) : RegistryM LoweredBody :=
  l.code.toList.zipIdx.foldlM l.lowerNext {}

/-- The byte offset of a branch target, for a branch at a position. -/
def branchOffset (l : Lowering) (offsets : Array Nat) (index target : Nat) :
    Except CompileError UInt16 :=
  match offsets[target]? with
  | none => .error (.branchOutOfRange (l.point index) target)
  | some offset =>
    match word16? offset with
    | some w => .ok w
    | none => .error (.limitExceeded "method code size" 65535)

def assemble (l : Lowering) (body : LoweredBody) : Except CompileError (Array Chunk) := do
  let offsets := (Chunk.offsets body.pieces.toList).toArray
  let chunks ← (body.pieces.toList.zip offsets.toList).zipIdx.mapM fun ((pieces, offset), index) =>
    Chunk.ofPieces (l.branchOffset offsets index) offset pieces
  return chunks.toArray

end Lowering

end DeviceCode
