import DeviceCode.Builtin
import DeviceCode.CUnit.Syntax
import DeviceCode.Chunk
import DeviceCode.Decimal
import DeviceCode.Layout
import DeviceCode.StackProfile

/-!
# The registry of a build

What a build has found so far: the methods by index, the virtual slots by index, the fields and
classes in use, and the operands that wait for the link. Methods and slots are known by their
signatures. A computation on the registry leaves its changes behind even where it fails.
-/

namespace DeviceCode

/-- What to do with 64-bit values. -/
inductive WidePolicy where
  /-- Narrow them silently. -/
  | narrow
  /-- Narrow them with one warning for each method. -/
  | warn
  /-- Refuse to build. -/
  | reject
  deriving DecidableEq, Inhabited

structure BuildOptions where
  /-- The scan interval of the image, in microseconds. -/
  scanInterval : UInt32 := 1000
  wideValues : WidePolicy := .warn
  /-- A bound on the pairs of slot and class that the link looks at. -/
  maxLinkIterations : Nat := 10000
  emitC : Bool := true
  extraBuiltins : List String := []
  deriving DecidableEq, Inhabited

/-- What a build starts from. -/
structure BuildContext where
  program : Program
  options : BuildOptions := {}
  builtins : BuiltinTable := BuiltinTable.withExtra options.extraBuiltins

/-- What a call reaches. -/
inductive CallTarget where
  | builtin (id : UInt16)
  | user (index : Nat)
  | slot (index : Nat)
  deriving DecidableEq, Inhabited

/-- What lowering found out about the operand of an instruction. -/
inductive Site where
  | plain
  | call (target : CallTarget) (pops : Nat) (ret : Option Storage)
  | field (key : String) (inStaticRegion host : Bool) (tag : Tag)
  deriving DecidableEq, Inhabited

/-- Why a method cannot be written in C. -/
inductive CObstacle where
  | underflow
  | cyclicOperands
  | argumentOutOfRange (index : UInt16)
  | argumentNotScalar (index : UInt16)
  | localOutOfRange (index : UInt16)
  | localNotScalar (index : UInt16)
  | staticWithoutSlot (key : String)
  | staticNotScalar (key : String)
  | hostField (key : String)
  | unsupported (mnemonic : String)
  | structuredReturn
  | handleArithmetic
  | handleConversion
  | handleOrdering
  | complementOf (type : CType)
  | unsignedConversionOf (type : CType)
  | floatBits
  | nonFinite (bits : UInt32)
  | virtualDispatch
  | builtinWithoutSymbol (name : String)
  | builtinWithoutResult (symbol : String)
  | builtinNotScalar (symbol : String)
  | handleToBuiltin (symbol : String)
  | unknownMethod (index : Nat)
  | callsBlocked (name : String) (reason : CObstacle)
  | reachesBlocked (name : String)
  | returnsNonScalar (name : String)
  | returnsStructure (name : String)
  | takesNonScalar (name : String)
  | typesDisagree (index : Nat) (known found : List CType)
  deriving DecidableEq, Inhabited

namespace CObstacle

def message : CObstacle → String
  | underflow => "operand stack underflow"
  | cyclicOperands => "cyclic operand dependency"
  | argumentOutOfRange index => "argument " ++ toString index.toNat ++ " out of range"
  | argumentNotScalar index => "argument " ++ toString index.toNat ++ " is not a scalar"
  | localOutOfRange index => "local " ++ toString index.toNat ++ " out of range"
  | localNotScalar index => "local " ++ toString index.toNat ++ " is not a scalar"
  | staticWithoutSlot key => "static field " ++ key ++ " has no slot"
  | staticNotScalar key => "static field " ++ key ++ " is not a scalar"
  | hostField key => "host field " ++ key ++ " is not visible to C code"
  | unsupported mnemonic => "instruction `" ++ mnemonic ++ "` has no C equivalent"
  | structuredReturn => "structured return value"
  | handleArithmetic => "arithmetic on an object handle"
  | handleConversion => "conversion of an object handle"
  | handleOrdering => "ordering of object handles"
  | complementOf type => "bitwise not on " ++ type.name
  | unsignedConversionOf type => "unsigned conversion of " ++ type.name
  | floatBits => "bitwise operation on a float"
  | nonFinite bits => "non-finite constant " ++ Binary32.text bits
  | virtualDispatch => "virtual dispatch"
  | builtinWithoutSymbol name => "runtime method " ++ name ++ " has no C equivalent"
  | builtinWithoutResult symbol => "runtime method " ++ symbol ++ " has no result"
  | builtinNotScalar symbol => symbol ++ " has no scalar result"
  | handleToBuiltin symbol => "object handle passed to " ++ symbol
  | unknownMethod index => "unknown method #" ++ toString index
  | callsBlocked name reason =>
    "calls " ++ name ++ ", which is not transpilable (" ++ reason.message ++ ")"
  | reachesBlocked name => "calls " ++ name ++ ", which is not transpilable"
  | returnsNonScalar name => name ++ " returns a non-scalar"
  | returnsStructure name => name ++ " returns a structured value"
  | takesNonScalar name => name ++ " takes a non-scalar argument"
  | typesDisagree index known found =>
    "operand types disagree at " ++ instructionLabel index ++ ": " ++ typeList known ++ " vs " ++
      typeList found
where
  typeList (types : List CType) : String := "[" ++ Text.join ", " (types.map CType.name) ++ "]"

end CObstacle

/-- The operand types at the entry of each instruction that can be reached, and the instructions
that get a label. -/
structure CPlan where
  entries : Array (Option (List CType))
  labels : Array Bool
  deriving DecidableEq, Inhabited

namespace CPlan

def entry? (p : CPlan) (index : Nat) : Option (List CType) := p.entries[index]?.join

def isLabel (p : CPlan) (index : Nat) : Bool := p.labels[index]?.getD false

end CPlan

/-- Whether a method can be written in C: undecided until its body is lowered. -/
inductive CStatus where
  | undecided
  | planned (plan : CPlan)
  | blocked (reason : CObstacle)
  deriving DecidableEq, Inhabited

namespace CStatus

def plan? : CStatus → Option CPlan
  | planned p => some p
  | _ => none

def reason? : CStatus → Option CObstacle
  | blocked r => some r
  | _ => none

def isBlocked (s : CStatus) : Bool := s.reason?.isSome

end CStatus

/-- A method of the build, for one choice of type arguments. Code, profile and plan are there once
the body is lowered. -/
structure CompiledMethod where
  /-- The signature with its type arguments. -/
  name : String
  method : MethodId
  typeArgs : List TypeRef
  args : SlotList
  locals : SlotList
  ret : Option Storage
  lines : Array (Option UInt32)
  requiresNative : Bool
  maxStack : UInt16 := 0
  chunks : Array Chunk := #[]
  sites : Array Site := #[]
  profile : StackProfile := {}
  /-- The indices of the methods that it calls, in the order of the first calls. -/
  callees : List Nat := []
  cStatus : CStatus := .undecided
  deriving DecidableEq, Inhabited

namespace CompiledMethod

def codeLength (m : CompiledMethod) : Nat :=
  match m.chunks.back? with
  | some c => c.offset + c.bytes.length
  | none => 0

def code (m : CompiledMethod) : List UInt8 := m.chunks.toList.flatMap (·.bytes)

end CompiledMethod

/-- A method that is called through dispatch. -/
structure VirtualSlot where
  key : String
  method : MethodId
  /-- The instantiated type that declares the method. -/
  owner : TypeRef
  params : Nat
  /-- The classes that implement it, by key, and the methods that they run. -/
  implementors : List (String × Nat) := []
  deriving DecidableEq, Inhabited

/-- An operand that waits for the link: a word at a position of a chunk. -/
structure Fixup where
  method : Nat
  chunk : Nat
  position : Nat
  operand : LinkOperand
  deriving DecidableEq, Inhabited

structure Registry where
  methods : Array CompiledMethod := #[]
  /-- The fields in use, by key. -/
  fields : Array FieldUse := #[]
  /-- The classes that have instances, each with its key, in the order of discovery. -/
  classes : Array (String × TypeRef) := #[]
  /-- Types that need a layout without having instances. -/
  layoutRoots : Array TypeRef := #[]
  slots : Array VirtualSlot := #[]
  fixups : Array Fixup := #[]
  warnings : Array Diagnostic := #[]
  deriving DecidableEq, Inhabited

abbrev RegistryM := EStateM CompileError Registry

namespace Registry

def methodIndex? (r : Registry) (name : String) : Option Nat := r.methods.findIdx? (·.name == name)

def slotIndex? (r : Registry) (key : String) : Option Nat := r.slots.findIdx? (·.key == key)

def discoverClass (p : Program) (type : TypeRef) (r : Registry) : Registry :=
  let key := p.fullName type
  if r.classes.any (·.1 == key) then r else { r with classes := r.classes.push (key, type) }

def addLayoutRoot (type : TypeRef) (r : Registry) : Registry :=
  if r.layoutRoots.contains type then r
  else { r with layoutRoots := r.layoutRoots.push type }

def recordField (f : FieldUse) (r : Registry) : Registry :=
  if r.fields.any (·.key == f.key) then r else { r with fields := r.fields.push f }

def modifyMethod (index : Nat) (f : CompiledMethod → CompiledMethod) (r : Registry) : Registry :=
  { r with methods := r.methods.modify index f }

/-- Notes why a method cannot be written in C; the first reason stands. -/
def block (index : Nat) (reason : CObstacle) (r : Registry) : Registry :=
  r.modifyMethod index fun m =>
    if m.cStatus.isBlocked then m else { m with cStatus := .blocked reason }

/-- The index of the slot with that key, which is a new one if need be. -/
def internSlot (slot : VirtualSlot) : RegistryM Nat := do
  let r ← get
  match r.slotIndex? slot.key with
  | some index => return index
  | none =>
    set { r with slots := r.slots.push slot }
    return r.slots.size

end Registry

/-- The signature of a method for the arguments of its declaring type. -/
def MethodDef.signature (p : Program) (m : MethodDef) (typeArgs : List TypeRef) : String :=
  p.fullName (.named m.declaring typeArgs) ++ "." ++ m.name ++ "(" ++
    Text.join ", " (m.params.map fun t => p.shortName (t.substitute typeArgs)) ++ ")"

/-- The line of the instruction, or of the nearest one before it that has a line. -/
def nearestLine (code : Array Instruction) (index : Nat) : Option UInt32 :=
  (code.toList.take (index + 1)).reverse.findSome? (·.line)

end DeviceCode
