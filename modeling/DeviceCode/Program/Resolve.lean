import DeviceCode.CompileError
import DeviceCode.Program

/-!
# Resolving operands

Fields and methods are looked up on the type that an operand names and then on its bases, with the
type arguments carried along. The walk up the bases is bounded, so a cyclic declaration ends it.
-/

namespace DeviceCode

/-- A field together with the instantiated type that declares it. -/
structure ResolvedField where
  declaring : TypeDef
  declaringId : TypeId
  declaringArgs : List TypeRef
  field : FieldDef
  deriving Inhabited

namespace ResolvedField

def declaringType (r : ResolvedField) : TypeRef := .named r.declaringId r.declaringArgs

def type (r : ResolvedField) : TypeRef := r.field.type.substitute r.declaringArgs

end ResolvedField

/-- A method together with the arguments of the type that declares it. -/
structure ResolvedMethod where
  id : MethodId
  method : MethodDef
  declaringArgs : List TypeRef
  deriving Inhabited

namespace Program

/-- Looks for the field on at most `bound` types, from `owner` up through the bases. -/
def findField (p : Program) (name : String) :
    (bound : Nat) → (owner : TypeRef) → Option ResolvedField
  | 0, _ => none
  | n + 1, .named id args => do
    let d ← p.typeDef? id
    match d.fields.find? (·.name == name) with
    | some f => some { declaring := d, declaringId := id, declaringArgs := args, field := f }
    | none => p.findField name n ((← d.base).substitute args)
  | _ + 1, _ => none

/-- The field that an operand names, on the owner or one of its nearest 64 bases. -/
def resolveField (p : Program) (f : FieldRef) : Except CompileError ResolvedField :=
  match p.findField f.name 65 f.owner with
  | some r => .ok r
  | none => .error (.unresolvableReference "field" (p.fullName f.owner ++ "::" ++ f.name))

/-- The first method of the type that has the name and the parameters. -/
def declaredMethod (p : Program) (d : TypeDef) (name : String) (params : List TypeRef) :
    Option (MethodId × MethodDef) :=
  d.methods.findSome? fun id =>
    match p.methodDef? id with
    | some m => if m.name == name && m.params == params then some (id, m) else none
    | none => none

/-- Looks for the method on at most `bound` types, from `owner` up through the bases. -/
def findOverload (p : Program) (name : String) (params : List TypeRef) :
    (bound : Nat) → (owner : TypeRef) → Option ResolvedMethod
  | 0, _ => none
  | n + 1, .named id args => do
    let d ← p.typeDef? id
    match p.declaredMethod d name params with
    | some (mid, m) => some { id := mid, method := m, declaringArgs := args }
    | none => p.findOverload name params n ((← d.base).substitute args)
  | _ + 1, _ => none

/-- The method that an operand names, on the owner or one of its nearest 63 bases. Parameters are
compared in declared form. -/
def resolveMethod (p : Program) (m : MethodRef) : Except CompileError ResolvedMethod :=
  match p.findOverload m.name m.params 64 m.owner with
  | some r => .ok r
  | none => .error (.unresolvableReference "method" (p.fullName m.owner ++ "." ++ m.name))

def baseId? (p : Program) (id : TypeId) : Option TypeId :=
  match (p.typeDef? id).bind (·.base) with
  | some (.named b _) => some b
  | _ => none

def derivesWithin (p : Program) (target : TypeId) : (bound : Nat) → TypeId → Bool
  | 0, _ => false
  | n + 1, id =>
    id == target || match p.baseId? id with
      | some b => p.derivesWithin target n b
      | none => false

def derivesFrom (p : Program) (id target : TypeId) : Bool := p.derivesWithin target 65 id

end Program

end DeviceCode
