import DeviceCode.Instruction
import DeviceCode.Text

/-!
# Programs

A program is a table of types and a table of methods that refer to each other by position.
`Program.fullName` gives a type its full name, which serves as its key in every later table, and
`Program.shortName` the name that stands in signatures.
-/

namespace DeviceCode

inductive TypeKind where
  | classType
  | structType
  | interfaceType
  | enumType (underlying : Primitive)
  deriving DecidableEq, Inhabited

structure FieldDef where
  name : String
  type : TypeRef
  isStatic : Bool := false
  deriving DecidableEq, Inhabited

structure TypeDef where
  /-- The name with its namespace. -/
  name : String
  kind : TypeKind := .classType
  base : Option TypeRef := none
  interfaces : List TypeRef := []
  genericParams : UInt16 := 0
  isAbstract : Bool := false
  /-- The type lives in the device's own library: its methods can be reached only as builtins. -/
  isExtern : Bool := false
  /-- The fields of this type and of the types that derive from it are shared with the host. -/
  isHostSurface : Bool := false
  fields : List FieldDef := []
  methods : List MethodId := []
  deriving DecidableEq, Inhabited

structure Body where
  locals : List TypeRef := []
  code : Array Instruction := #[]
  deriving DecidableEq, Inhabited

structure MethodDef where
  name : String
  declaring : TypeId
  params : List TypeRef := []
  ret : TypeRef := .void
  isStatic : Bool := false
  isAbstract : Bool := false
  isVirtual : Bool := false
  /-- Methods that this one overrides by declaration, whatever their names. -/
  overrides : List MethodId := []
  /-- The build fails unless the method can be written in C. -/
  requiresNative : Bool := false
  body : Option Body := none
  deriving DecidableEq, Inhabited

structure Program where
  types : Array TypeDef := #[]
  methods : Array MethodDef := #[]
  deriving DecidableEq, Inhabited

namespace TypeDef

def simpleName (d : TypeDef) : String := Text.afterLast '.' d.name

def isValueType (d : TypeDef) : Bool := d.kind == .structType

def isInterface (d : TypeDef) : Bool := d.kind == .interfaceType

end TypeDef

namespace Program

def typeDef? (p : Program) (id : TypeId) : Option TypeDef := p.types[id.index]?

def methodDef? (p : Program) (id : MethodId) : Option MethodDef := p.methods[id.index]?

/-! ## Names of types -/

/-- How the parts of a type name are spelled. -/
structure Spelling where
  string : String
  object : String
  ofDef : TypeDef → String

def fullSpelling : Spelling where
  string := "System.String"
  object := "System.Object"
  ofDef := TypeDef.name

def shortSpelling : Spelling where
  string := "String"
  object := "Object"
  ofDef := TypeDef.simpleName

mutual

/-- The name of a type. An unknown type is written `?` and its position. -/
def typeName (p : Program) (s : Spelling) : TypeRef → String
  | .void => "Void"
  | .primitive q => q.name
  | .string => s.string
  | .object => s.object
  | .array t => typeName p s t ++ "[]"
  | .byRef t => typeName p s t ++ "&"
  | .pointer t => typeName p s t ++ "*"
  | .param i => "T" ++ toString i.toNat
  | .named id args =>
    let name := match p.typeDef? id with
      | some d => s.ofDef d
      | none => "?" ++ toString id.index
    if args.isEmpty then name else name ++ "<" ++ Text.join ", " (typeNames p s args) ++ ">"

def typeNames (p : Program) (s : Spelling) : List TypeRef → List String
  | [] => []
  | t :: ts => typeName p s t :: typeNames p s ts

end

def fullName (p : Program) (t : TypeRef) : String := p.typeName fullSpelling t

def shortName (p : Program) (t : TypeRef) : String := p.typeName shortSpelling t

/-! ## Finding definitions by name -/

def findType? (p : Program) (name : String) : Option TypeId :=
  (p.types.findIdx? (·.name == name)).map fun i => ⟨i.toUInt32⟩

def typeIds (p : Program) : List TypeId := (List.range p.types.size).map fun i => ⟨i.toUInt32⟩

/-- Why an entry point cannot be named. -/
inductive LookupError where
  /-- No method has the name. -/
  | notFound
  /-- The program refers to a type or a method that it does not hold. -/
  | dangling
  deriving DecidableEq, Inhabited

def firstNamed (p : Program) (name : String) : List MethodId → Except LookupError MethodId
  | [] => .error .notFound
  | id :: ids =>
    match p.methodDef? id with
    | none => .error .dangling
    | some m => if m.name == name then .ok id else firstNamed p name ids

def findMethod (p : Program) (qualified : String) : Except LookupError MethodId :=
  match Text.splitLast? '.' qualified with
  | none => .error .notFound
  | some (type, name) =>
    match (p.findType? type).bind p.typeDef? with
    | none => .error .notFound
    | some d => p.firstNamed name d.methods

/-- The operand with which a call would name the method, in its own declared form. -/
def methodRef (p : Program) (id : MethodId) : Except LookupError MethodRef :=
  match p.methodDef? id with
  | none => .error .dangling
  | some m =>
    match p.typeDef? m.declaring with
    | none => .error .dangling
    | some d =>
      .ok { owner := .named m.declaring (TypeRef.params d.genericParams)
            name := m.name, params := m.params, ret := m.ret, hasThis := !m.isStatic }

end Program

end DeviceCode
