import DeviceCode.Layout.Classes

/-!
# Type descriptors

Descriptors tell the device how to allocate a value. Types with the same key share one descriptor.
An id is reserved before the parts of the descriptor are built, so a type that reaches itself finds
its own id.
-/

namespace DeviceCode

/-- What identifies a descriptor: by-refs and pointers are as good as what they point to, and
enumerations as their integers. -/
inductive DescriptorKey where
  | primitive (tag : Tag)
  | string
  | array (element : DescriptorKey)
  | struct (name : String)
  | reference (name : String)
  deriving DecidableEq, Inhabited

def DescriptorKey.ofType (p : Program) : TypeRef → Except CompileError DescriptorKey
  | .byRef t | .pointer t => ofType p t
  | .string => .ok string
  | .array t => (ofType p t).map array
  | .object => .ok (reference "System.Object")
  | .param i => .ok (reference ("T" ++ toString i.toNat))
  | .named id args =>
    match p.typeDef? id with
    | some { kind := .structType, .. } => .ok (struct (p.fullName (.named id args)))
    | some { kind := .enumType q, .. } => .ok (primitive (Tag.ofPrimitive q))
    | _ => .ok (reference (p.fullName (.named id args)))
  | .primitive q => .ok (primitive (Tag.ofPrimitive q))
  | .void => .error (.unresolvableReference "storage for type" "Void")

def TypeRef.pointee : TypeRef → TypeRef
  | .byRef t | .pointer t => t.pointee
  | t => t

structure StructMember where
  name : String
  offset : UInt16
  descriptor : UInt16
  deriving DecidableEq, Inhabited

inductive Descriptor where
  | primitive (tag : Tag)
  | string
  | array (element : UInt16)
  | struct (classId : UInt16) (members : List StructMember)
  | reference
  deriving DecidableEq, Inhabited

def Descriptor.encode : Descriptor → List UInt8
  | primitive tag => [0, tag.id]
  | string => [1]
  | array element => 2 :: Word.bytes16 element
  | struct classId members =>
    3 :: Word.bytes16 classId ++ Word.bytes16 members.length.toUInt16 ++
      members.flatMap fun m => Word.bytes16 m.offset ++ Word.bytes16 m.descriptor
  | reference => [4]

/-- A reserved id: its key, and its descriptor once that is built. -/
structure DescriptorEntry where
  key : DescriptorKey
  descriptor : Option Descriptor := none
  deriving DecidableEq, Inhabited

/-- The descriptors by id. -/
structure DescriptorTable where
  entries : Array DescriptorEntry := #[]
  deriving DecidableEq, Inhabited

namespace DescriptorTable

def idOf? (t : DescriptorTable) (key : DescriptorKey) : Option UInt16 :=
  (t.entries.findIdx? (·.key == key)).map Nat.toUInt16

def get? (t : DescriptorTable) (id : UInt16) : Option Descriptor :=
  t.entries[id.toNat]?.bind (·.descriptor)

def size (t : DescriptorTable) : Nat := t.entries.size

/-- The descriptors in the order of their ids; unfilled reservations are passed over. -/
def toList (t : DescriptorTable) : List Descriptor := t.entries.toList.filterMap (·.descriptor)

end DescriptorTable

/-- The tables that descriptors are built from and into. -/
structure TypeTables where
  layout : LayoutTable := {}
  descriptors : DescriptorTable := {}
  deriving DecidableEq, Inhabited

abbrev TypeTablesM := EStateM CompileError TypeTables

namespace TypeTables

def onLayout {α : Type} (x : LayoutM α) : TypeTablesM α := fun s =>
  match x s.layout with
  | .ok a t => .ok a { s with layout := t }
  | .error e t => .error e { s with layout := t }

def ensureClass (p : Program) (type : TypeRef) : TypeTablesM (Option Nat) :=
  onLayout (LayoutTable.ensureClass p (LayoutTable.nestingBound p) type)

def reserve (key : DescriptorKey) : TypeTablesM UInt16 := do
  let s ← get
  let n := s.descriptors.size
  if n < 65535 then
    set { s with descriptors := { entries := s.descriptors.entries.push { key } } }
    return n.toUInt16
  else
    throw (.limitExceeded "descriptor table" 65534)

/-- The members of a structure: the fields of its class layout with the descriptors of their
types. -/
def members (ensure : TypeRef → TypeTablesM UInt16) (d : Option TypeDef) (args : List TypeRef)
    (fields : List FieldSlot) : TypeTablesM (List StructMember) :=
  fields.mapM fun slot =>
    match d.bind fun d => d.fields.find? (·.name == slot.name) with
    | none => throw (.unresolvableReference "field" slot.key)
    | some f => do
      let id ← ensure (f.type.substitute args)
      return { name := slot.name, offset := slot.offset, descriptor := id }

def structDescriptor (p : Program) (ensure : TypeRef → TypeTablesM UInt16) (type : TypeRef)
    (name : String) : TypeTablesM Descriptor := do
  match ← ensureClass p type with
  | none => throw (.unresolvableReference "struct layout" name)
  | some c =>
    let fields := match (← get).layout.classes[c]? with
      | some l => l.fields.toList
      | none => []
    match type with
    | .named id args =>
      return .struct c.toUInt16 (← members ensure (p.typeDef? id) args fields)
    | _ => return .struct c.toUInt16 []

/-- The descriptor of a type by its key; `ensure` gives the ids of its parts. -/
def build (p : Program) (ensure : TypeRef → TypeTablesM UInt16) (type : TypeRef) :
    DescriptorKey → TypeTablesM Descriptor
  | .primitive tag => return .primitive tag
  | .string => return .string
  | .reference _ => return .reference
  | .array _ =>
    match type.pointee with
    | .array element => return .array (← ensure element)
    | _ => return .reference
  | .struct name => structDescriptor p ensure type.pointee name

/-- The id of the type's descriptor, which is built on first use. Every nested use takes an id of
its own, so `fuel` beyond the number of ids is never used up. -/
def ensureWithin (p : Program) : (fuel : Nat) → TypeRef → TypeTablesM UInt16
  | 0, _ => throw .unboundedInstantiation
  | n + 1, type => do
    let key ← MonadExcept.ofExcept (DescriptorKey.ofType p type)
    match (← get).descriptors.idOf? key with
    | some id => return id
    | none =>
      let id ← reserve key
      let descriptor ← build p (ensureWithin p n) type key
      modify fun s => { s with
        descriptors := { entries := s.descriptors.entries.modify id.toNat fun e =>
          { e with descriptor := some descriptor } } }
      return id

def ensure (p : Program) (type : TypeRef) : TypeTablesM UInt16 := ensureWithin p 65537 type

end TypeTables

end DeviceCode
