import DeviceCode.Slot

/-!
# Layouts

Where fields live: static and host fields in the static region, instance fields in the layout of
their class. A class is known by its key, the full name of its type, and its id is its position in
the table. A field is known by its key as well: `LayoutTable.fieldOffset?` gives its offset in its
region.
-/

namespace DeviceCode

/-- A field that compiled code refers to, with its type instantiated. -/
structure FieldUse where
  key : String
  name : String
  declaring : TypeRef
  type : TypeRef
  isStatic : Bool
  /-- Shared with the host, and so in the static region. -/
  host : Bool
  deriving DecidableEq, Inhabited

def FieldUse.inStaticRegion (f : FieldUse) : Bool := f.isStatic || f.host

/-- An instance field in a class layout. -/
structure FieldSlot where
  key : String
  name : String
  offset : UInt16
  tag : Tag
  /-- The key of the structure that the field embeds. -/
  valueClass : Option String
  deriving DecidableEq, Inhabited

structure ClassLayout where
  key : String
  type : TypeRef
  /-- The key of the base that the layout extends. -/
  base : Option String
  size : UInt16
  fields : Array FieldSlot
  deriving DecidableEq, Inhabited

def ClassLayout.field? (c : ClassLayout) (key : String) : Option FieldSlot :=
  c.fields.find? (·.key == key)

structure StaticField where
  key : String
  name : String
  offset : UInt16
  tag : Tag
  type : TypeRef
  host : Bool
  descriptor : Option UInt16 := none
  deriving DecidableEq, Inhabited

structure LayoutTable where
  classes : Array ClassLayout := #[]
  statics : Array StaticField := #[]
  /-- The bytes of the static region. -/
  staticSize : Nat := 0
  /-- The instance fields in use, each under the key of its class. -/
  ownFields : List (String × FieldUse) := []
  /-- The keys of the classes that are being laid out, and of those where that failed. -/
  inProgress : List String := []
  deriving DecidableEq, Inhabited

namespace LayoutTable

def classId? (t : LayoutTable) (key : String) : Option Nat := t.classes.findIdx? (·.key == key)

def class? (t : LayoutTable) (key : String) : Option ClassLayout := t.classes.find? (·.key == key)

def staticField? (t : LayoutTable) (key : String) : Option StaticField :=
  t.statics.find? (·.key == key)

/-- The offset of the field in its region. A class that extends another has its fields at the same
offsets, so the first class that holds the field tells. -/
def fieldOffset? (t : LayoutTable) (key : String) : Option UInt16 :=
  match t.staticField? key with
  | some f => some f.offset
  | none => (t.classes.findSome? (·.field? key)).map (·.offset)

def setStaticDescriptor (t : LayoutTable) (index : Nat) (id : UInt16) : LayoutTable :=
  { t with statics := t.statics.modify index fun f => { f with descriptor := some id } }

/-! ## The static region -/

/-- The types that the host understands: primitives, enumerations, strings, arrays of primitives. -/
def isHostType (p : Program) : TypeRef → Bool
  | .primitive _ | .string | .array (.primitive _) => true
  | .named id _ =>
    match p.typeDef? id with
    | some { kind := .enumType _, .. } => true
    | _ => false
  | _ => false

/-- Gives the field a place at the end of the static region, unless it has one. -/
def addStatic (p : Program) (t : LayoutTable) (f : FieldUse) : Except CompileError LayoutTable := do
  if (t.staticField? f.key).isSome then return t
  if f.host && !isHostType p f.type then
    throw (.invalidHostField f.key (p.fullName f.type))
  let storage ← Storage.ofType p f.type
  match word16? t.staticSize with
  | none => throw (.limitExceeded "static region" 65535)
  | some offset =>
    return { t with
      statics := t.statics.push
        { key := f.key, name := f.name, offset, tag := storage.tag, type := f.type, host := f.host }
      staticSize := t.staticSize + storage.tag.slotSize }

/-- Where a field is declared: by its type, then by its position in it. Fields of other than named
types come first, and unknown fields after all others of their type. -/
structure DeclarationOrder where
  type : Option TypeId
  position : Option Nat
  key : String

def declarationOrder (p : Program) (f : FieldUse) : DeclarationOrder :=
  match f.declaring with
  | .named id _ =>
    { type := some id
      position := (p.typeDef? id).bind fun d => d.fields.findIdx? (·.name == f.name)
      key := f.key }
  | _ => { type := none, position := none, key := f.key }

namespace DeclarationOrder

def typeRank (o : DeclarationOrder) : Nat :=
  match o.type with
  | none => 0
  | some id => id.index + 1

def le (a b : DeclarationOrder) : Bool :=
  if a.typeRank ≠ b.typeRank then a.typeRank < b.typeRank
  else
    match a.position, b.position with
    | some i, some j => if i ≠ j then i < j else a.key ≤ b.key
    | some _, none => true
    | none, some _ => false
    | none, none => a.key ≤ b.key

end DeclarationOrder

def insertOrdered {α : Type} (le : α → α → Bool) (x : α) : List α → List α
  | [] => [x]
  | y :: ys => if le x y then x :: y :: ys else y :: insertOrdered le x ys

def sortBy {α : Type} (le : α → α → Bool) (xs : List α) : List α :=
  xs.foldr (insertOrdered le) []

def staticUses (p : Program) (uses : List FieldUse) : List FieldUse :=
  let keyed := (uses.filter (·.inStaticRegion)).map fun f => (declarationOrder p f, f)
  (sortBy (fun a b => a.1.le b.1) keyed).map (·.2)

def addOwnField (p : Program) (own : List (String × FieldUse)) (f : FieldUse) :
    List (String × FieldUse) :=
  let owner := p.fullName f.declaring
  if own.any fun e => e.1 == owner && e.2.key == f.key then own else own ++ [(owner, f)]

end LayoutTable

end DeviceCode
