import DeviceCode.Layout

/-!
# Class layouts

A class is laid out after its base: it starts with the base's fields, so that a field keeps its
offset in every derived class, and its own fields follow end to end. Structures that a field embeds
are laid out as well. Laying out changes the table even where it fails.
-/

namespace DeviceCode

/-- Computations on a layout table; the table outlives a failure. -/
abbrev LayoutM := EStateM CompileError LayoutTable

namespace LayoutTable

/-- Types with instances of their own: classes and structures that live in the program. -/
def hasInstances (d : TypeDef) : Bool :=
  match d.kind with
  | .classType | .structType => !d.isExtern
  | .interfaceType | .enumType _ => false

/-- The fields that the class itself adds: all of a structure, and those in use of a class. -/
def ownUses (t : LayoutTable) (type : TypeRef) (d : TypeDef) (args : List TypeRef) (key : String) :
    List FieldUse :=
  if d.isValueType then
    (d.fields.filter (!·.isStatic)).map fun f =>
      { key := key ++ "::" ++ f.name, name := f.name, declaring := type
        type := f.type.substitute args, isStatic := false, host := false }
  else
    (t.ownFields.filter (·.1 == key)).map (·.2)

/-- Fields laid out so far, and the bytes they take. -/
structure Extent where
  base : Option String := none
  fields : Array FieldSlot := #[]
  size : Nat := 0

def inherited (ensure : TypeRef → LayoutM (Option Nat)) (base : Option TypeRef) :
    LayoutM Extent := do
  match base with
  | none => return {}
  | some b =>
    match ← ensure b with
    | none => return {}
    | some id =>
      match (← get).classes[id]? with
      | none => return {}
      | some c => return { base := some c.key, fields := c.fields, size := c.size.toNat }

def place (p : Program) (ensure : TypeRef → LayoutM (Option Nat)) (e : Extent) (f : FieldUse) :
    LayoutM Extent := do
  let storage ← MonadExcept.ofExcept (Storage.ofType p f.type)
  if storage.valueClass.isSome then
    discard (ensure f.type)
  match word16? e.size with
  | none => throw (.limitExceeded "class instance size" 65535)
  | some offset =>
    return { e with
      fields := e.fields.push
        { key := f.key, name := f.name, offset, tag := storage.tag
          valueClass := storage.valueClass }
      size := e.size + storage.tag.slotSize }

/-- Lays out a class whose base and embedded structures `ensure` lays out. A class that is already
being laid out has no id yet. -/
def layOut (p : Program) (ensure : TypeRef → LayoutM (Option Nat)) (type : TypeRef) :
    LayoutM (Option Nat) := do
  match type with
  | .named id args =>
    let key := p.fullName type
    match (← get).classId? key, p.typeDef? id with
    | some known, _ => return some known
    | none, none => throw (.unresolvableReference "type" key)
    | none, some d =>
      if !hasInstances d || (← get).inProgress.contains key then return none
      modify fun t => { t with inProgress := key :: t.inProgress }
      let start ← inherited ensure (d.base.map (·.substitute args))
      let own := (← get).ownUses type d args key
      let extent ← own.foldlM (place p ensure) start
      match word16? extent.size with
      | none => throw (.limitExceeded "class instance size" 65535)
      | some size =>
        let t ← get
        set { t with
          classes := t.classes.push
            { key, type, base := extent.base, size, fields := extent.fields }
          inProgress := t.inProgress.erase key }
        return some t.classes.size
  | _ => return none

/-- The id of the class, which is laid out first if need be; none for a type without instances.
Generic types can embed ever larger instances of each other: `fuel` bounds the nesting. -/
def ensureClass (p : Program) : (fuel : Nat) → TypeRef → LayoutM (Option Nat)
  | 0, _ => throw .unboundedInstantiation
  | n + 1, type => layOut p (ensureClass p n) type

/-- Enough nesting for every program without generic types, with room for those with them. -/
def nestingBound (p : Program) : Nat := p.types.size + 65536

/-- The static region for the fields in use, then a layout for every root and for every class that
declares an instance field in use. -/
def build (p : Program) (uses : List FieldUse) (roots : List TypeRef) :
    Except CompileError LayoutTable := do
  let statics ← (staticUses p uses).foldlM (addStatic p) {}
  let instances := uses.filter (!·.inStaticRegion)
  let start := { statics with ownFields := instances.foldl (addOwnField p) [] }
  let classes := roots ++ instances.map (·.declaring)
  match (classes.forM fun c => discard (ensureClass p (nestingBound p) c)).run start with
  | .ok _ t => return t
  | .error e _ => throw e

end LayoutTable

end DeviceCode
