import DeviceCode.Program

/-!
# Building programs

Programs grow by one type, field or method at a time. Adding to an owner that is not a type of the
program gives `none`.
-/

namespace DeviceCode

def MethodDef.makeAbstract (m : MethodDef) : MethodDef :=
  { m with isAbstract := true, isVirtual := true }

namespace Program

def addType (p : Program) (d : TypeDef) : Program × TypeId :=
  ({ p with types := p.types.push d }, ⟨p.types.size.toUInt32⟩)

def addInterface (p : Program) (name : String) : Program × TypeId :=
  p.addType { name, kind := .interfaceType, isAbstract := true }

/-- Adds a field and tells how an operand names it through its declaring type. -/
def addField (p : Program) (owner : TypeId) (f : FieldDef) : Option (Program × FieldRef) := do
  let d ← p.typeDef? owner
  let types := p.types.setIfInBounds owner.index { d with fields := d.fields ++ [f] }
  some ({ p with types },
    { owner := .named owner (TypeRef.params d.genericParams), name := f.name })

def addMethod (p : Program) (m : MethodDef) : Option (Program × MethodId) := do
  let d ← p.typeDef? m.declaring
  let id : MethodId := ⟨p.methods.size.toUInt32⟩
  let types := p.types.setIfInBounds m.declaring.index { d with methods := d.methods ++ [id] }
  some ({ types, methods := p.methods.push m }, id)

end Program

end DeviceCode
