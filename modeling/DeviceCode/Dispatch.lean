import DeviceCode.Registry

/-!
# Dispatch

Which method a class runs for a virtual slot, and which types could stand in for a class that
implements none.
-/

namespace DeviceCode

namespace Program

/-- The types that a type extends or implements, the last one first. -/
def parents (p : Program) (id : TypeId) : List TypeId :=
  match p.typeDef? id with
  | none => []
  | some d =>
    ((d.base.toList ++ d.interfaces).filterMap fun t =>
      match t with
      | .named parent _ => some parent
      | _ => none).reverse

/-- Follows the parents of the pending types, depth first, through at most `bound` types. -/
def reaches (p : Program) (target : TypeId) : (bound : Nat) → (pending : List TypeId) → Bool
  | _, [] => false
  | 0, id :: _ => id == target
  | n + 1, id :: rest => id == target || reaches p target n (p.parents id ++ rest)

/-- The type is the target, derives from it, or implements it. The search gives up after 256
types. -/
def isSubtype (p : Program) (id target : TypeId) : Bool := p.reaches target 256 [id]

def isConcrete (p : Program) (id : TypeId) : Bool :=
  match p.typeDef? id with
  | none => false
  | some d => !d.isAbstract && (d.kind == .classType || d.kind == .structType)

end Program

namespace VirtualSlot

/-- What an implementation has to look like: the name and the parameters of the slot's method. -/
structure Pattern where
  method : MethodId
  name : String
  params : List TypeRef

/-- The method implements the slot when it is declared in a type with those arguments. -/
def Pattern.accepts (s : Pattern) (args : List TypeRef) (id : MethodId) (m : MethodDef) : Bool :=
  !m.isStatic &&
    (id == s.method || m.overrides.contains s.method ||
      (m.name == s.name && m.params.map (·.substitute args) == s.params)) &&
    !m.isAbstract && m.body.isSome

/-- The implementation that the type or one of its bases declares, nearest first; the search goes
through `bound` types. -/
def Pattern.search (p : Program) (s : Pattern) :
    (bound : Nat) → TypeRef → Option (MethodId × List TypeRef)
  | 0, _ => none
  | n + 1, .named id args =>
    match p.typeDef? id with
    | none => none
    | some d =>
      match d.methods.find? fun m => (p.methodDef? m).any (s.accepts args m) with
      | some m => some (m, args)
      | none => d.base.bind fun base => Pattern.search p s n (base.substitute args)
  | _ + 1, _ => none

/-- The method that a class runs for the slot, with the arguments of the type that declares it; none
if the class is not a concrete subtype of the slot's owner. -/
def implementation (p : Program) (slot : VirtualSlot) (type : TypeRef) :
    Except CompileError (Option (MethodId × List TypeRef)) :=
  match type, slot.owner with
  | .named id _, .named owner ownerArgs =>
    if p.isConcrete id && p.isSubtype id owner then
      match p.methodDef? slot.method with
      | none => .error (.unresolvableReference "method" slot.key)
      | some m =>
        let pattern : Pattern :=
          { method := slot.method, name := m.name, params := m.params.map (·.substitute ownerArgs) }
        .ok (pattern.search p 64 type)
    else .ok none
  | _, _ => .ok none

/-- The types without parameters that would implement the slot if they had instances. -/
def candidates (p : Program) (slot : VirtualSlot) : Except CompileError (List String) :=
  p.typeIds.filterMapM fun id => do
    if (p.typeDef? id).all (·.genericParams > 0) then return none
    let type : TypeRef := .named id []
    return (← slot.implementation p type).map fun _ => p.fullName type

end VirtualSlot

end DeviceCode
