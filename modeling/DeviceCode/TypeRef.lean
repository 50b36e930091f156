import DeviceCode.Scalar

/-!
# Type references

`TypeRef` is a type as signatures and operands name it. A generic parameter stands for the argument
of the declaring type at its position: `TypeRef.substitute` puts the arguments in.
-/

namespace DeviceCode

/-- The position of a type in its program. -/
structure TypeId where
  val : UInt32
  deriving DecidableEq, Inhabited

/-- The position of a method in its program. -/
structure MethodId where
  val : UInt32
  deriving DecidableEq, Inhabited

def TypeId.index (id : TypeId) : Nat := id.val.toNat

def MethodId.index (id : MethodId) : Nat := id.val.toNat

inductive TypeRef where
  | void
  | primitive (p : Primitive)
  | string
  | object
  | array (element : TypeRef)
  | named (id : TypeId) (args : List TypeRef)
  | param (position : UInt16)
  | byRef (pointee : TypeRef)
  | pointer (pointee : TypeRef)
  deriving Inhabited

namespace TypeRef

/-! ## Equality -/

mutual

def beq : TypeRef → TypeRef → Bool
  | void, void | string, string | object, object => true
  | primitive p, primitive q => p == q
  | array a, array b | byRef a, byRef b | pointer a, pointer b => beq a b
  | named i as, named j bs => i == j && beqList as bs
  | param i, param j => i == j
  | _, _ => false

def beqList : List TypeRef → List TypeRef → Bool
  | [], [] => true
  | a :: as, b :: bs => beq a b && beqList as bs
  | _, _ => false

end

mutual

theorem beq_iff : ∀ a b : TypeRef, beq a b = true ↔ a = b
  | void, b => by cases b <;> simp [beq]
  | string, b => by cases b <;> simp [beq]
  | object, b => by cases b <;> simp [beq]
  | primitive p, b => by cases b <;> simp [beq]
  | param i, b => by cases b <;> simp [beq]
  | array a, b => by cases b <;> simp [beq, beq_iff a]
  | byRef a, b => by cases b <;> simp [beq, beq_iff a]
  | pointer a, b => by cases b <;> simp [beq, beq_iff a]
  | named i as, b => by cases b <;> simp [beq, beqList_iff as]

theorem beqList_iff : ∀ as bs : List TypeRef, beqList as bs = true ↔ as = bs
  | [], bs => by cases bs <;> simp [beqList]
  | a :: as, bs => by cases bs <;> simp [beqList, beq_iff a, beqList_iff as]

end

instance : DecidableEq TypeRef := fun a b => decidable_of_iff _ (beq_iff a b)

/-! ## Generic arguments -/

mutual

/-- Puts `args` in for the parameters. A parameter past the end of `args` stays. -/
def substitute (args : List TypeRef) : TypeRef → TypeRef
  | param i => args.getD i.toNat (param i)
  | array t => array (substitute args t)
  | byRef t => byRef (substitute args t)
  | pointer t => pointer (substitute args t)
  | named id inner => named id (substituteAll args inner)
  | void => void
  | primitive p => primitive p
  | string => string
  | object => object

def substituteAll (args : List TypeRef) : List TypeRef → List TypeRef
  | [] => []
  | t :: ts => substitute args t :: substituteAll args ts

end

theorem substituteAll_eq_map (args ts : List TypeRef) :
    substituteAll args ts = ts.map (substitute args) := by
  induction ts with
  | nil => rfl
  | cons t ts ih => simp [substituteAll, ih]

def isVoid : TypeRef → Bool
  | void => true
  | _ => false

/-- The parameters of a type that declares `n` of them, as its own arguments. -/
def params (n : UInt16) : List TypeRef := (List.range n.toNat).map fun i => param i.toUInt16

end TypeRef

/-- A field as an operand names it: the type it is reached through, which may derive from the one
that declares it. -/
structure FieldRef where
  owner : TypeRef
  name : String
  deriving DecidableEq, Inhabited

/-- A method as an operand names it. Parameters and result are in declared form: the parameters of
the owner's type stand unreplaced. -/
structure MethodRef where
  owner : TypeRef
  name : String
  params : List TypeRef
  ret : TypeRef
  hasThis : Bool
  deriving DecidableEq, Inhabited

namespace MethodRef

def isConstructor (m : MethodRef) : Bool := m.name == ".ctor"

/-- The values that a call takes from the stack, the receiver included. -/
def pops (m : MethodRef) : Nat := m.params.length + m.hasThis.toNat

def pushes (m : MethodRef) : Nat := (!m.ret.isVoid).toNat

end MethodRef

end DeviceCode
