import DeviceCode.Scalar

/-!
# The C subset

The C that methods are written in. A function takes its argument area and the static region as byte
pointers; its body is a flat list of statements with labels. Parentheses are part of an expression,
so that its text is read off it (`CExpr.text`).
-/

namespace DeviceCode

inductive CType where
  | u1 | i1 | u2 | i2 | i4 | u4 | r4
  /-- An object handle. -/
  | ptr
  deriving DecidableEq, Inhabited

namespace CType

def name : CType → String
  | u1 => "u1"
  | i1 => "i1"
  | u2 => "u2"
  | i2 => "i2"
  | i4 => "i4"
  | u4 => "u4"
  | r4 => "r4"
  | ptr => "ptr"

def rank : CType → Nat
  | u1 => 0
  | i1 => 1
  | u2 => 2
  | i2 => 3
  | i4 => 4
  | u4 => 5
  | r4 => 6
  | ptr => 7

/-- The C type of the payload of a slot; structured slots have none. -/
def ofTag? : Tag → Option CType
  | .bool | .u8 => some u1
  | .i8 => some i1
  | .char | .u16 => some u2
  | .i16 => some i2
  | .i32 => some i4
  | .u32 => some u4
  | .f32 => some r4
  | .reference => some ptr
  | _ => none

/-- The type of an operand on the stack: integers of every width are as good as `i4`. -/
def stackClass : CType → CType
  | r4 => r4
  | ptr => ptr
  | _ => i4

end CType

/-- What can be assigned to. Offsets are those of the payload. -/
inductive CPlace where
  | argument (type : CType) (offset : UInt16)
  | static (type : CType) (offset : UInt16)
  | localVar (index : UInt16)
  /-- The temporary for the operand at a depth of the stack. -/
  | temporary (depth : Nat) (type : CType)
  deriving DecidableEq, Inhabited

inductive CUnary where
  | minus | complement | logicalNot
  deriving DecidableEq, Inhabited

inductive CBinary where
  | add | sub | mul | div | rem | and | or | xor | shl | shr | eq | ne | ge | gt | le | lt
  deriving DecidableEq, Inhabited

/-- What an expression can call: the wrapping operations that every unit defines, the remainder of
floats, and what builtins stand for. -/
inductive CCallee where
  | add | sub | mul | div | rem | neg
  | floatRemainder
  | library (symbol : String)
  deriving DecidableEq, Inhabited

inductive CExpr where
  | read (place : CPlace)
  | int (value : Int32)
  | float (bits : UInt32)
  | null
  | paren (e : CExpr)
  | cast (type : CType) (e : CExpr)
  | unary (op : CUnary) (e : CExpr)
  | binary (op : CBinary) (a b : CExpr)
  | call (callee : CCallee) (args : List CExpr)
  deriving Inhabited

/-- An operand that moves into the temporary of its depth. -/
structure CMove where
  depth : Nat
  type : CType
  value : CExpr
  deriving Inhabited

/-- An argument of a call to another method: where it goes in the callee's area. -/
structure CArgument where
  offset : UInt16
  type : CType
  value : CExpr
  deriving Inhabited

inductive CStmt where
  | label (index : Nat)
  | assign (place : CPlace) (value : CExpr)
  /-- Moves that happen all at once. -/
  | moveAll (moves : List CMove)
  | ret (value : Option CExpr)
  | goto (target : Nat)
  | gotoIf (condition : CExpr) (target : Nat)
  /-- Goes to the target whose position is the value, and on when there is none. -/
  | switch (value : CExpr) (targets : List Nat)
  /-- Fills an area of `size` bytes, calls the method with it and keeps the result. -/
  | call (result : Option CPlace) (callee : Nat) (size : Nat) (args : List CArgument)
  deriving Inhabited

structure CFunction where
  /-- The index of the method. -/
  index : Nat
  /-- The signature of the method. -/
  signature : String
  ret : Option CType
  locals : List (Nat × CType)
  temporaries : List (Nat × CType)
  body : List CStmt
  deriving Inhabited

/-- The functions of a build. -/
structure CUnit where
  functions : List CFunction
  deriving Inhabited

end DeviceCode
