import DeviceCode.Registry

/-!
# Symbolic operands

While a method is written in C, the operand stack holds expressions that are not evaluated yet. An
operand knows the C type of its expression and the variables that it reads, so that it can be put
into a temporary before one of them changes.
-/

namespace DeviceCode

/-- A variable as far as changes matter: two accesses with the same `CVar` are to the same place. -/
inductive CVar where
  | argument (index : UInt16)
  | localVar (index : UInt16)
  | temporary (depth : Nat) (type : CType)
  | static (key : String)
  deriving DecidableEq, Inhabited

structure COperand where
  expr : CExpr
  /-- The type of the expression in C. -/
  native : CType
  reads : List CVar
  /-- A literal or a plain variable, which costs nothing to repeat. -/
  simple : Bool
  deriving Inhabited

namespace COperand

def type (o : COperand) : CType := o.native.stackClass

def literal (expr : CExpr) (native : CType) : COperand :=
  { expr, native, reads := [], simple := true }

def ofPlace (place : CPlace) (native : CType) (v : CVar) : COperand :=
  { expr := .read place, native, reads := [v], simple := true }

def temporary (depth : Nat) (type : CType) : COperand :=
  ofPlace (.temporary depth type) type (.temporary depth type)

def readsOf (parts : List COperand) : List CVar :=
  parts.foldl (fun vs o =>
    o.reads.foldl (fun vs v => if vs.contains v then vs else vs ++ [v]) vs) []

def compound (expr : CExpr) (native : CType) (parts : List COperand) : COperand :=
  { expr, native, reads := readsOf parts, simple := false }

def readsStatic (o : COperand) : Bool :=
  o.reads.any fun
    | .static _ => true
    | _ => false

def signed (o : COperand) : CExpr := if o.native = .u4 then .cast .i4 o.expr else o.expr

def unsigned (o : COperand) : CExpr := if o.native = .u4 then o.expr else .cast .u4 o.expr

def isCanonical (o : COperand) (depth : Nat) : Bool :=
  match o.expr with
  | .read (.temporary d t) => d == depth && t == o.type
  | _ => false

/-! ## Operations on operands -/

def int (v : Int32) : COperand := literal (.int v) .i4

def float (bits : UInt32) : Except CObstacle COperand :=
  if Binary32.isFinite bits then .ok (literal (.float bits) .r4) else .error (.nonFinite bits)

def shiftAmount (o : COperand) : CExpr := .paren (.binary .and o.expr (.int 31))

/-- An operation on floats; the sign of an operation does not matter. -/
def floatBinary (op : BinaryOp) (a b : COperand) : Except CObstacle CExpr :=
  match op with
  | .add => .ok (.paren (.binary .add a.expr b.expr))
  | .sub => .ok (.paren (.binary .sub a.expr b.expr))
  | .mul => .ok (.paren (.binary .mul a.expr b.expr))
  | .div | .divUn => .ok (.paren (.binary .div a.expr b.expr))
  | .rem | .remUn => .ok (.call .floatRemainder [a.expr, b.expr])
  | .and | .or | .xor | .shl | .shr | .shrUn => .error .floatBits

/-- An operation on integers. Signed overflow wraps on the device, where plain C leaves it
undefined, so signed arithmetic goes through calls. -/
def intBinary (op : BinaryOp) (a b : COperand) : CExpr :=
  match op with
  | .add => .call .add [a.signed, b.signed]
  | .sub => .call .sub [a.signed, b.signed]
  | .mul => .call .mul [a.signed, b.signed]
  | .div => .call .div [a.signed, b.signed]
  | .rem => .call .rem [a.signed, b.signed]
  | .divUn => .paren (.cast .i4 (.binary .div a.unsigned b.unsigned))
  | .remUn => .paren (.cast .i4 (.binary .rem a.unsigned b.unsigned))
  | .and => .paren (.binary .and a.expr b.expr)
  | .or => .paren (.binary .or a.expr b.expr)
  | .xor => .paren (.binary .xor a.expr b.expr)
  | .shl => .paren (.cast .i4 (.binary .shl a.unsigned b.shiftAmount))
  | .shr => .paren (.binary .shr a.signed b.shiftAmount)
  | .shrUn => .paren (.cast .i4 (.binary .shr a.unsigned b.shiftAmount))

def binary (op : BinaryOp) (a b : COperand) : Except CObstacle COperand :=
  if a.type = .ptr || b.type = .ptr then .error .handleArithmetic
  else if a.type = .r4 || b.type = .r4 then
    (floatBinary op a b).map fun e => compound e .r4 [a, b]
  else .ok (compound (intBinary op a b) .i4 [a, b])

def neg (a : COperand) : Except CObstacle COperand :=
  if a.type = .ptr then .error .handleArithmetic
  else if a.type = .r4 then .ok (compound (.paren (.unary .minus a.expr)) .r4 [a])
  else .ok (compound (.call .neg [a.signed]) .i4 [a])

def complement (a : COperand) : Except CObstacle COperand :=
  if a.type = .i4 then .ok (compound (.paren (.unary .complement a.signed)) .i4 [a])
  else .error (.complementOf a.type)

def convert (type : CType) (a : COperand) : Except CObstacle COperand :=
  if a.type = .ptr then .error .handleConversion
  else .ok (compound (.paren (.cast type a.expr)) type [a])

def convertUnsigned (a : COperand) : Except CObstacle COperand :=
  if a.type = .i4 then .ok (compound (.paren (.cast .r4 a.unsigned)) .r4 [a])
  else .error (.unsignedConversionOf a.type)

end COperand

namespace Comparison

def cOperator : Comparison → CBinary
  | eq => .eq
  | ne => .ne
  | ge => .ge
  | gt => .gt
  | le => .le
  | lt => .lt

/-- The test that fails exactly when this one holds, on ordered operands. -/
def inverse : Comparison → CBinary
  | eq => .ne
  | ne => .eq
  | ge => .lt
  | gt => .le
  | le => .gt
  | lt => .ge

def isOrdering : Comparison → Bool
  | eq | ne => false
  | ge | gt | le | lt => true

end Comparison

namespace COperand

/-- The comparison as an expression. An unsigned comparison of floats holds when one of them is not
a number. -/
def compareExpr (cmp : Comparison) (isUnsigned : Bool) (a b : COperand) : CExpr :=
  let isFloat := a.type = .r4 || b.type = .r4
  if !cmp.isOrdering then .paren (.binary cmp.cOperator a.expr b.expr)
  else if isFloat && isUnsigned then
    .paren (.unary .logicalNot (.paren (.binary cmp.inverse a.expr b.expr)))
  else if isFloat then .paren (.binary cmp.cOperator a.expr b.expr)
  else if isUnsigned then .paren (.binary cmp.cOperator a.unsigned b.unsigned)
  else .paren (.binary cmp.cOperator a.signed b.signed)

def compare (cmp : Comparison) (isUnsigned : Bool) (a b : COperand) : Except CObstacle COperand :=
  if (a.type = .ptr || b.type = .ptr) && cmp.isOrdering then .error .handleOrdering
  else .ok (compound (compareExpr cmp isUnsigned a b) .i4 [a, b])

end COperand

def Relation.comparison : Relation → Comparison
  | eq => .eq
  | gt => .gt
  | lt => .lt

end DeviceCode
