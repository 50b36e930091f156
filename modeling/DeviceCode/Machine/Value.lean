import DeviceCode.Binary32
import DeviceCode.Opcode

/-!
# Machine values

The values on the operand stack, and the tests, the conversions and the arithmetic on them. Two
integers are worked on as integers; an integer beside a float becomes a float.
-/

namespace DeviceCode

inductive Value where
  | i4 (v : Int32)
  | r4 (bits : UInt32)
  | null
  deriving DecidableEq, Inhabited

/-- Why an operation has no result. -/
inductive OperandFault where
  | typeMismatch
  | divideByZero
  | unknownOperation
  deriving DecidableEq, Inhabited

namespace Value

def isTruthy : Value → Bool
  | i4 v => v != 0
  | r4 bits => !Binary32.isZero bits
  | null => false

def int? : Value → Option Int32
  | i4 v => some v
  | r4 bits => some (Binary32.toInt32 bits)
  | null => none

def float? : Value → Option UInt32
  | i4 v => some (Binary32.ofInt v.toInt)
  | r4 bits => some bits
  | null => none

def toInt (v : Value) : Int32 := v.int?.getD 0

def toFloat (v : Value) : UInt32 := v.float?.getD 0

def expectInt (v : Value) : Except OperandFault Int32 :=
  match v.int? with
  | some n => .ok n
  | none => .error .typeMismatch

def expectFloat (v : Value) : Except OperandFault UInt32 :=
  match v.float? with
  | some b => .ok b
  | none => .error .typeMismatch

/-! ## Tests -/

/-- The order that a test asks for. -/
inductive Order where
  | eq | gt | ge | lt | le
  deriving DecidableEq, Inhabited

namespace Order

def holds (o : Order) (x y : Int) : Bool :=
  match o with
  | eq => x == y
  | gt => y < x
  | ge => y ≤ x
  | lt => x < y
  | le => x ≤ y

def holdsFloat (o : Order) (x y : UInt32) : Bool :=
  match o with
  | eq => Binary32.equal x y
  | gt => Binary32.less y x
  | ge => Binary32.lessOrEqual y x
  | lt => Binary32.less x y
  | le => Binary32.lessOrEqual x y

end Order

/-- An unsigned test takes integers for unsigned ones, the null reference for zero, and holds for a
pair of floats without an order, unless it tests for equality. -/
def test (o : Order) (unsigned : Bool) : Value → Value → Except OperandFault Bool
  | i4 x, i4 y =>
    .ok (if unsigned then o.holds x.toUInt32.toNat y.toUInt32.toNat else o.holds x.toInt y.toInt)
  | null, null => .ok (o.holds 0 0)
  | null, i4 y => nullTest (fun y => o.holds 0 y) y
  | i4 x, null => nullTest (fun x => o.holds x 0) x
  | null, r4 _ | r4 _, null => if o = .eq then .ok false else .error .typeMismatch
  | r4 x, r4 y => .ok (floatTest x y)
  | r4 x, i4 y => .ok (floatTest x (Binary32.ofInt y.toInt))
  | i4 x, r4 y => .ok (floatTest (Binary32.ofInt x.toInt) y)
where
  nullTest (holds : Int → Bool) (v : Int32) : Except OperandFault Bool :=
    if unsigned then .ok (holds v.toUInt32.toNat)
    else if o = .eq then .ok false else .error .typeMismatch
  floatTest (x y : UInt32) : Bool :=
    (unsigned && !Binary32.isOrdered x y && o != .eq) || o.holdsFloat x y

def branchTest (t : BranchTest) (a b : Value) : Except OperandFault Bool :=
  match t with
  | .eq => test .eq false a b
  | .ne => (test .eq false a b).map not
  | .ge => test .ge false a b
  | .gt => test .gt false a b
  | .le => test .le false a b
  | .lt => test .lt false a b
  | .geUn => test .ge true a b
  | .gtUn => test .gt true a b
  | .leUn => test .le true a b
  | .ltUn => test .lt true a b

def valueTest (t : ValueTest) (a b : Value) : Except OperandFault Bool :=
  match t with
  | .eq => test .eq false a b
  | .gt => test .gt false a b
  | .gtUn => test .gt true a b
  | .lt => test .lt false a b
  | .ltUn => test .lt true a b

def ofBool (b : Bool) : Value := i4 (if b then 1 else 0)

/-! ## Arithmetic -/

/-- Integers wrap around, and a shift takes its amount modulo 32. -/
def integerOp (x y : Int32) : BinaryOp → Except OperandFault Int32
  | .add => .ok (x + y)
  | .sub => .ok (x - y)
  | .mul => .ok (x * y)
  | .div => if y = 0 then .error .divideByZero else .ok (x / y)
  | .divUn => if y = 0 then .error .divideByZero else .ok (x.toUInt32 / y.toUInt32).toInt32
  | .rem => if y = 0 then .error .divideByZero else .ok (x % y)
  | .remUn => if y = 0 then .error .divideByZero else .ok (x.toUInt32 % y.toUInt32).toInt32
  | .and => .ok (x &&& y)
  | .or => .ok (x ||| y)
  | .xor => .ok (x ^^^ y)
  | .shl => .ok (x <<< y)
  | .shr => .ok (x >>> y)
  | .shrUn => .ok (x.toUInt32 >>> y.toUInt32).toInt32

def floatOp (x y : UInt32) : BinaryOp → Except OperandFault UInt32
  | .add => .ok (Binary32.add x y)
  | .sub => .ok (Binary32.sub x y)
  | .mul => .ok (Binary32.mul x y)
  | .div | .divUn => .ok (Binary32.div x y)
  | .rem | .remUn => .ok (Binary32.remainder x y)
  | _ => .error .typeMismatch

/-- The operation whose byte it is. A byte that is none is found out after the operands. -/
def binary (kind : UInt8) (a b : Value) : Except OperandFault Value :=
  match a, b with
  | i4 x, i4 y =>
    match BinaryOp.ofByte? kind with
    | some op => (integerOp x y op).map i4
    | none => .error .unknownOperation
  | a, b => do
    let x ← a.expectFloat
    let y ← b.expectFloat
    match BinaryOp.ofByte? kind with
    | some op => return r4 (← floatOp x y op)
    | none => throw .typeMismatch

def neg : Value → Except OperandFault Value
  | i4 v => .ok (i4 (-v))
  | r4 bits => .ok (r4 (Binary32.negate bits))
  | null => .error .typeMismatch

def complement : Value → Except OperandFault Value
  | i4 v => .ok (i4 (~~~v))
  | _ => .error .typeMismatch

def convert (v : Value) : Conversion → Except OperandFault Value
  | .r4 => r4 <$> v.expectFloat
  | .fromUnsigned => (fun n => r4 (Binary32.ofInt n.toUInt32.toNat)) <$> v.expectInt
  | .i1 => (fun n => i4 n.toInt8.toInt32) <$> v.expectInt
  | .i2 => (fun n => i4 n.toInt16.toInt32) <$> v.expectInt
  | .i4 => i4 <$> v.expectInt
  | .u1 => (fun n => i4 n.toUInt32.toUInt8.toUInt32.toInt32) <$> v.expectInt
  | .u2 => (fun n => i4 n.toUInt32.toUInt16.toUInt32.toInt32) <$> v.expectInt
  | .u4 =>
    match v with
    | r4 bits => .ok (i4 (Binary32.toUInt32 bits).toInt32)
    | v => i4 <$> v.expectInt

end Value

end DeviceCode
