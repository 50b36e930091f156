import DeviceCode.CUnit.Syntax
import DeviceCode.Machine.Library
import DeviceCode.Machine.SlotArea

/-!
# The values of C expressions

What an expression of the C subset comes to, for a compiler with integers of 32 bits in two's
complement and arithmetic right shifts. A number has the type that it has after the integer
promotions, and the usual arithmetic conversions bring two numbers to one type (`CNumber.pair`).
Where C gives no meaning, as to a signed overflow, there is a fault.
-/

namespace DeviceCode

/-- A number after the integer promotions. -/
inductive CNumber where
  | int (v : Int32)
  | uint (v : UInt32)
  | float (bits : UInt32)
  deriving DecidableEq, Inhabited

/-- Why C gives no meaning to what a unit does. -/
inductive CFault where
  | overflow
  | divideByZero
  | badShift
  /-- A float beyond the integer type that it is converted to. -/
  | outOfRange
  /-- An operation on floats that C has for integers only. -/
  | notAnInteger
  | uninitialized (place : CPlace)
  | outOfBounds (place : CPlace)
  /-- A callee that there is not, or not for such arguments. -/
  | badCall (callee : CCallee)
  | unknownFunction (index : Nat)
  | unknownLabel (index : Nat)
  /-- A function ends without the value that it returns. -/
  | missingReturn
  | outOfFuel
  deriving DecidableEq, Inhabited

namespace CNumber

def checked (n : Int) : Except CFault CNumber :=
  if -2147483648 ≤ n ∧ n ≤ 2147483647 then .ok (int (Int32.ofInt n)) else .error .overflow

def ofBool (b : Bool) : CNumber := int (if b then 1 else 0)

def isTrue : CNumber → Bool
  | int v => v != 0
  | uint v => v != 0
  | float bits => !Binary32.isZero bits

/-- The number modulo 2³². A float loses its fraction and must then lie between `low` and `high`. -/
def word (low high : Int) : CNumber → Except CFault UInt32
  | int v => .ok v.toUInt32
  | uint v => .ok v
  | float bits =>
    let n := Binary32.truncate bits
    if Binary32.isFinite bits && low ≤ n && n ≤ high then .ok (Int32.ofInt n).toUInt32
    else .error .outOfRange

def toFloat : CNumber → UInt32
  | int v => Binary32.ofInt v.toInt
  | uint v => Binary32.ofInt v.toNat
  | float bits => bits

def cast (x : CNumber) : CType → Except CFault CNumber
  | .u1 => (fun w => int w.toUInt8.toUInt32.toInt32) <$> x.word 0 255
  | .i1 => (fun w => int w.toUInt8.toInt8.toInt32) <$> x.word (-128) 127
  | .u2 => (fun w => int w.toUInt16.toUInt32.toInt32) <$> x.word 0 65535
  | .i2 => (fun w => int w.toUInt16.toInt16.toInt32) <$> x.word (-32768) 32767
  | .i4 => (fun w => int w.toInt32) <$> x.word (-2147483648) 2147483647
  | .u4 | .ptr => uint <$> x.word 0 4294967295
  | .r4 => .ok (float x.toFloat)

/-! ## Operators -/

/-- Two numbers of one type. -/
inductive Pair where
  | ints (a b : Int32)
  | uints (a b : UInt32)
  | floats (a b : UInt32)

/-- The usual arithmetic conversions: to a float beside a float, else to an unsigned integer beside
an unsigned integer. -/
def pair : CNumber → CNumber → Pair
  | int a, int b => .ints a b
  | int a, uint b => .uints a.toUInt32 b
  | uint a, int b => .uints a b.toUInt32
  | uint a, uint b => .uints a b
  | a, b => .floats a.toFloat b.toFloat

def minus : CNumber → Except CFault CNumber
  | int v => checked (-v.toInt)
  | uint v => .ok (uint (-v))
  | float bits => .ok (float (Binary32.negate bits))

def complement : CNumber → Except CFault CNumber
  | int v => .ok (int (~~~v))
  | uint v => .ok (uint (~~~v))
  | float _ => .error .notAnInteger

def unary (x : CNumber) (op : CUnary) : Except CFault CNumber :=
  match op with
  | .minus => x.minus
  | .complement => x.complement
  | .logicalNot => .ok (ofBool !x.isTrue)

/-- Sums, differences, products and quotients of integers that C has, and nothing else. -/
def intArith (op : CBinary) (a b : Int32) : Except CFault CNumber :=
  match op with
  | .add => checked (a.toInt + b.toInt)
  | .sub => checked (a.toInt - b.toInt)
  | .mul => checked (a.toInt * b.toInt)
  | .div => if b = 0 then .error .divideByZero else checked (a.toInt.tdiv b.toInt)
  | .rem =>
    if b = 0 then .error .divideByZero
    else (checked (a.toInt.tdiv b.toInt)).map fun _ => int (a % b)
  | .and => .ok (int (a &&& b))
  | .or => .ok (int (a ||| b))
  | .xor => .ok (int (a ^^^ b))
  | .eq => .ok (ofBool (a == b))
  | .ne => .ok (ofBool (a != b))
  | .ge => .ok (ofBool (b ≤ a))
  | .gt => .ok (ofBool (b < a))
  | .le => .ok (ofBool (a ≤ b))
  | .lt => .ok (ofBool (a < b))
  | .shl | .shr => .error .badShift

def uintArith (op : CBinary) (a b : UInt32) : Except CFault CNumber :=
  match op with
  | .add => .ok (uint (a + b))
  | .sub => .ok (uint (a - b))
  | .mul => .ok (uint (a * b))
  | .div => if b = 0 then .error .divideByZero else .ok (uint (a / b))
  | .rem => if b = 0 then .error .divideByZero else .ok (uint (a % b))
  | .and => .ok (uint (a &&& b))
  | .or => .ok (uint (a ||| b))
  | .xor => .ok (uint (a ^^^ b))
  | .eq => .ok (ofBool (a == b))
  | .ne => .ok (ofBool (a != b))
  | .ge => .ok (ofBool (b ≤ a))
  | .gt => .ok (ofBool (b < a))
  | .le => .ok (ofBool (a ≤ b))
  | .lt => .ok (ofBool (a < b))
  | .shl | .shr => .error .badShift

def floatArith (op : CBinary) (a b : UInt32) : Except CFault CNumber :=
  match op with
  | .add => .ok (float (Binary32.add a b))
  | .sub => .ok (float (Binary32.sub a b))
  | .mul => .ok (float (Binary32.mul a b))
  | .div => .ok (float (Binary32.div a b))
  | .eq => .ok (ofBool (Binary32.equal a b))
  | .ne => .ok (ofBool !(Binary32.equal a b))
  | .ge => .ok (ofBool (Binary32.lessOrEqual b a))
  | .gt => .ok (ofBool (Binary32.less b a))
  | .le => .ok (ofBool (Binary32.lessOrEqual a b))
  | .lt => .ok (ofBool (Binary32.less a b))
  | .rem | .and | .or | .xor | .shl | .shr => .error .notAnInteger

def shiftAmount : CNumber → Except CFault UInt32
  | int v => if v.toUInt32 < 32 then .ok v.toUInt32 else .error .badShift
  | uint v => if v < 32 then .ok v else .error .badShift
  | float _ => .error .notAnInteger

def shift (left : Bool) (x amount : CNumber) : Except CFault CNumber := do
  let n ← amount.shiftAmount
  match x with
  | int v => if left then checked (v.toInt <<< n.toNat) else return int (v >>> n.toInt32)
  | uint v => return uint (if left then v <<< n else v >>> n)
  | float _ => throw .notAnInteger

def binary (op : CBinary) (a b : CNumber) : Except CFault CNumber :=
  match op with
  | .shl => shift true a b
  | .shr => shift false a b
  | _ =>
    match pair a b with
    | .ints a b => intArith op a b
    | .uints a b => uintArith op a b
    | .floats a b => floatArith op a b

/-! ## Calls -/

def max (a b : CNumber) : CNumber :=
  match pair a b with
  | .ints a b => int (if b < a then a else b)
  | .uints a b => uint (if b < a then a else b)
  | .floats a b => float (if Binary32.less b a then a else b)

def min (a b : CNumber) : CNumber :=
  match pair a b with
  | .ints a b => int (if a < b then a else b)
  | .uints a b => uint (if a < b then a else b)
  | .floats a b => float (if Binary32.less a b then a else b)

def sign : CNumber → CNumber
  | int v => int (if 0 < v then 1 else if v < 0 then -1 else 0)
  | uint v => int (if 0 < v then 1 else 0)
  | float bits => int (if Binary32.less 0 bits then 1 else if Binary32.less bits 0 then -1 else 0)

def wrapping (callee : CCallee) (args : List Int32) : Except CFault Int32 :=
  match callee, args with
  | .add, [a, b] => .ok (a + b)
  | .sub, [a, b] => .ok (a - b)
  | .mul, [a, b] => .ok (a * b)
  | .neg, [a] => .ok (-a)
  | .div, [a, b] =>
    if b = -1 then .ok (-a) else if b = 0 then .error .divideByZero else .ok (a / b)
  | .rem, [a, b] =>
    if b = -1 then .ok 0 else if b = 0 then .error .divideByZero else .ok (a % b)
  | _, _ => .error (.badCall callee)

def libraryCall (symbol : String) (args : List CNumber) : Except CFault CNumber :=
  match symbol, args with
  | "DIVER_MAX", [a, b] => .ok (a.max b)
  | "DIVER_MIN", [a, b] => .ok (a.min b)
  | "DIVER_CLAMP", [v, low, high] => .ok ((v.max low).min high)
  | "DIVER_SIGN", [v] => .ok v.sign
  | "abs", [v] => do
    match ← v.cast .i4 with
    | int n => checked n.toInt.natAbs
    | _ => throw .notAnInteger
  | _, _ =>
    match floatName symbol with
    | none => .error (.badCall (.library symbol))
    | some name =>
      match Library.floatFunction name (args.map toFloat) with
      | none => .error (.badCall (.library symbol))
      | some bits => .ok (float bits)
where
  /-- What a function on floats computes. -/
  floatName : String → Option String
    | "fabsf" => some "Abs"
    | "sqrtf" => some "Sqrt"
    | "floorf" => some "Floor"
    | "ceilf" => some "Ceiling"
    | "roundf" => some "Round"
    | "sinf" => some "Sin"
    | "cosf" => some "Cos"
    | "tanf" => some "Tan"
    | "expf" => some "Exp"
    | "logf" | "DIVER_LOGB" => some "Log"
    | "log10f" => some "Log10"
    | "log2f" => some "Log2"
    | "powf" => some "Pow"
    | "atan2f" => some "Atan2"
    | _ => none

/-- The value of a call. The parameters of the wrapping operations are signed integers. -/
def call (callee : CCallee) (args : List CNumber) : Except CFault CNumber :=
  match callee, args with
  | .floatRemainder, [a, b] => .ok (float (Binary32.remainder a.toFloat b.toFloat))
  | .floatRemainder, _ => .error (.badCall callee)
  | .library symbol, args => libraryCall symbol args
  | callee, args => do
    let words ← args.mapM (word (-2147483648) 2147483647)
    return int (← wrapping callee (words.map (·.toInt32)))

end CNumber

/-! ## Places -/

namespace CType

def size : CType → Nat
  | u1 | i1 => 1
  | u2 | i2 => 2
  | i4 | u4 | r4 | ptr => 4

/-- The value at an offset of an area, least significant byte first. -/
def load (type : CType) (area : SlotArea) (offset : Nat) : CNumber :=
  match type with
  | u1 => .int (area.byteAt offset).toUInt32.toInt32
  | i1 => .int (area.byteAt offset).toInt8.toInt32
  | u2 => .int (area.wordAt offset).toUInt32.toInt32
  | i2 => .int (area.wordAt offset).toInt16.toInt32
  | i4 => .int (area.doubleAt offset).toInt32
  | u4 | ptr => .uint (area.doubleAt offset)
  | r4 => .float (area.doubleAt offset)

def bytes (type : CType) (x : CNumber) : List UInt8 :=
  let w := match x with
    | .int v => v.toUInt32
    | .uint v => v
    | .float bits => bits
  (Word.bytes32 w).take type.size

end CType

/-- What the code of a function works on: the argument area, the static region, and the variables
that have a value. -/
structure CFrame where
  args : SlotArea
  statics : SlotArea
  vars : List (CPlace × CNumber) := []
  deriving DecidableEq, Inhabited

namespace CFrame

def get (f : CFrame) (place : CPlace) : Except CFault CNumber :=
  match place with
  | .argument type offset => inArea f.args type offset.toNat
  | .static type offset => inArea f.statics type offset.toNat
  | .localVar _ | .temporary _ _ =>
    match f.vars.lookup place with
    | some x => .ok x
    | none => .error (.uninitialized place)
where
  inArea (area : SlotArea) (type : CType) (offset : Nat) : Except CFault CNumber :=
    if offset + type.size ≤ area.size then .ok (type.load area offset)
    else .error (.outOfBounds place)

def set (f : CFrame) (place : CPlace) (type : CType) (x : CNumber) : Except CFault CFrame := do
  let x ← x.cast type
  match place with
  | .argument _ offset => return { f with args := ← inArea f.args offset.toNat (type.bytes x) }
  | .static _ offset => return { f with statics := ← inArea f.statics offset.toNat (type.bytes x) }
  | .localVar _ | .temporary _ _ =>
    return { f with vars := (place, x) :: f.vars.filter (·.1 ≠ place) }
where
  inArea (area : SlotArea) (offset : Nat) (bytes : List UInt8) : Except CFault SlotArea :=
    if offset + bytes.length ≤ area.size then .ok (area.write offset bytes)
    else .error (.outOfBounds place)

end CFrame

/-! ## Expressions -/

namespace CExpr

mutual

def eval (f : CFrame) : CExpr → Except CFault CNumber
  | read place => f.get place
  | int v => .ok (.int v)
  | float bits => .ok (.float bits)
  | null => .ok (.int 0)
  | paren e => eval f e
  | cast type e => do (← eval f e).cast type
  | unary op e => do (← eval f e).unary op
  | binary op a b => do CNumber.binary op (← eval f a) (← eval f b)
  | call callee args => do CNumber.call callee (← evalAll f args)

def evalAll (f : CFrame) : List CExpr → Except CFault (List CNumber)
  | [] => .ok []
  | e :: es => do return (← eval f e) :: (← evalAll f es)

end

end CExpr

end DeviceCode
