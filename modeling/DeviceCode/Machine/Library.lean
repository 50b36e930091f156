import DeviceCode.Machine.Value

/-!
# The machine's library

The mathematical functions that a machine offers. They are known by their signatures; a machine
without the device's library knows no others.
-/

namespace DeviceCode

namespace Library

/-- What follows the last opening bracket of a signature, without the brackets that close it. -/
def parameterText (signature : List Char) : List Char :=
  if signature.contains '(' then
    ((signature.reverse.takeWhile (· != '(')).dropWhile (· == ')')).reverse
  else []

def countSeparators : List Char → Nat
  | [] => 0
  | c :: rest => (if c == ',' && rest.head? == some ' ' then 1 else 0) + countSeparators rest

def arity (signature : String) : Nat :=
  match parameterText signature.toList with
  | [] => 0
  | params => countSeparators params + 1

def owner : String := "System.Math."

/-- The name of a method of that type: what stands before the first bracket. -/
def name? (signature : String) : Option String :=
  let cs := signature.toList
  if owner.toList.isPrefixOf cs then
    some (String.ofList ((cs.drop owner.length).takeWhile (· != '(')))
  else none

/-! ## Functions on floats -/

def rounded (f : Float → Float) (x : UInt32) : UInt32 :=
  (f (Float32.ofBits x).toFloat).toFloat32.toBits

def rounded₂ (f : Float → Float → Float) (x y : UInt32) : UInt32 :=
  (f (Float32.ofBits x).toFloat (Float32.ofBits y).toFloat).toFloat32.toBits

/-- The float function of that name. The logarithm to a base is a quotient of two floats. -/
def floatFunction (name : String) (args : List UInt32) : Option UInt32 :=
  match name, args with
  | "Abs", [a] => some (if Binary32.less a 0 then Binary32.negate a else a)
  | "Max", [a, b] => some (if Binary32.less b a then a else b)
  | "Min", [a, b] => some (if Binary32.less a b then a else b)
  | "Clamp", [v, low, high] =>
    let v := if Binary32.less low v then v else low
    some (if Binary32.less v high then v else high)
  | "Sqrt", [a] => some (Float32.ofBits a).sqrt.toBits
  | "Floor", [a] => some (Float32.ofBits a).floor.toBits
  | "Ceiling", [a] => some (Float32.ofBits a).ceil.toBits
  | "Round", [a] => some (Float32.ofBits a).round.toBits
  | "Sin", [a] => some (rounded Float.sin a)
  | "Cos", [a] => some (rounded Float.cos a)
  | "Tan", [a] => some (rounded Float.tan a)
  | "Exp", [a] => some (rounded Float.exp a)
  | "Log", [a] => some (rounded Float.log a)
  | "Log", [a, b] => some (Binary32.div (rounded Float.log a) (rounded Float.log b))
  | "Log10", [a] => some (rounded Float.log10 a)
  | "Log2", [a] => some (rounded Float.log2 a)
  | "Pow", [a, b] => some (rounded₂ Float.pow a b)
  | "Atan2", [a, b] => some (rounded₂ Float.atan2 a b)
  | _, _ => none

/-! ## Functions on integers -/

def integerFunction (name : String) (args : List Int32) : Option Int32 :=
  match name, args with
  | "Abs", [a] => some (if a < 0 then -a else a)
  | "Max", [a, b] => some (if a < b then b else a)
  | "Min", [a, b] => some (if b < a then b else a)
  | "Clamp", [v, low, high] =>
    let v := if v < low then low else v
    some (if high < v then high else v)
  | _, _ => none

def sign (v : Value) : Option Value := do
  let x ← v.float?
  some (.i4 (if Binary32.less 0 x then 1 else if Binary32.less x 0 then -1 else 0))

/-- The result of a library method, if the machine offers it for such operands. -/
def call (signature : String) (floatResult : Bool) (args : List Value) : Option Value := do
  let name ← name? signature
  if floatResult then
    let x ← args.mapM Value.float?
    return .r4 (← floatFunction name x)
  else if name == "Sign" then sign (← args.head?)
  else
    let x ← args.mapM Value.int?
    return .i4 (← integerFunction name x)

end Library

end DeviceCode
