/-!
# Single-precision floats

A float is its 32 bits. This module has its magnitude `m * 2 ^ q`, the rounding of such a magnitude
to the nearest float, and what follows from them: the order, the conversions from doubles and from
and to integers, and arithmetic. An operation without a result gives `notANumber`.
-/

namespace DeviceCode

/-- A non-negative number `m * 2 ^ q`. -/
structure Magnitude where
  m : Nat
  q : Int
  deriving DecidableEq, Inhabited

def Magnitude.floorAt (x : Magnitude) (unit : Int) : Nat :=
  if unit ≤ x.q then x.m <<< (x.q - unit).toNat else x.m >>> (unit - x.q).toNat

/-- The value in multiples of `2 ^ unit`, to nearest, a tie to the even one. -/
def Magnitude.roundAt (x : Magnitude) (unit : Int) : Nat :=
  if unit ≤ x.q then x.m <<< (x.q - unit).toNat
  else
    let d := 1 <<< (unit - x.q).toNat
    let k := x.m / d
    let twice := 2 * (x.m % d)
    if twice < d || (twice = d && k % 2 = 0) then k else k + 1

namespace Binary32

def positiveInfinity : UInt32 := 0x7F800000

def signBit : UInt32 := 0x80000000

def notANumber : UInt32 := 0x7FC00000

def isNegative (b : UInt32) : Bool := b &&& signBit != 0

def unsigned (b : UInt32) : UInt32 := b &&& 0x7FFFFFFF

def isNaN (b : UInt32) : Bool := positiveInfinity < unsigned b

def isInfinite (b : UInt32) : Bool := unsigned b == positiveInfinity

def isFinite (b : UInt32) : Bool := unsigned b < positiveInfinity

def isZero (b : UInt32) : Bool := unsigned b == 0

def negate (b : UInt32) : UInt32 := b ^^^ signBit

def magnitude (b : UInt32) : Magnitude :=
  let exponent := ((b >>> 23) &&& 0xFF).toNat
  let fraction := (b &&& 0x7FFFFF).toNat
  if exponent = 0 then ⟨fraction, -149⟩ else ⟨0x800000 + fraction, (exponent : Int) - 150⟩

def isNaN64 (b : UInt64) : Bool := 0x7FF0000000000000 < b &&& 0x7FFFFFFFFFFFFFFF

/-- The float nearest to a magnitude: 24 bits, and nothing smaller than `2 ^ -149`. The bits of
`k * 2 ^ unit` are `k` and, for every step of the unit, one step of the exponent. -/
def ofMagnitude (x : Magnitude) : UInt32 :=
  if x.m = 0 then 0
  else
    let unit := max (x.q + Nat.log2 x.m - 23) (-149)
    let bits := x.roundAt unit + (unit + 149).toNat * 0x800000
    if bits < 0x7F800000 then bits.toUInt32 else positiveInfinity

def withSign (negative : Bool) (b : UInt32) : UInt32 := if negative then b ||| signBit else b

def ofInt (n : Int) : UInt32 := withSign (n < 0) (ofMagnitude ⟨n.natAbs, 0⟩)

/-- The nearest float of a double. What is not a number stays so, with the leading bits of its
payload. -/
def ofBinary64 (b : UInt64) : UInt32 :=
  let negative := b >>> 63 != 0
  let exponent := ((b >>> 52) &&& 0x7FF).toNat
  let fraction := (b &&& 0xFFFFFFFFFFFFF).toNat
  withSign negative <|
    if exponent = 0x7FF then
      if fraction = 0 then positiveInfinity
      else notANumber ||| (fraction >>> 29).toUInt32
    else if exponent = 0 then ofMagnitude ⟨fraction, -1074⟩
    else ofMagnitude ⟨0x10000000000000 + fraction, (exponent : Int) - 1075⟩

def truncate (b : UInt32) : Int :=
  let n : Int := (magnitude b).floorAt 0
  if isNegative b then -n else n

/-- The integer part, brought into the range from `low` to `high`; 0 for what is not a number. -/
def toIntWithin (low high : Int) (b : UInt32) : Int :=
  if isNaN b then 0
  else if isInfinite b then if isNegative b then low else high
  else max low (min high (truncate b))

def toInt32 (b : UInt32) : Int32 := Int32.ofInt (toIntWithin (-2147483648) 2147483647 b)

def toUInt32 (b : UInt32) : UInt32 := (toIntWithin 0 4294967295 b).toNat.toUInt32

/-! ## Order -/

/-- A number in the order of the floats; both zeros have the same. -/
def rank (b : UInt32) : Int := if isNegative b then -(unsigned b).toNat else (unsigned b).toNat

def isOrdered (a b : UInt32) : Bool := !isNaN a && !isNaN b

def equal (a b : UInt32) : Bool := isOrdered a b && rank a == rank b

def less (a b : UInt32) : Bool := isOrdered a b && rank a < rank b

def lessOrEqual (a b : UInt32) : Bool := isOrdered a b && rank a ≤ rank b

/-! ## Arithmetic -/

/-- A finite float in multiples of `2 ^ unit`, where `unit` is not above its own. -/
def multiples (unit : Int) (b : UInt32) : Int :=
  let n : Int := (magnitude b).floorAt unit
  if isNegative b then -n else n

def add (a b : UInt32) : UInt32 :=
  if isNaN a || isNaN b then notANumber
  else if isInfinite a then
    if isInfinite b && isNegative a != isNegative b then notANumber else a
  else if isInfinite b then b
  else
    let unit := min (magnitude a).q (magnitude b).q
    let sum := multiples unit a + multiples unit b
    if sum = 0 then withSign (isNegative a && isNegative b) 0
    else withSign (sum < 0) (ofMagnitude ⟨sum.natAbs, unit⟩)

def sub (a b : UInt32) : UInt32 := add a (negate b)

def mul (a b : UInt32) : UInt32 :=
  let negative := isNegative a != isNegative b
  if isNaN a || isNaN b then notANumber
  else if isInfinite a || isInfinite b then
    if isZero a || isZero b then notANumber else withSign negative positiveInfinity
  else
    let x := magnitude a
    let y := magnitude b
    withSign negative (ofMagnitude ⟨x.m * y.m, x.q + y.q⟩)

/-- A quotient cut off after more than 26 bits; the last bit tells whether anything was cut off. -/
def quotient (x y : Magnitude) : Magnitude :=
  let n := x.m <<< 50
  ⟨2 * (n / y.m) + (if n % y.m = 0 then 0 else 1), x.q - y.q - 51⟩

def div (a b : UInt32) : UInt32 :=
  let negative := isNegative a != isNegative b
  if isNaN a || isNaN b then notANumber
  else if isInfinite a then
    if isInfinite b then notANumber else withSign negative positiveInfinity
  else if isInfinite b then withSign negative 0
  else if isZero b then
    if isZero a then notANumber else withSign negative positiveInfinity
  else withSign negative (ofMagnitude (quotient (magnitude a) (magnitude b)))

/-- The remainder of the division of `a` by `b` with the quotient cut off; it has the sign of `a`
and is exact. -/
def remainder (a b : UInt32) : UInt32 :=
  if isNaN a || isNaN b || isInfinite a || isZero b then notANumber
  else if isInfinite b then a
  else
    let x := magnitude a
    let y := magnitude b
    let unit := min x.q y.q
    withSign (isNegative a) (ofMagnitude ⟨x.floorAt unit % y.floorAt unit, unit⟩)

end Binary32

end DeviceCode
