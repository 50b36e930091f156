import DeviceCode.Binary32

/-!
# Decimal text of floats

The fewest digits that read back as the same float, of those the nearest to it, and their layout.
Digits are found by exact arithmetic: a decimal reads back when it lies between the halfway points
to the two neighbours of the float.
-/

namespace DeviceCode

/-- The number `digits * 10 ^ exponent`. -/
structure Decimal where
  digits : Nat
  exponent : Int
  deriving DecidableEq, Inhabited

namespace Decimal

def compareScaled (a : Nat) (i : Int) (n : Nat) (j : Int) : Ordering :=
  compare ((a * Nat.pow 10 i.toNat) <<< (-j).toNat) ((n * Nat.pow 10 (-i).toNat) <<< j.toNat)

/-- The next float below is half as far away as the next one above. -/
def hasNarrowGap (b : UInt32) : Bool :=
  b &&& 0x7FFFFF == 0 && Binary32.unsigned b >>> 23 > 1

/-- The decimal lies among the numbers that round to the finite float. A halfway point belongs to
the float with the even significand. -/
def readsBack (b : UInt32) (d : Decimal) : Bool :=
  let x := Binary32.magnitude b
  let low := compareScaled d.digits d.exponent
    (if hasNarrowGap b then 4 * x.m - 1 else 4 * x.m - 2) (x.q - 2)
  let high := compareScaled d.digits d.exponent (4 * x.m + 2) (x.q - 2)
  let even := x.m % 2 = 0
  (low = .gt || (even && low = .eq)) && (high = .lt || (even && high = .eq))

def scale (x : Magnitude) : Int :=
  let powers := (List.range 85).map fun (i : Nat) => (i : Int) - 45
  (powers.find? fun k => compareScaled 1 k x.m x.q = .gt).getD 39

/-- The multiple of `10 ^ grid` below the float and the one above it. Of two that read back the
nearer is chosen, and the upper one when they are equally near. -/
def onGrid (b : UInt32) (grid : Int) : Option Decimal :=
  let x := Binary32.magnitude b
  let below :=
    ((x.m * Nat.pow 10 (-grid).toNat) <<< x.q.toNat) / (Nat.pow 10 grid.toNat <<< (-x.q).toNat)
  let low : Decimal := ⟨below, grid⟩
  let high : Decimal := ⟨below + 1, grid⟩
  match readsBack b low, readsBack b high with
  | true, true =>
    if compareScaled (2 * below + 1) grid (2 * x.m) x.q = .gt then some low else some high
  | true, false => some low
  | false, true => some high
  | false, false => none

/-- Moves trailing zeros of the digits into the exponent, at most `bound` of them. -/
def dropZeros : (bound : Nat) → Decimal → Decimal
  | 0, d => d
  | n + 1, d => if d.digits % 10 = 0 then dropZeros n ⟨d.digits / 10, d.exponent + 1⟩ else d

/-- The shortest decimal that reads back as the finite float, which is not zero. Nine digits are
enough; the last alternative is the exact value. -/
def shortest (b : UInt32) : Decimal :=
  let x := Binary32.magnitude b
  let k := scale x
  match (List.range 9).findSome? fun (n : Nat) => onGrid b (k - (n + 1)) with
  | some d => dropZeros 10 d
  | none => ⟨(x.m * Nat.pow 5 (-x.q).toNat) <<< x.q.toNat, min x.q 0⟩

/-- Digits with a point: at least one digit stands on both sides of it. -/
def positional (digits : List Char) (exponent : Int) : List Char :=
  if 0 ≤ exponent then digits ++ List.replicate exponent.toNat '0' ++ ['.', '0']
  else
    let places := (-exponent).toNat
    if places < digits.length then
      digits.take (digits.length - places) ++ '.' :: digits.drop (digits.length - places)
    else '0' :: '.' :: List.replicate (places - digits.length) '0' ++ digits

/-- The first digit, the others after a point, and the exponent of ten. -/
def scientific (digits : List Char) (exponent : Int) : List Char :=
  let fraction := match digits.drop 1 with
    | [] => []
    | ds => '.' :: ds
  digits.take 1 ++ fraction ++ 'e' :: (toString exponent).toList

/-- The text of a magnitude: positional from `0.0001` to below `10 ^ 16`. -/
def text (d : Decimal) : String :=
  let digits := Nat.toDigits 10 d.digits
  let leading := d.exponent + digits.length - 1
  String.ofList <|
    if -4 ≤ leading ∧ leading < 16 then positional digits d.exponent
    else scientific digits leading

end Decimal

namespace Binary32

def text (b : UInt32) : String :=
  if isNaN b then "NaN"
  else
    let sign := if isNegative b then "-" else ""
    sign ++
      if isInfinite b then "inf"
      else if isZero b then "0.0"
      else (Decimal.shortest (unsigned b)).text

end Binary32

end DeviceCode
