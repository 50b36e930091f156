import DeviceCode.Text
import DeviceCode.Word

/-!
# Wire format

The compact form in which programs and host maps are kept: numbers take as many groups of seven bits
as they need, lists and texts start with their length, and a choice is the position of the
alternative. `put` functions write and `WireM` computations read.
-/

namespace DeviceCode

inductive WireError where
  | unexpectedEnd
  /-- A number goes on beyond the width of its type. -/
  | badNumber
  | badBool
  | badOption
  | badText
  /-- There is no alternative with that position. -/
  | unknownVariant
  deriving DecidableEq, Inhabited

namespace WireError

def message : WireError → String
  | unexpectedEnd => "Hit the end of buffer, expected more data"
  | badNumber =>
    "Found a varint that didn't terminate. Is the usize too big for this platform?"
  | badBool => "Found a bool that wasn't 0 or 1"
  | badOption => "Found an Option discriminant that wasn't 0 or 1"
  | badText => "Tried to parse invalid utf-8"
  | unknownVariant => "Serde Deserialization Error"

end WireError

abbrev WireM := StateT (List UInt8) (Except WireError)

namespace Wire

/-! ## Writing -/

/-- A number in groups of seven bits, the lowest first; all but the last have the high bit set. At
most `groups` groups are written. -/
def putGroups : (groups : Nat) → Nat → List UInt8
  | 0, _ => []
  | k + 1, n => if n < 128 then [n.toUInt8] else (n % 128 + 128).toUInt8 :: putGroups k (n / 128)

def putNat (n : Nat) : List UInt8 := putGroups 10 n

def zigzag (n : Int) : Nat := if 0 ≤ n then 2 * n.toNat else 2 * n.natAbs - 1

def putInt (n : Int) : List UInt8 := putNat (zigzag n)

def putBool (b : Bool) : List UInt8 := [if b then 1 else 0]

def putText (s : String) : List UInt8 :=
  let bytes := Text.utf8 s
  putNat bytes.length ++ bytes

def putOption {α : Type} (put : α → List UInt8) : Option α → List UInt8
  | none => [0]
  | some a => 1 :: put a

def putList {α : Type} (put : α → List UInt8) (xs : List α) : List UInt8 :=
  putNat xs.length ++ xs.flatMap put

def putVariant {α : Type} [DecidableEq α] (all : List α) (a : α) : List UInt8 :=
  putNat (all.idxOf a)

/-! ## Reading -/

def byte : WireM UInt8
  | [] => .error .unexpectedEnd
  | b :: rest => .ok (b, rest)

/-- The groups of a number: at most `groups`, of which the last is at most `last`. -/
def groups (last : Nat) : (groups : Nat) → WireM Nat
  | 0 => throw .badNumber
  | k + 1 => do
    let b := (← byte).toNat
    if b < 128 then
      if k = 0 ∧ last < b then throw .badNumber
      return b
    else
      let rest ← groups last k
      return b - 128 + 128 * rest

def word16 : WireM UInt16 := Nat.toUInt16 <$> groups 3 3

def word32 : WireM UInt32 := Nat.toUInt32 <$> groups 15 5

def word64 : WireM UInt64 := Nat.toUInt64 <$> groups 1 10

def unzigzag (n : Nat) : Int := if n % 2 = 0 then (n / 2 : Nat) else -((n / 2 : Nat) : Int) - 1

def int32 : WireM Int32 := (fun w => Int32.ofInt (unzigzag w.toNat)) <$> word32

def int64 : WireM Int64 := (fun w => Int64.ofInt (unzigzag w.toNat)) <$> word64

def bool : WireM Bool := do
  match (← byte).toNat with
  | 0 => return false
  | 1 => return true
  | _ => throw .badBool

def pattern32 : WireM UInt32
  | b₀ :: b₁ :: b₂ :: b₃ :: rest => .ok (Word.ofBytes32 b₀ b₁ b₂ b₃, rest)
  | _ => .error .unexpectedEnd

def pattern64 : WireM UInt64
  | b₀ :: b₁ :: b₂ :: b₃ :: b₄ :: b₅ :: b₆ :: b₇ :: rest =>
    .ok (Word.ofHalves (Word.ofBytes32 b₀ b₁ b₂ b₃) (Word.ofBytes32 b₄ b₅ b₆ b₇), rest)
  | _ => .error .unexpectedEnd

def take (n : Nat) : WireM (List UInt8) := fun bytes =>
  let front := bytes.take n
  if front.length < n then .error .unexpectedEnd else .ok (front, bytes.drop n)

def text : WireM String := do
  let length ← word64
  match Text.ofUtf8? (← take length.toNat) with
  | some s => return s
  | none => throw .badText

def option {α : Type} (item : WireM α) : WireM (Option α) := do
  match (← byte).toNat with
  | 0 => return none
  | 1 => return some (← item)
  | _ => throw .badOption

def more {α : Type} (item : WireM α) : (n : Nat) → Array α → WireM (Array α)
  | 0, items => return items
  | n + 1, items => do
    let a ← item
    more item n (items.push a)

def array {α : Type} (item : WireM α) : WireM (Array α) := do
  let count ← word64
  more item count.toNat #[]

def list {α : Type} (item : WireM α) : WireM (List α) := Array.toList <$> array item

def variant {α : Type} (all : List α) : WireM α := do
  match all[(← word32).toNat]? with
  | some a => return a
  | none => throw .unknownVariant

end Wire

end DeviceCode
