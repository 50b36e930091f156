/-!
# Scalars and slot tags

`Primitive` is a scalar type of a program; `Tag` is the kind of a slot on the device. Every value
that the device stores is one tag byte and a payload of the tag's width. The tag numbering is part
of the image format: `Tag.ofId?_id` says that a tag byte names its tag.
-/

namespace DeviceCode

/-- The scalar types of a program, in the order in which they are numbered when serialized. -/
inductive Primitive where
  | bool | char | i8 | u8 | i16 | u16 | i32 | u32 | i64 | u64 | f32 | f64
  deriving DecidableEq, Inhabited

namespace Primitive

def all : List Primitive := [bool, char, i8, u8, i16, u16, i32, u32, i64, u64, f32, f64]

def name : Primitive → String
  | bool => "Boolean"
  | char => "Char"
  | i8 => "SByte"
  | u8 => "Byte"
  | i16 => "Int16"
  | u16 => "UInt16"
  | i32 => "Int32"
  | u32 => "UInt32"
  | i64 => "Int64"
  | u64 => "UInt64"
  | f32 => "Single"
  | f64 => "Double"

/-- The device has no 64-bit values: these are narrowed to 32 bits. -/
def isWide : Primitive → Bool
  | i64 | u64 | f64 => true
  | _ => false

end Primitive

/-- The kinds of slot. `address` is an interior pointer (a region byte and a 32-bit offset), `value`
an embedded structure and `boxed` a value whose type is known only when it runs. -/
inductive Tag where
  | bool | u8 | i8 | char | i16 | u16 | i32 | u32 | f32
  | arrayHeader | string | objectHeader | methodPointer | address | reference | value | boxed
  deriving DecidableEq, Inhabited

namespace Tag

def all : List Tag :=
  [bool, u8, i8, char, i16, u16, i32, u32, f32, arrayHeader, string, objectHeader, methodPointer,
    address, reference, value, boxed]

def id : Tag → UInt8
  | bool => 0
  | u8 => 1
  | i8 => 2
  | char => 3
  | i16 => 4
  | u16 => 5
  | i32 => 6
  | u32 => 7
  | f32 => 8
  | arrayHeader => 11
  | string => 12
  | objectHeader => 13
  | methodPointer => 14
  | address => 15
  | reference => 16
  | value => 17
  | boxed => 18

def ofId? (id : UInt8) : Option Tag :=
  match id.toNat with
  | 0 => some bool
  | 1 => some u8
  | 2 => some i8
  | 3 => some char
  | 4 => some i16
  | 5 => some u16
  | 6 => some i32
  | 7 => some u32
  | 8 => some f32
  | 11 => some arrayHeader
  | 12 => some string
  | 13 => some objectHeader
  | 14 => some methodPointer
  | 15 => some address
  | 16 => some reference
  | 17 => some value
  | 18 => some boxed
  | _ => none

@[simp] theorem ofId?_id (t : Tag) : ofId? t.id = some t := by
  cases t <;> rfl

def width : Tag → Nat
  | bool | u8 | i8 => 1
  | char | i16 | u16 | string | objectHeader => 2
  | i32 | u32 | f32 | methodPointer | reference | value => 4
  | arrayHeader | address | boxed => 5

def slotSize (t : Tag) : Nat := 1 + t.width

def isNumeric : Tag → Bool
  | bool | u8 | i8 | char | i16 | u16 | i32 | u32 | f32 => true
  | _ => false

def isUnsigned : Tag → Bool
  | bool | u8 | char | u16 | u32 => true
  | _ => false

/-- The slot that holds a primitive; a wide primitive takes the slot of its 32-bit counterpart. -/
def ofPrimitive : Primitive → Tag
  | .bool => bool
  | .char => char
  | .i8 => i8
  | .u8 => u8
  | .i16 => i16
  | .u16 => u16
  | .i32 | .i64 => i32
  | .u32 | .u64 => u32
  | .f32 | .f64 => f32

theorem slotSize_pos (t : Tag) : 0 < t.slotSize := Nat.add_pos_left Nat.one_pos _

end Tag

/-- The byte that stands for the tag of a method without a result. -/
def voidTag : UInt8 := 0xFF

end DeviceCode
