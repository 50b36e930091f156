import DeviceCode.Image
import DeviceCode.Machine.Value

/-!
# Slot areas

Arguments, local variables and static fields live in areas of bytes. A slot is a tag byte and a
payload, which the tag gives its width and its meaning. Only scalars and references can be loaded
and stored.
-/

namespace DeviceCode

abbrev SlotArea := Array UInt8

namespace SlotArea

def slotSize (tag : UInt8) : Nat :=
  match Tag.ofId? tag with
  | some t => t.slotSize
  | none => 1

def ofSlots (slots : List SlotRecord) : SlotArea :=
  (slots.flatMap fun s => s.tag :: List.replicate (slotSize s.tag - 1) 0).toArray

def slotOffsets (slots : List SlotRecord) : List Nat :=
  placements 0 (slots.map fun s => slotSize s.tag)

/-- The tag of the slot at an offset, if its payload lies in the area. -/
def tagAt? (area : SlotArea) (offset : Nat) : Option Tag := do
  let tag ← Tag.ofId? (← area[offset]?)
  if offset + 1 + tag.width ≤ area.size then some tag else none

def byteAt (area : SlotArea) (offset : Nat) : UInt8 := area[offset]?.getD 0

def wordAt (area : SlotArea) (offset : Nat) : UInt16 :=
  Word.ofBytes16 (area.byteAt offset) (area.byteAt (offset + 1))

def doubleAt (area : SlotArea) (offset : Nat) : UInt32 :=
  Word.ofBytes32 (area.byteAt offset) (area.byteAt (offset + 1)) (area.byteAt (offset + 2))
    (area.byteAt (offset + 3))

def valueAt (area : SlotArea) (payload : Nat) : Tag → Option Value
  | .bool | .u8 => some (.i4 (area.byteAt payload).toUInt32.toInt32)
  | .i8 => some (.i4 (area.byteAt payload).toInt8.toInt32)
  | .char | .u16 => some (.i4 (area.wordAt payload).toUInt32.toInt32)
  | .i16 => some (.i4 (area.wordAt payload).toInt16.toInt32)
  | .i32 | .u32 => some (.i4 (area.doubleAt payload).toInt32)
  | .f32 => some (.r4 (area.doubleAt payload))
  | .reference =>
    let handle := area.doubleAt payload
    some (if handle = 0 then .null else .i4 handle.toInt32)
  | _ => none

def load (area : SlotArea) (offset : Nat) : Option Value := do
  area.valueAt (offset + 1) (← area.tagAt? offset)

/-- The payload of a value, cut to the width of the tag; none for a tag that takes no value. -/
def payload (v : Value) : Tag → Option (List UInt8)
  | .bool | .u8 | .i8 => some [v.toInt.toUInt32.toUInt8]
  | .char | .u16 | .i16 => some (Word.bytes16 v.toInt.toUInt32.toUInt16)
  | .i32 | .u32 | .reference => some (Word.bytes32 v.toInt.toUInt32)
  | .f32 => some (Word.bytes32 v.toFloat)
  | _ => none

def write (area : SlotArea) (offset : Nat) : List UInt8 → SlotArea
  | [] => area
  | b :: bytes => write (area.setIfInBounds offset b) (offset + 1) bytes

def store (area : SlotArea) (offset : Nat) (v : Value) : Option SlotArea := do
  let bytes ← payload v (← area.tagAt? offset)
  some (area.write (offset + 1) bytes)

/-- The static region at the start: the tags are set, all payloads are zero. -/
def ofStatics (s : StaticsRecord) : SlotArea :=
  s.entries.foldl (fun area e => area.setIfInBounds e.offset.toNat e.tag)
    (Array.replicate s.size.toNat 0)

end SlotArea

end DeviceCode
