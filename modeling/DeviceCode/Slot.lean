import DeviceCode.CompileError
import DeviceCode.Program
import DeviceCode.Word

/-!
# Slots

How a value of a type is stored (`Storage`), and areas of slots that lie end to end (`SlotList`).
-/

namespace DeviceCode

inductive Storage where
  /-- A scalar; `narrowed` when a 64-bit type was squeezed into 32 bits. -/
  | scalar (tag : Tag) (narrowed : Bool)
  /-- An embedded structure, named by its key. -/
  | value (key : String)
  /-- An interior pointer. -/
  | address
  /-- A value of any type. -/
  | boxed
  /-- A reference to an object, an array or a string. -/
  | reference
  deriving DecidableEq, Inhabited

namespace Storage

def ofPrimitive (p : Primitive) : Storage := scalar (Tag.ofPrimitive p) p.isWide

/-- The storage of a type. A value cannot be void, and a named type must be known. -/
def ofType (p : Program) (t : TypeRef) : Except CompileError Storage :=
  match t with
  | .void => .error (.unresolvableReference "storage for type" "Void")
  | .primitive q => .ok (ofPrimitive q)
  | .byRef _ | .pointer _ => .ok address
  | .object => .ok boxed
  | .string | .array _ | .param _ => .ok reference
  | .named id _ =>
    match p.typeDef? id with
    | none => .error (.unresolvableReference "type" ("#" ++ toString id.index))
    | some d =>
      match d.kind with
      | .enumType q => .ok (ofPrimitive q)
      | .structType => .ok (value (p.fullName t))
      | .classType | .interfaceType => .ok reference

def ofResult (p : Program) (t : TypeRef) : Except CompileError (Option Storage) :=
  if t.isVoid then .ok none else (ofType p t).map some

def tag : Storage → Tag
  | scalar t _ => t
  | value _ => .value
  | address => .address
  | boxed => .boxed
  | reference => .reference

def narrowed : Storage → Bool
  | scalar _ n => n
  | _ => false

def valueClass : Storage → Option String
  | value key => some key
  | _ => none

def resultTag : Option Storage → UInt8
  | none => voidTag
  | some s => s.tag.id

end Storage

/-- One argument or local variable. -/
structure Slot where
  /-- Where the tag byte stands. -/
  offset : UInt16
  tag : Tag
  valueClass : Option String
  deriving DecidableEq, Inhabited

/-- Slots that lie end to end from offset 0. -/
structure SlotList where
  slots : Array Slot := #[]
  /-- The bytes that the slots take together. -/
  size : Nat := 0
  deriving DecidableEq, Inhabited

namespace SlotList

/-- Appends a slot. Its offset and its index must be 16-bit words. -/
def push (l : SlotList) (s : Storage) : Except CompileError SlotList :=
  match word16? l.size with
  | none => .error (.limitExceeded "slot area" 65535)
  | some offset =>
    match word16? l.slots.size with
    | none => .error (.limitExceeded "slot count" 65535)
    | some _ =>
      .ok { slots := l.slots.push { offset, tag := s.tag, valueClass := s.valueClass }
            size := l.size + s.tag.slotSize }

def get? (l : SlotList) (index : UInt16) : Option Slot := l.slots[index.toNat]?

end SlotList

end DeviceCode
